import Sirius.Memory.PageInvariant
import Mathlib.Order.Interval.Finset.Nat

/-!
# The bounds of the page table

`alloc_pages_setup` creates the entries of one GiB, and `get_free_page` searches marks for far more
pages. A call of `alloc_pages` touches the entries from the first free run on, one for each frame
it gets, so it stays in the table exactly when a run that is long enough starts early enough.
-/

namespace Sirius.Memory

open Library

/-- The entries that the loop of `alloc_pages` touches, in order. An iteration that gets no frame
touches none and does not end. -/
def allocPagesLoopTouched : (n page : Nat) → Mm → List Nat
  | 0, _, _ => []
  | n + 1, page, s =>
      let (frame, s) := allocFrame s
      if frame = 0 then [] else page :: allocPagesLoopTouched n (page + 1) s

/-- The entries that `alloc_pages` touches, also when it does not return. -/
def allocPagesTouched (len : Nat) (s : Mm) : List Nat :=
  if len = 0 ∨ s.allocSpinLock ≠ 0 then []
  else match getFreePage s.pageBitmap len with
    | none => []
    | some (index, bitmap) =>
        allocPagesLoopTouched len index { s with pageBitmap := bitmap, allocSpinLock := 1 }

/-- The entries that `free_pages` touches: as many as `get_busy_page_size` says, which reads marks
and touches no entry. -/
def freePagesTouched (addr : Nat) (s : Mm) : List Nat :=
  let index := (addr + 2 ^ 64 - allocPageMemory) % 2 ^ 64 / 0x1000 % 2 ^ 32
  if addr = 0 then []
  else match getBusyPageSize s.pageBitmap index with
    | none => []
    | some len => List.range' index len

/-- `len` pages at an address lie in the GiB that `alloc_pde` maps. -/
def InAllocWindow (addr len : Nat) : Prop :=
  allocPageMemory ≤ addr ∧ addr + len * 0x1000 ≤ allocPageMemory + 2 ^ 30

/-- A call of `alloc_pages` stays in the table: every entry touched exists, and a block that is
granted lies in the window. -/
structure AllocInTable (s : Mm) (type len addr : Nat) : Prop where
  touched : ∀ page ∈ allocPagesTouched len s, page < pteCount
  granted : ∀ v s', 0 < len → allocPages type len addr s = some (len, v, s') → InAllocWindow v len

/-- The number of frames that `alloc_frame` can still return. -/
def freeFrames (ram : Bytes) : Nat :=
  ((Finset.Ico (4096 * 8) (512 * 1024 / 4 * 8)).filter fun f => frameBit ram f = false).card

/-- There is room for the pages that get a frame, `len` unless the frames run out: a run of `len`
free pages starts so early that the table has entries for them. A request for which there is no
free run at all, or not a single frame, is not granted either. -/
def Placeable (s : Mm) (len : Nat) : Prop :=
  (∃ i, RunClear s.pageBitmap i len ∧ i + min len (freeFrames s.ramBitmap) ≤ pteCount) ∨
    (∀ i < markCount, ¬ RunClear s.pageBitmap i len) ∨ freeFrames s.ramBitmap = 0 ∨ 2 ^ 31 ≤ len

/-- The calls of the runs: allocations that find room, and frees of blocks that were allocated and
not freed since. -/
def PageCall.FindsRoom : Mm × List Block → PageCall → Prop
  | (s, _), .alloc _ len => 0 < len ∧ Placeable s len
  | (_, live), .free b => b ∈ live

variable {s : Mm} {live : List Block} {ram : Bytes} {type len addr page n f : Nat}

/-! ### Frames left -/

theorem mem_free_frames :
    f ∈ (Finset.Ico (4096 * 8) (512 * 1024 / 4 * 8)).filter (fun f => frameBit ram f = false) ↔
      FrameRange f ∧ frameBit ram f = false := by
  rw [Finset.mem_filter, Finset.mem_Ico, FrameRange]

/-- Taking a free frame leaves one less. -/
theorem free_frames_set (hf : FrameRange f) (hclear : frameBit ram f = false) :
    freeFrames ram = freeFrames (setFrame ram f) + 1 := by
  have herase : (Finset.Ico (4096 * 8) (512 * 1024 / 4 * 8)).filter
      (fun g => frameBit (setFrame ram f) g = false) =
      ((Finset.Ico (4096 * 8) (512 * 1024 / 4 * 8)).filter
        fun g => frameBit ram g = false).erase f := by
    ext g
    rw [mem_free_frames, Finset.mem_erase, mem_free_frames, frame_bit_set, Bool.or_eq_false_iff,
      decide_eq_false_iff_not]
    exact and_left_comm
  rw [freeFrames, freeFrames, herase,
    Finset.card_erase_add_one (mem_free_frames.mpr ⟨hf, hclear⟩)]

theorem free_frames_full (h : ∀ f, FrameRange f → frameBit ram f = true) : freeFrames ram = 0 := by
  refine Finset.card_eq_zero.mpr (Finset.filter_eq_empty_iff.mpr fun f hf => ?_)
  rw [h f (Finset.mem_Ico.mp hf)]
  exact Bool.true_eq_false.mp

/-- The loop touches one entry for each page, until the frames run out. -/
theorem alloc_pages_loop_touched (n page : Nat) (s : Mm) :
    allocPagesLoopTouched n page s = List.range' page (min n (freeFrames s.ramBitmap)) := by
  induction n generalizing page s with
  | zero => rw [Nat.zero_min]; rfl
  | succ n ih =>
      rcases alloc_frame_first s with ⟨f, hf, halloc⟩ | ⟨hfull, halloc⟩
      · have hzero : f * 0x1000 ≠ 0 := by
          have := hf.range.1
          omega
        rw [allocPagesLoopTouched, halloc, free_frames_set hf.range hf.clear,
          Nat.add_min_add_right, List.range'_succ]
        simp only [hzero, if_false, ih]
      · rw [allocPagesLoopTouched, halloc, free_frames_full hfull, Nat.min_zero]
        rfl

/-- The loop only returns when there was a frame for each page. -/
theorem alloc_pages_loop_enough {s' : Mm} (hloop : allocPagesLoop type n page s = some s') :
    n ≤ freeFrames s.ramBitmap := by
  induction n generalizing page s with
  | zero => exact Nat.zero_le _
  | succ n ih =>
      rcases alloc_pages_loop_succ type n page s with ⟨f, hf, hstep⟩ | ⟨-, hstep⟩
      · rw [hstep] at hloop
        rw [free_frames_set hf.range hf.clear]
        have hrest := ih hloop
        exact Nat.add_le_add_right hrest 1
      · rw [hstep] at hloop
        cases hloop

/-! ### One call -/

/-- The entries that `alloc_pages` touches: those from the first free run on. -/
theorem alloc_pages_touched (hlock : s.allocSpinLock = 0) (hpos : 0 < len) (hlen : len < 2 ^ 31) :
    (∃ i < markCount, RunClear s.pageBitmap i len ∧
        (∀ j < i, ¬ RunClear s.pageBitmap j len) ∧
        allocPagesTouched len s = List.range' i (min len (freeFrames s.ramBitmap))) ∨
      ((∀ i < markCount, ¬ RunClear s.pageBitmap i len) ∧ allocPagesTouched len s = []) := by
  have hgoes : ¬ (len = 0 ∨ s.allocSpinLock ≠ 0) := by
    rw [hlock]
    omega
  rw [allocPagesTouched, if_neg hgoes]
  rcases get_free_page_loop_spec s.pageBitmap hpos hlen markCount 0 with
    ⟨i, -, hi, hclear, hfirst, hpage⟩ | ⟨hnone, hpage⟩
  · have hget : getFreePage s.pageBitmap len = _ := hpage
    rw [hget]
    exact .inl ⟨i, by omega, hclear, fun j => hfirst j (Nat.zero_le j),
      alloc_pages_loop_touched len i _⟩
  · have hget : getFreePage s.pageBitmap len = _ := hpage
    rw [hget]
    exact .inr ⟨fun i hi => hnone i (Nat.zero_le i) (by omega), rfl⟩

/-- A call that returns has touched the entries of the block that it grants. -/
theorem alloc_pages_granted {v : Nat} {s' : Mm} (hpos : 0 < len)
    (halloc : allocPages type len addr s = some (len, v, s')) :
    ∃ i, v = allocPageMemory + i * 0x1000 ∧ allocPagesTouched len s = List.range' i len := by
  have hlock : ¬ s.allocSpinLock ≠ 0 := fun hlock => by
    rw [allocPages, if_neg (Nat.ne_of_gt hpos), if_pos hlock] at halloc
    cases halloc
  have hgoes : ¬ (len = 0 ∨ s.allocSpinLock ≠ 0) := fun h => h.elim (Nat.ne_of_gt hpos) hlock
  rw [allocPages, if_neg (Nat.ne_of_gt hpos), if_neg hlock] at halloc
  simp only [Option.bind_eq_bind, Option.bind_eq_some_iff] at halloc
  obtain ⟨⟨i, bitmap⟩, hget, last, hloop, hresult⟩ := halloc
  simp only [Option.pure_def, Option.some.injEq, Prod.mk.injEq] at hresult
  refine ⟨i, hresult.2.1.symm, ?_⟩
  have hframes := alloc_pages_loop_enough hloop
  rw [allocPagesTouched, if_neg hgoes, hget]
  simp only [alloc_pages_loop_touched, Nat.min_eq_left hframes]

/-- So it is enough that the entries touched exist. -/
theorem alloc_in_table_touched (h : ∀ page ∈ allocPagesTouched len s, page < pteCount) :
    AllocInTable s type len addr := by
  refine ⟨h, fun v s' hpos halloc => ?_⟩
  obtain ⟨i, rfl, htouched⟩ := alloc_pages_granted hpos halloc
  have hlast := h (i + (len - 1)) (by
    rw [htouched, List.mem_range'_1]
    omega)
  have hcount : pteCount = 262144 := rfl
  constructor
  · exact Nat.le_add_right _ _
  · rw [hcount] at hlast
    omega

/-- A call stays in the table exactly when there is room for it. -/
theorem alloc_in_table_iff (hlock : s.allocSpinLock = 0) (type len addr : Nat) :
    AllocInTable s type len addr ↔ Placeable s len := by
  rcases Nat.eq_zero_or_pos len with rfl | hpos
  · refine ⟨fun _ => .inl ⟨0, fun q hq hlt => by omega, by rw [Nat.zero_min]; exact Nat.zero_le _⟩,
      fun _ => alloc_in_table_touched ?_⟩
    rw [allocPagesTouched, if_pos (.inl rfl)]
    exact fun page hpage => absurd hpage List.not_mem_nil
  by_cases hlen : len < 2 ^ 31
  swap
  · refine ⟨fun _ => .inr (.inr (.inr (Nat.le_of_not_lt hlen))), fun _ => alloc_in_table_touched ?_⟩
    have hget : getFreePage s.pageBitmap len = none := get_free_page_loop_large _ hlen _ _ _
    rw [allocPagesTouched, hget, ite_self]
    exact fun page hpage => absurd hpage List.not_mem_nil
  rcases alloc_pages_touched hlock hpos hlen with ⟨i, hi, hclear, hfirst, htouched⟩ | ⟨hnone, htouched⟩
  · constructor
    · intro h
      rcases Nat.eq_zero_or_pos (freeFrames s.ramBitmap) with hzero | hframes
      · exact .inr (.inr (.inl hzero))
      · have hlast := h.touched (i + (min len (freeFrames s.ramBitmap) - 1)) (by
          rw [htouched, List.mem_range'_1]
          omega)
        exact .inl ⟨i, hclear, by omega⟩
    · intro h
      refine alloc_in_table_touched fun page hpage => ?_
      rw [htouched, List.mem_range'_1] at hpage
      rcases h with ⟨j, hj, hroom⟩ | hnone | hzero | hlarge
      · -- first fit: the run taken starts no later than the one with room
        have hle : i ≤ j := Nat.le_of_not_lt fun hlt => hfirst j hlt hj
        omega
      · exact absurd hclear (hnone i hi)
      · omega
      · omega
  · refine ⟨fun _ => .inr (.inl hnone), fun _ => alloc_in_table_touched ?_⟩
    rw [htouched]
    exact fun page hpage => absurd hpage List.not_mem_nil

/-! ### Runs -/

/-- The invariant holds in every state of a run whose allocations find room. -/
theorem placeable_run_inv {s₀ : Mm} (hrun : AllocatorRun PageCall.FindsRoom s₀ s live) :
    PageInvariant s live := by
  refine Run.invariant (fun state => PageInvariant state.1 state.2) hrun (setup_inv s₀) ?_
  intro state call next h hgood hstep
  cases hstep with
  | alloc s s' live type len addr granted v halloc =>
      obtain ⟨hpos, hplaceable⟩ := hgood
      obtain ⟨i, -, rfl, rfl, -⟩ := alloc_pages_cases h hpos halloc
      obtain ⟨-, hwindow⟩ :=
        ((alloc_in_table_iff h.lock type granted addr).mpr hplaceable).granted _ _ hpos halloc
      have hcount : pteCount = 262144 := rfl
      exact (alloc_pages_window_inv h hpos halloc (by omega)).2
  | free s s' live b hfree => exact (freed_inv h hgood hfree).2

/-- `free_pages` of a live block touches the entries of its pages. -/
theorem free_pages_touched (h : PageInvariant s live) {b : Block} (hb : b ∈ live) :
    freePagesTouched b.addr s = List.range' b.index b.len := by
  obtain ⟨hpos, hbound⟩ := h.bounds b hb
  rw [freePagesTouched, if_neg b.addr_ne_zero, b.index_eq hbound, h.busy_page_size hb]

/-- The bounds of the page table. In every state of every run whose allocations find room: the live
blocks lie in the window and have entries, `get_busy_page_size` keeps to the block, `free_pages` of
a live block touches entries of the table only, and so does a call of `alloc_pages`, with a window
inside the GiB, exactly when it finds room. -/
theorem page_table_bounds (s₀ s : Mm) (live : List Block)
    (hrun : AllocatorRun PageCall.FindsRoom s₀ s live) :
    (∀ b ∈ live, InAllocWindow b.addr b.len ∧
      getBusyPageSize s.pageBitmap b.index = some b.len ∧
      ∀ page ∈ freePagesTouched b.addr s, page < pteCount) ∧
    ∀ type len addr, AllocInTable s type len addr ↔ Placeable s len := by
  have h := placeable_run_inv hrun
  refine ⟨fun b hb => ?_, alloc_in_table_iff h.lock⟩
  have hcount : pteCount = 262144 := rfl
  obtain ⟨hpos, hbound⟩ := h.bounds b hb
  refine ⟨⟨Nat.le_add_right _ _, ?_⟩, h.busy_page_size hb, fun page hpage => ?_⟩
  · rw [Block.addr]
    omega
  · rw [free_pages_touched h hb, List.mem_range'_1] at hpage
    omega

/-- The result after the setup: a block of the pages that the frames of the setup suffice for finds
room. -/
theorem page_table_bounds_setup :
    AllocInTable (allocPagesSetup (ramSetup clearMachine)) 1 98304 0 := by
  obtain ⟨-, hiff⟩ := page_table_bounds clearMachine _ [] Run.refl
  obtain ⟨⟨i, hi, hfree⟩, -⟩ := setup_not_exhausted clearMachine (le_refl 98304)
  refine (hiff 1 98304 0).mpr (.inl ⟨i, fun q hq hlt => ?_, ?_⟩)
  · rw [hfree q hq hlt]
    rfl
  · exact (Nat.add_le_add_left (Nat.min_le_left _ _) i).trans hi

/-- A block is granted at the first page when the pages from there on are free. -/
theorem alloc_pages_first (type addr : Nat) (hlock : s.allocSpinLock = 0) (hpos : 0 < len)
    (hlen : len < 2 ^ 31) (hclear : RunClear s.pageBitmap 0 len)
    (hframes : FramesLeft s.ramBitmap len) :
    ∃ s', allocPages type len addr s = some (len, allocPageMemory, s') := by
  have hget : getFreePage s.pageBitmap len =
      some (0, masked len (markPos 0) false s.pageBitmap) := by
    rcases get_free_page_loop_spec s.pageBitmap hpos hlen markCount 0 with
      ⟨i, -, -, -, hfirst, hpage⟩ | ⟨hnone, -⟩
    · obtain rfl : i = 0 := by
        by_contra hne
        exact hfirst 0 le_rfl (Nat.pos_of_ne_zero hne) hclear
      exact hpage
    · exact absurd hclear (hnone 0 le_rfl (Nat.lt_add_of_pos_right (by decide)))
  obtain ⟨s', hloop⟩ := alloc_pages_loop_returns type 0 (markedFor s 0 len) hframes
  refine ⟨{ s' with allocSpinLock := 0 }, ?_⟩
  simp only [allocPages, Nat.ne_of_gt hpos, hlock, ne_eq, not_true, if_false, hget,
    Option.bind_eq_bind, Option.bind_some]
  unfold markedFor at hloop
  rw [hloop]
  rfl

/-- With clear memory, a block of one page more than the table has entries is granted. -/
theorem alloc_pages_behind_table :
    let s := allocPagesSetup (ramSetup clearMachine)
    AllocatorRun PageCall.FindsRoom clearMachine s [] ∧
      (∃ s', allocPages 0 (pteCount + 1) 0 s = some (pteCount + 1, allocPageMemory, s')) ∧
      pteCount ∈ allocPagesTouched (pteCount + 1) s ∧
      ¬ InAllocWindow allocPageMemory (pteCount + 1) := by
  intro s
  have hinv := setup_inv clearMachine
  have hcount : pteCount = 262144 ∧ markCount = 134217728 := ⟨rfl, rfl⟩
  have hclear : RunClear s.pageBitmap 0 (pteCount + 1) := fun q _ hlt => by
    rw [hinv.marks.free q (by omega) fun b hb => absurd hb List.not_mem_nil]
    rfl
  have hframes : FramesLeft s.ramBitmap (pteCount + 1) := by
    refine ⟨Finset.Ico 32768 (32768 + (pteCount + 1)), ?_, fun f hf => ?_⟩
    · rw [Nat.card_Ico, Nat.add_sub_cancel_left]
    · obtain ⟨hlow, hhigh⟩ := Finset.mem_Ico.mp hf
      refine ⟨⟨hlow, by omega⟩, ?_⟩
      have hbyte : s.ramBitmap (f / 8) = 0#8 := by
        show fillBytes (fillBytes _ 0 4096 0xff#8) 4096 12288 0#8 (f / 8) = 0#8
        rw [fillBytes, fillBytes, ite_eq_left_iff, if_neg (by omega)]
        exact fun _ => rfl
      rw [frameBit, hbyte]
      exact BitVec.getLsbD_zero
  obtain ⟨s', halloc⟩ :=
    alloc_pages_first 0 0 hinv.lock (Nat.zero_lt_succ _) (by omega) hclear hframes
  obtain ⟨i, hi, htouched⟩ := alloc_pages_granted (Nat.zero_lt_succ pteCount) halloc
  refine ⟨Run.refl, ⟨s', halloc⟩, ?_, fun hwindow => ?_⟩
  · rw [htouched, List.mem_range'_1]
    omega
  · have hend := hwindow.2
    omega

end Sirius.Memory
