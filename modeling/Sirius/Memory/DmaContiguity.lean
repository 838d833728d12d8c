import Sirius.Memory.PageInvariant

/-!
# Physical addresses of a block

`get_phy_addr` walks the page tables; the network and storage drivers hand its result for the
first page of a block to the device as the base of the whole block. `alloc_pages` takes the frames
of a block one at a time, the first free one each time, so the block is consecutive in physical
memory exactly when the bitmap has a run of free frames at its first free frame.
-/

namespace Sirius.Memory

open Library

/-- The physical address of `alloc_pte`. -/
def allocPteAddr : Nat := 0x5001000

/-- `pde[directory].phy_addr_pt` of `alloc_pde`, as `alloc_pages_setup` writes it. -/
def phyAddrPt (directory : Nat) : Nat :=
  (allocPteAddr + directory * 0x1000) >>> 12 &&& 0xffffffffffff

/-- `get_phy_addr`. `none` when the address belongs to a directory other than `alloc_pde`, which
entry 4 of `pdpte` points to. -/
def getPhyAddr (s : Mm) (v : Nat) : Option Nat :=
  let table := v >>> 12 &&& 0x1FF
  let directory := v >>> 21 &&& 0x1FF
  let directoryPtr := v >>> 30 &&& 0x1FF
  if directoryPtr = 4 then
    -- an entry of a page table takes eight bytes
    let pte := ((phyAddrPt directory <<< 12 &&& 0xffffffffffff) - allocPteAddr) / 8
    some ((s.allocPte (pte + table)).frames <<< 12 % 2 ^ 40 &&& 0xffffffffffff)
  else none

/-- The bytes of a block lie one after the other in physical memory. -/
def Contiguous (s : Mm) (b : Block) : Prop :=
  ∀ off < b.len * 0x1000, ∃ base phy, getPhyAddr s b.addr = some base ∧
    getPhyAddr s (b.addr + off) = some phy ∧ phy + off % 0x1000 = base + off

/-- The `n` frames from the first free one on are all free. -/
def ConsecutiveFree (ram : Bytes) (n : Nat) : Prop :=
  ∃ f, FirstFreeFrame ram f ∧ ∀ k < n, FrameRange (f + k) ∧ frameBit ram (f + k) = false

/-! ### The walk through the tables -/

theorem phy_addr_pt_eq {directory : Nat} (h : directory < 512) :
    ((phyAddrPt directory <<< 12 &&& 0xffffffffffff) - allocPteAddr) / 8 = directory * 512 := by
  have hmask : ∀ n : Nat, n &&& 0xffffffffffff = n % 2 ^ 48 := fun n =>
    Nat.and_two_pow_sub_one_eq_mod n 48
  unfold phyAddrPt allocPteAddr
  rw [hmask, hmask, Nat.shiftRight_eq_div_pow, Nat.shiftLeft_eq]
  omega

/-- The physical address of a byte of a page of the allocation window. -/
theorem get_phy_addr_eq (s : Mm) {page off : Nat} (hpage : page < pteCount) (hoff : off < 0x1000)
    (hframe : FrameRange (s.allocPte page).frames) :
    getPhyAddr s (allocPageMemory + page * 0x1000 + off) =
      some ((s.allocPte page).frames * 0x1000) := by
  have hcount : pteCount = 262144 := rfl
  have hmask : ∀ n : Nat, n &&& 0x1FF = n % 2 ^ 9 := fun n => Nat.and_two_pow_sub_one_eq_mod n 9
  have hwide : ∀ n : Nat, n &&& 0xffffffffffff = n % 2 ^ 48 := fun n =>
    Nat.and_two_pow_sub_one_eq_mod n 48
  have hwindow : allocPageMemory = 2 ^ 32 := rfl
  have htable : (allocPageMemory + page * 0x1000 + off) >>> 12 &&& 0x1FF = page % 512 := by
    rw [hmask, Nat.shiftRight_eq_div_pow, hwindow]
    omega
  have hdirectory : (allocPageMemory + page * 0x1000 + off) >>> 21 &&& 0x1FF = page / 512 := by
    rw [hmask, Nat.shiftRight_eq_div_pow, hwindow]
    omega
  have hpointer : (allocPageMemory + page * 0x1000 + off) >>> 30 &&& 0x1FF = 4 := by
    rw [hmask, Nat.shiftRight_eq_div_pow, hwindow]
    omega
  have hentry : page / 512 * 512 + page % 512 = page := by omega
  have hframes : (s.allocPte page).frames <<< 12 % 2 ^ 40 &&& 0xffffffffffff =
      (s.allocPte page).frames * 0x1000 := by
    have := hframe.2
    rw [hwide, Nat.shiftLeft_eq]
    omega
  show (if _ then some _ else none) = _
  rw [htable, hdirectory, hpointer, if_pos rfl, phy_addr_pt_eq (by omega), hentry, hframes]

/-- A block in the window is contiguous exactly when its frames are consecutive. -/
theorem contiguous_iff {s : Mm} {b : Block} (hbound : b.index + b.len ≤ pteCount)
    (hrange : ∀ page, b.Covers page → FrameRange (s.allocPte page).frames) :
    Contiguous s b ↔ ∀ k < b.len,
      (s.allocPte (b.index + k)).frames = (s.allocPte b.index).frames + k := by
  have hphy : ∀ off < b.len * 0x1000, getPhyAddr s (b.addr + off) =
      some ((s.allocPte (b.index + off / 0x1000)).frames * 0x1000) := by
    intro off hoff
    have hsplit : b.addr + off =
        allocPageMemory + (b.index + off / 0x1000) * 0x1000 + off % 0x1000 := by
      unfold Block.addr
      omega
    rw [hsplit]
    exact get_phy_addr_eq s (by omega) (by omega) (hrange _ ⟨by omega, by omega⟩)
  constructor
  · intro h k hk
    obtain ⟨base, phy, hbase, hpage, heq⟩ := h (k * 0x1000) (by omega)
    have hfirst := hphy 0 (by omega)
    have hhere := hphy (k * 0x1000) (by omega)
    rw [Nat.add_zero, hbase] at hfirst
    rw [hpage] at hhere
    have hk' : k * 0x1000 / 0x1000 = k := by omega
    rw [hk'] at hhere
    simp only [Nat.zero_div, Nat.add_zero, Option.some.injEq] at hfirst hhere
    omega
  · intro h off hoff
    have hfirst := hphy 0 (by omega)
    rw [Nat.add_zero] at hfirst
    refine ⟨_, _, hfirst, hphy off hoff, ?_⟩
    rw [h (off / 0x1000) (by omega)]
    simp only [Nat.zero_div, Nat.add_zero]
    omega

/-! ### The frames of a new block -/

/-- Each page of a new block gets a frame that was free, the first page the first free frame. -/
theorem alloc_pages_loop_frames {type n page : Nat} {s s' : Mm}
    (hloop : allocPagesLoop type n page s = some s') :
    (0 < n → FirstFreeFrame s.ramBitmap (s'.allocPte page).frames) ∧
      (∀ q, page ≤ q → q < page + n → FrameRange (s'.allocPte q).frames ∧
        frameBit s.ramBitmap (s'.allocPte q).frames = false) ∧
      (∀ q, ¬ (page ≤ q ∧ q < page + n) → s'.allocPte q = s.allocPte q) := by
  induction n generalizing page s with
  | zero =>
      obtain rfl : s = s' := Option.some.inj hloop
      exact ⟨fun h => absurd h (lt_irrefl 0), fun q hq hlt => by omega, fun q _ => rfl⟩
  | succ n ih =>
      rcases alloc_pages_loop_succ type n page s with ⟨f, hf, hstep⟩ | ⟨-, hstep⟩
      · rw [hstep] at hloop
        obtain ⟨-, hrest, hkept⟩ := ih hloop
        have hpage : (s'.allocPte page).frames = f := by
          rw [hkept page (by omega), give_page_self]
        refine ⟨fun _ => hpage ▸ hf, fun q hq hlt => ?_, fun q hq => ?_⟩
        · rcases Nat.eq_or_lt_of_le hq with rfl | hgt
          · rw [hpage]
            exact ⟨hf.range, hf.clear⟩
          · obtain ⟨hrange, hclear⟩ := hrest q hgt (by omega)
            rw [give_page_bit, Bool.or_eq_false_iff] at hclear
            exact ⟨hrange, hclear.2⟩
        · rw [hkept q (by omega), give_page_other (by omega)]
      · rw [hstep] at hloop
        cases hloop

/-- From a run of free frames the block gets that run. -/
theorem alloc_pages_loop_consecutive {type n page f : Nat} {s s' : Mm}
    (hf : 0 < n → FirstFreeFrame s.ramBitmap f)
    (hfree : ∀ k < n, FrameRange (f + k) ∧ frameBit s.ramBitmap (f + k) = false)
    (hloop : allocPagesLoop type n page s = some s') :
    ∀ k < n, (s'.allocPte (page + k)).frames = f + k := by
  induction n generalizing page s f with
  | zero => intro k hk; omega
  | succ n ih =>
      have hfirst := hf (Nat.succ_pos n)
      rcases alloc_pages_loop_succ type n page s with ⟨g, hg, hstep⟩ | ⟨-, hstep⟩
      · obtain rfl := hg.unique hfirst
        rw [hstep] at hloop
        have hbits : ∀ h, frameBit (givePage type page g s).ramBitmap h =
            (decide (h = g) || frameBit s.ramBitmap h) := give_page_bit
        have hnext : 0 < n → FirstFreeFrame (givePage type page g s).ramBitmap (g + 1) := by
          intro hn
          obtain ⟨hrange, hclear⟩ := hfree 1 (by omega)
          refine ⟨hrange, ?_, fun h hh hlt => ?_⟩
          · rw [hbits, hclear]
            simp
          · rw [hbits]
            rcases Nat.eq_or_lt_of_le (Nat.le_of_lt_succ hlt) with rfl | hless
            · simp
            · simp [hg.least h hh hless]
        have hrest : ∀ k < n, FrameRange (g + 1 + k) ∧
            frameBit (givePage type page g s).ramBitmap (g + 1 + k) = false := by
          intro k hk
          obtain ⟨hrange, hclear⟩ := hfree (k + 1) (by omega)
          have hsum : g + 1 + k = g + (k + 1) := by omega
          rw [hsum, hbits, hclear]
          exact ⟨hrange, by simp⟩
        intro k hk
        cases k with
        | zero =>
            rw [Nat.add_zero, (alloc_pages_loop_frames hloop).2.2 page (by omega),
              give_page_self]
            rfl
        | succ k =>
            have hpage : page + (k + 1) = page + 1 + k := by omega
            rw [hpage, ih hnext hrest hloop k (by omega)]
            omega
      · rw [hstep] at hloop
        cases hloop

section NewBlock

variable {s s' : Mm} {live live' : List Block} {b : Block}

/-- A new block in the window is contiguous exactly when the frames at the first free one were
free. The entries of other pages stay as they were. -/
theorem new_block_contiguous (h : PageInvariant s live) {type len addr granted v : Nat}
    (hpos : 0 < len) (halloc : allocPages type len addr s = some (granted, v, s'))
    (hbound : (v - allocPageMemory) / 0x1000 + len ≤ pteCount) :
    PageInvariant s' (⟨(v - allocPageMemory) / 0x1000, len, type⟩ :: live) ∧
      (Contiguous s' ⟨(v - allocPageMemory) / 0x1000, len, type⟩ ↔
        ConsecutiveFree s.ramBitmap len) ∧
      ∀ q, ¬ (Block.mk ((v - allocPageMemory) / 0x1000) len type).Covers q →
        s'.allocPte q = s.allocPte q := by
  obtain ⟨i, last, -, rfl, hclear, hloop, rfl⟩ := alloc_pages_cases h hpos halloc
  have hindex : (allocPageMemory + i * 0x1000 - allocPageMemory) / 0x1000 = i := by omega
  rw [hindex] at hbound ⊢
  have h' := alloc_block_inv h hpos hbound hclear hloop
  have hframes := alloc_pages_loop_frames hloop
  refine ⟨h', ?_, hframes.2.2⟩
  refine (contiguous_iff hbound fun page hpage => (hframes.2.1 page hpage.1 hpage.2).1).trans ?_
  constructor
  · intro hconsecutive
    refine ⟨_, hframes.1 hpos, fun k hk => ?_⟩
    have hfree := hframes.2.1 (i + k) (by omega) (by omega)
    rwa [show (last.allocPte (i + k)).frames = (last.allocPte i).frames + k from
      hconsecutive k hk] at hfree
  · rintro ⟨f, hf, hfree⟩ k hk
    have hall := alloc_pages_loop_consecutive (s := markedFor s i len) (fun _ => hf) hfree hloop
    have hfirst : (last.allocPte i).frames = f := hall 0 hpos
    show (last.allocPte (i + k)).frames = (last.allocPte i).frames + k
    rw [hall k hk, hfirst]

/-- A block stays contiguous as long as its entries stay. -/
theorem Contiguous.congr (h : Contiguous s b) (hinv : PageInvariant s live) (hb : b ∈ live)
    (hinv' : PageInvariant s' live') (hb' : b ∈ live')
    (hkept : ∀ page, b.Covers page → s'.allocPte page = s.allocPte page) : Contiguous s' b := by
  have hbound := (hinv.bounds b hb).2
  rw [contiguous_iff hbound fun page hpage => hinv.frame_range hb hpage] at h
  rw [contiguous_iff hbound fun page hpage => hinv'.frame_range hb' hpage]
  intro k hk
  rw [hkept _ ⟨by omega, by omega⟩, hkept _ ⟨le_rfl, by omega⟩]
  exact h k hk

end NewBlock

/-! ### Runs -/

/-- An allocation finds as many consecutive free frames at the first free one as it asks for. -/
def PageCall.Consecutive : Mm × List Block → PageCall → Prop
  | (s, _), .alloc _ len => ConsecutiveFree s.ramBitmap len
  | _, .free _ => True

/-- Physical contiguity of the blocks over whole runs. In a run whose allocations all find
consecutive free frames at the first free one, every live block is contiguous; and in any run the
block of the next allocation is contiguous exactly when that allocation finds them. -/
theorem dma_contiguity (s₀ : Mm) :
    (∀ s live,
      AllocatorRun (fun state call => call.InWindow state ∧ call.Consecutive state) s₀ s live →
      ∀ b ∈ live, Contiguous s b) ∧
    (∀ s live, AllocatorRun PageCall.InWindow s₀ s live → ∀ type len addr granted v s', 0 < len →
      allocPages type len addr s = some (granted, v, s') →
      (v - allocPageMemory) / 0x1000 + len ≤ pteCount →
      (Contiguous s' ⟨(v - allocPageMemory) / 0x1000, len, type⟩ ↔
        ConsecutiveFree s.ramBitmap len)) := by
  constructor
  · intro s live hrun
    refine (Run.invariant (fun state => PageInvariant state.1 state.2 ∧
      ∀ b ∈ state.2, Contiguous state.1 b) hrun ⟨setup_inv s₀, by simp⟩ ?_).2
    rintro state call next ⟨h, hall⟩ ⟨hgood, hconsecutive⟩ hstep
    cases hstep with
    | alloc s s' live type len addr granted v halloc =>
        obtain ⟨hpos, granted', v', s'', hreturns, hbound⟩ := hgood
        rw [alloc_pages_addr type addr s hpos, hreturns] at halloc
        obtain ⟨rfl, rfl, rfl⟩ : granted' = granted ∧ v' = v ∧ s'' = s' := by simpa using halloc
        obtain ⟨hinv, hiff, hkept⟩ := new_block_contiguous h hpos hreturns hbound
        refine ⟨hinv, fun b hb => ?_⟩
        rcases List.mem_cons.mp hb with rfl | hold
        · exact hiff.mpr hconsecutive
        · refine (hall b hold).congr h hold hinv hb fun page hpage => hkept page fun hnew => ?_
          have hapart := (List.pairwise_cons.mp hinv.disjoint).1 b hold
          exact hapart.not_covers hnew hpage
    | free s s' live b hfree =>
        obtain ⟨hfreed, hinv⟩ := freed_inv h hgood hfree
        refine ⟨hinv, fun c hc => ?_⟩
        obtain ⟨hne, hmem⟩ := (List.Nodup.mem_erase_iff h.nodup).mp hc
        refine (hall c hmem).congr h hmem hinv hc fun page hpage => ?_
        exact (hfreed.others page fun hcovers => hne (h.unique hmem hgood hpage hcovers)).2
  · intro s live hrun type len addr granted v s' hpos halloc hbound
    exact (new_block_contiguous (allocator_run_inv hrun) hpos halloc hbound).2.1

/-- Two blocks of one page, the first freed again, and then a block of two pages. -/
def fragment (s : Mm) : Option (Nat × Nat × Nat × Mm) := do
  let (_, v₁, s) ← allocPages 0 1 0 s
  let (_, v₂, s) ← allocPages 0 1 0 s
  let s ← freePages v₁ s
  let (_, v₃, s) ← allocPages 0 2 0 s
  pure (v₁, v₂, v₃, s)

/-- After these calls the second page of the last block lies a page further than the first page
says: the frame between them is taken. -/
theorem fragmented_block :
    ∃ s v₂ v₃, AllocatorRun PageCall.InWindow clearMachine s
        [⟨(v₃ - allocPageMemory) / 0x1000, 2, 0⟩, ⟨(v₂ - allocPageMemory) / 0x1000, 1, 0⟩] ∧
      getPhyAddr s v₃ = some 0x8000000 ∧ getPhyAddr s (v₃ + 0x1000) = some 0x8002000 ∧
      ¬ Contiguous s ⟨(v₃ - allocPageMemory) / 0x1000, 2, 0⟩ := by
  have hvalue : ((fragment (allocPagesSetup (ramSetup clearMachine))).map fun r =>
      (r.1, r.2.1, r.2.2.1, getPhyAddr r.2.2.2 r.2.2.1,
        getPhyAddr r.2.2.2 (r.2.2.1 + 0x1000))) =
      some (allocPageMemory, allocPageMemory + 0x1000, allocPageMemory + 0x2000,
        some 0x8000000, some 0x8002000) := by
    decide +kernel
  obtain ⟨⟨v₁, v₂, v₃, s⟩, hfragment, hresult⟩ := Option.map_eq_some_iff.mp hvalue
  simp only [Prod.mk.injEq] at hresult
  obtain ⟨rfl, rfl, rfl, hbase, hphy⟩ := hresult
  simp only [fragment, Option.bind_eq_bind, Option.bind_eq_some_iff, Option.pure_def,
    Option.some.injEq, Prod.mk.injEq] at hfragment
  obtain ⟨⟨l₁, v₁, s₁⟩, h₁, ⟨l₂, v₂, s₂⟩, h₂, s₃, h₃, ⟨l₃, v₃, s₄⟩, h₄, rfl, rfl, rfl, rfl⟩ :=
    hfragment
  have hcount : pteCount = 262144 := rfl
  have hrun₁ : AllocatorRun PageCall.InWindow clearMachine s₁ [⟨0, 1, 0⟩] :=
    Run.snoc Run.refl (.alloc 0 1) ⟨by omega, l₁, _, s₁, h₁, by omega⟩
      (PageStep.alloc _ s₁ [] 0 1 0 l₁ allocPageMemory h₁)
  have hrun₂ : AllocatorRun PageCall.InWindow clearMachine s₂ [⟨1, 1, 0⟩, ⟨0, 1, 0⟩] :=
    Run.snoc hrun₁ (.alloc 0 1) ⟨by omega, l₂, _, s₂, h₂, by omega⟩
      (PageStep.alloc s₁ s₂ _ 0 1 0 l₂ (allocPageMemory + 0x1000) h₂)
  have hrun₃ : AllocatorRun PageCall.InWindow clearMachine s₃ [⟨1, 1, 0⟩] :=
    Run.snoc hrun₂ (.free ⟨0, 1, 0⟩) (List.mem_cons_of_mem _ (List.mem_singleton_self _))
      (PageStep.free s₂ s₃ _ ⟨0, 1, 0⟩ h₃)
  have hrun₄ : AllocatorRun PageCall.InWindow clearMachine s₄ [⟨2, 2, 0⟩, ⟨1, 1, 0⟩] :=
    Run.snoc hrun₃ (.alloc 0 2) ⟨by omega, l₃, _, s₄, h₄, by omega⟩
      (PageStep.alloc s₃ s₄ _ 0 2 0 l₃ (allocPageMemory + 0x2000) h₄)
  refine ⟨s₄, allocPageMemory + 0x1000, _, hrun₄, hbase, hphy, fun h => ?_⟩
  have hoff : 0x1000 < 2 * 0x1000 := by omega
  obtain ⟨base, phy, hbase', hphy', heq⟩ := h 0x1000 hoff
  have hbase'' : some base = some 0x8000000 := hbase'.symm.trans hbase
  have hphy'' : some phy = some 0x8002000 := hphy'.symm.trans hphy
  simp only [Option.some.injEq] at hbase'' hphy''
  omega

end Sirius.Memory
