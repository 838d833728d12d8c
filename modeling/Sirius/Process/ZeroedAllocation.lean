import Sirius.Memory.Grants
import Sirius.Process.PoolAccounting
import Mathlib.Tactic

/-!
# Zeroed allocation

`calloc` of the user library hands the product of its arguments, cut to an `unsigned`, to `malloc`,
and `malloc_syscall` maps the first free frames as they are. Here the pools come with the bytes of
physical memory, and the histories are made of the two system calls and of stores into memory.
`calloc_zeroed_iff` says for which requests the block is large enough and zero, or the request is
refused: the frames that are free first must hold zeroes already.
-/

namespace Sirius.Process

open Library Memory

/-! ### `calloc` -/

/-- `__malloc_r`. A request for no bytes does not enter the kernel. -/
def mallocR (thread : Nat) (size : BitVec 32) (stack : Nat) (s : Pools) : Option (Nat × Pools) :=
  if size = 0#32 then some (0, s) else mallocSyscall thread size.toNat stack s

/-- `malloc` -/
def malloc (thread : Nat) (size : BitVec 32) (stack : Nat) (s : Pools) : Option (Nat × Pools) :=
  mallocR thread size stack s

/-- `calloc` of the current thread. `size_t` is an `unsigned`. -/
def calloc (thread : Nat) (nmemb size : BitVec 32) (stack : Nat) (s : Pools) :
    Option (Nat × Pools) :=
  malloc thread (nmemb * size) stack s

/-! ### Histories -/

/-- The pools, the live blocks, and the bytes of physical memory outside the kernel's own tables. -/
structure Heap where
  pools : Pools
  live : List Block
  phys : Nat → Byte

/-- The physical address of the byte at an address of the window. -/
def byteAddr (s : Mm) (v : Nat) : Option Nat := (getPhyAddr s v).map fun base => base + v % 0x1000

/-- A system call of a thread, or a store of a byte. -/
inductive HeapCall where
  | malloc (thread rdi stack : Nat)
  | free (thread rdi : Nat)
  | store (v : Nat) (byte : Byte)

/-- Neither call stores into the pages themselves. -/
inductive HeapStep : Heap → HeapCall → Heap → Prop where
  | malloc (s : Heap) (pools : Pools) (thread rdi stack addr : Nat) :
      mallocSyscall thread rdi stack s.pools = some (addr, pools) →
      HeapStep s (.malloc thread rdi stack) { s with
        pools := pools
        live := if pagesOf rdi = 0 then s.live
          else ⟨(addr - allocPageMemory) / 0x1000, pagesOf rdi, 1⟩ :: s.live }
  | free (s : Heap) (pools : Pools) (thread rdi : Nat) :
      freeSyscall thread rdi s.pools = some pools →
      HeapStep s (.free thread rdi) { s with
        pools := pools
        live := s.live.filter fun b => b.addr ≠ rdi }
  | store (s : Heap) (v a : Nat) (byte : Byte) :
      byteAddr s.pools.mm v = some a →
      HeapStep s (.store v byte) { s with phys := Function.update s.phys a byte }

/-- The histories: what is allocated lies in the window that the page tables cover, and what is
freed is a block, or 0. -/
def HeapCall.Good (s : Heap) : HeapCall → Prop
  | .malloc _ rdi stack => pagesOf rdi = 0 ∨ ∃ granted v mm,
      allocPages 1 (pagesOf rdi) stack s.pools.mm = some (granted, v, mm) ∧
        (v - allocPageMemory) / 0x1000 + pagesOf rdi ≤ pteCount
  | .free _ rdi => rdi = 0 ∨ ∃ b ∈ s.live, b.addr = rdi
  | .store _ _ => True

/-- The blocks at the start are those that the kernel allocated since the setup. -/
def Heap.Started (s : Heap) : Prop :=
  ∃ s₀, AllocatorRun PageCall.InWindow s₀ s.pools.mm s.live

def HeapRun (start s : Heap) : Prop := Run HeapStep HeapCall.Good start s

/-! ### What is asked of `calloc` -/

/-- The bytes the caller asks for. -/
def bytesOf (nmemb size : BitVec 32) : Nat := nmemb.toNat * size.toNat

/-- The pages for a number of bytes. -/
def pageCount (bytes : Nat) : Nat := bytes / 0x1000 + if bytes % 0x1000 ≠ 0 then 1 else 0

/-- Pages and frames are left for so many bytes. -/
def FitsMemory (s : Mm) (bytes : Nat) : Prop := NotExhausted s (pageCount bytes)

/-- A new block at `r` with at least `bytes` bytes, which are 0. -/
structure ZeroedBlock (s : Heap) (bytes r : Nat) (pools : Pools) : Prop where
  room : bytes = 0 ∨ ∃ b : Block, b.addr = r ∧ bytes ≤ b.len * 0x1000 ∧
    PageInvariant pools.mm (b :: s.live)
  zero : ∀ k < bytes, ∃ a, byteAddr pools.mm (r + k) = some a ∧ s.phys a = 0#8

/-- `calloc` returns a zeroed block when the product fits, and a null pointer otherwise. -/
structure CallocZeroed (s : Heap) (thread : Nat) (nmemb size : BitVec 32) (stack : Nat) :
    Prop where
  fits : FitsMemory s.pools.mm (bytesOf nmemb size) → ∃ r pools,
    calloc thread nmemb size stack s.pools = some (r, pools) ∧
      ZeroedBlock s (bytesOf nmemb size) r pools
  refused : ¬ FitsMemory s.pools.mm (bytesOf nmemb size) → ∃ pools,
    calloc thread nmemb size stack s.pools = some (0, pools)

/-- The free frames, in the order in which `alloc_frame` finds them. -/
def freeFrameList (ram : Bytes) : List Nat :=
  (List.range' (4096 * 8) (512 * 1024 / 4 * 8 - 4096 * 8)).filter fun f => !frameBit ram f

/-- The frames that are free first hold zeroes in their first `bytes` bytes. -/
def FreeFramesZero (s : Heap) (bytes : Nat) : Prop :=
  ∀ k < bytes, ∀ f, (freeFrameList s.pools.mm.ramBitmap)[k / 0x1000]? = some f →
    s.phys (f * 0x1000 + k % 0x1000) = 0#8

/-! ### The frames of a block -/

section Frames

variable {ram : Bytes} {f n : Nat}

/-- Taking the first free frame removes the head of the list. -/
theorem free_frame_list_first (hf : FirstFreeFrame ram f) :
    freeFrameList ram = f :: freeFrameList (setFrame ram f) := by
  obtain ⟨hlow, hhigh⟩ := hf.range
  have hsplit : List.range' (4096 * 8) (512 * 1024 / 4 * 8 - 4096 * 8) =
      List.range' (4096 * 8) (f - 4096 * 8) ++
        f :: List.range' (f + 1) (512 * 1024 / 4 * 8 - (f + 1)) := by
    have hcount : 512 * 1024 / 4 * 8 - 4096 * 8 =
        (f - 4096 * 8) + (512 * 1024 / 4 * 8 - (f + 1) + 1) := by omega
    have hstart : 4096 * 8 + (f - 4096 * 8) = f := by omega
    rw [hcount, ← List.range'_append_1, hstart, List.range'_succ]
  -- the frames before `f` are taken before and after
  have hbefore : ∀ ram' : Bytes, (∀ g, FrameRange g → g < f → frameBit ram' g = true) →
      (List.range' (4096 * 8) (f - 4096 * 8)).filter (fun g => !frameBit ram' g) = [] := by
    intro ram' hset
    refine List.filter_eq_nil_iff.mpr fun g hg => ?_
    rw [List.mem_range'_1] at hg
    rw [hset g ⟨hg.1, by omega⟩ (by omega)]
    decide
  have hafter : (List.range' (f + 1) (512 * 1024 / 4 * 8 - (f + 1))).filter
      (fun g => !frameBit (setFrame ram f) g) =
      (List.range' (f + 1) (512 * 1024 / 4 * 8 - (f + 1))).filter fun g => !frameBit ram g := by
    refine List.filter_congr fun g hg => ?_
    rw [List.mem_range'_1] at hg
    have hne : g ≠ f := by omega
    rw [frame_bit_set, decide_eq_false hne, Bool.false_or]
  have hset : ∀ g, FrameRange g → g < f → frameBit (setFrame ram f) g = true := by
    intro g hg hlt
    rw [frame_bit_set, hf.least g hg hlt, Bool.or_true]
  have htaken : frameBit (setFrame ram f) f = true := by
    rw [frame_bit_set, decide_eq_true rfl, Bool.true_or]
  rw [freeFrameList, freeFrameList, hsplit, List.filter_append, List.filter_append,
    hbefore ram hf.least, hbefore _ hset, List.nil_append, List.nil_append,
    List.filter_cons_of_pos (by rw [hf.clear]; rfl),
    List.filter_cons_of_neg (by rw [htaken]; decide), hafter]

/-- The loop of `alloc_pages` takes the frames in the order of the list. -/
theorem alloc_pages_loop_order {type page : Nat} {s s' : Mm}
    (hloop : allocPagesLoop type n page s = some s') {k : Nat} (hk : k < n) :
    (freeFrameList s.ramBitmap)[k]? = some (s'.allocPte (page + k)).frames := by
  induction n generalizing page s k with
  | zero => omega
  | succ n ih =>
      rcases alloc_pages_loop_succ type n page s with ⟨f, hf, hstep⟩ | ⟨-, hstep⟩
      · rw [hstep] at hloop
        rw [free_frame_list_first hf]
        cases k with
        | zero =>
            obtain ⟨-, hkept⟩ := alloc_pages_loop_granted hloop
            rw [hkept (page + 0) (by omega), Nat.add_zero, give_page_self]
            rfl
        | succ k =>
            have hrest := ih hloop (show k < n by omega)
            rw [List.getElem?_cons_succ, show page + (k + 1) = page + 1 + k by omega]
            exact hrest
      · rw [hstep] at hloop
        cases hloop

/-- There are less than 2²⁰ frames. -/
theorem frames_left_le (h : FramesLeft ram n) : n ≤ 512 * 1024 / 4 * 8 - 4096 * 8 := by
  obtain ⟨free, rfl, hfree⟩ := h
  have hsub : free ⊆ Finset.Ico (4096 * 8) (512 * 1024 / 4 * 8) := fun f hf =>
    Finset.mem_Ico.mpr (hfree f hf).1
  have hcard := Finset.card_le_card hsub
  rwa [Nat.card_Ico] at hcard

end Frames

/-! ### One call -/

section Calls

variable {s : Heap} {bytes thread stack : Nat} {nmemb size : BitVec 32}

/-- What fits into memory fits into an `unsigned`. -/
theorem FitsMemory.lt {mm : Mm} (h : FitsMemory mm bytes) : bytes < 2 ^ 32 := by
  have hframes := frames_left_le h.2
  unfold pageCount at hframes
  split at hframes <;> omega

theorem le_page_count (bytes : Nat) : bytes ≤ pageCount bytes * 0x1000 := by
  unfold pageCount
  split <;> omega

theorem page_count_pos (h : 0 < bytes) : 0 < pageCount bytes := by
  unfold pageCount
  split <;> omega

theorem lt_page_count {k : Nat} (h : k < bytes) : k / 0x1000 < pageCount bytes := by
  unfold pageCount
  split <;> omega

/-- `malloc_syscall` asks for the pages of a size that it does not cut. -/
theorem pages_of_lt (h : bytes < 2 ^ 32) : pagesOf bytes = pageCount bytes := by
  rw [pagesOf, Nat.mod_eq_of_lt h]
  rfl

/-- No bytes always fit. -/
theorem fits_memory_zero (mm : Mm) : FitsMemory mm 0 :=
  ⟨⟨0, Nat.zero_le _, fun _ _ hlt => absurd hlt (Nat.not_lt_zero _)⟩, frames_left_zero _⟩

/-- `calloc` asks for the product modulo 2³². -/
theorem calloc_eq (pools : Pools) :
    calloc thread nmemb size stack pools =
      if bytesOf nmemb size % 2 ^ 32 = 0 then some (0, pools)
      else mallocSyscall thread (bytesOf nmemb size % 2 ^ 32) stack pools := by
  have hproduct : (nmemb * size).toNat = bytesOf nmemb size % 2 ^ 32 := BitVec.toNat_mul nmemb size
  have hzero : nmemb * size = 0#32 ↔ bytesOf nmemb size % 2 ^ 32 = 0 := by
    rw [← hproduct, BitVec.toNat_eq, BitVec.toNat_ofNat, Nat.zero_mod]
  rw [calloc, malloc, mallocR, hproduct]
  exact if_congr hzero rfl rfl

/-- A call of `malloc_syscall` for some bytes that returns. -/
theorem malloc_syscall_cases (h : PageInvariant s.pools.mm s.live) (hpos : 0 < bytes)
    (hlt : bytes < 2 ^ 32) {r : Nat} {pools : Pools}
    (hmalloc : mallocSyscall thread bytes stack s.pools = some (r, pools)) :
    ∃ i last, r = allocPageMemory + i * 0x1000 ∧
      allocPagesLoop 1 (pageCount bytes) i (markedFor s.pools.mm i (pageCount bytes)) =
        some last ∧
      pools.mm = { last with allocSpinLock := 0 } := by
  rw [malloc_syscall_eq, pages_of_lt hlt, Option.bind_eq_some_iff] at hmalloc
  obtain ⟨⟨granted, v, mm⟩, halloc, hresult⟩ := hmalloc
  obtain ⟨rfl, rfl⟩ := Prod.mk.inj (Option.some.inj hresult)
  obtain ⟨i, last, -, hv, -, hloop, hmm⟩ := alloc_pages_cases h (page_count_pos hpos) halloc
  exact ⟨i, last, hv, hloop, hmm⟩

/-- `malloc_syscall` of bytes that fit: a new block, whose bytes lie in the first free frames. -/
theorem malloc_syscall_fits (thread stack : Nat) (h : PageInvariant s.pools.mm s.live)
    (hpos : 0 < bytes) (hfits : FitsMemory s.pools.mm bytes) :
    ∃ b pools, mallocSyscall thread bytes stack s.pools = some (b.addr, pools) ∧
      bytes ≤ b.len * 0x1000 ∧ PageInvariant pools.mm (b :: s.live) ∧
      ∀ k < bytes, ∃ f, (freeFrameList s.pools.mm.ramBitmap)[k / 0x1000]? = some f ∧
        byteAddr pools.mm (b.addr + k) = some (f * 0x1000 + k % 0x1000) := by
  obtain ⟨b, mm, halloc, hlen, -, hinv⟩ :=
    alloc_pages_inv h 1 (pageCount bytes) stack (page_count_pos hpos) hfits
  have hmalloc : ∃ pools, mallocSyscall thread bytes stack s.pools = some (b.addr, pools) ∧
      pools.mm = mm := by
    rw [malloc_syscall_eq, pages_of_lt hfits.lt, halloc]
    exact ⟨_, rfl, rfl⟩
  obtain ⟨pools, hmalloc, rfl⟩ := hmalloc
  refine ⟨b, pools, hmalloc, hlen ▸ le_page_count bytes, hinv, fun k hk => ?_⟩
  obtain ⟨i, last, haddr, hloop, hmm⟩ := malloc_syscall_cases h hpos hfits.lt hmalloc
  have hindex : i = b.index := by
    unfold Block.addr at haddr
    omega
  have hpage := lt_page_count hk
  have horder := alloc_pages_loop_order hloop hpage
  have hcovers : b.Covers (b.index + k / 0x1000) := ⟨by omega, by omega⟩
  have hrange := hinv.frame_range (List.mem_cons_self ..) hcovers
  have hbound := (hinv.bounds b (List.mem_cons_self ..)).2
  have hentry : last.allocPte = pools.mm.allocPte := by rw [hmm]
  rw [hindex, hentry] at horder
  refine ⟨_, horder, ?_⟩
  have hsplit : b.addr + k =
      allocPageMemory + (b.index + k / 0x1000) * 0x1000 + k % 0x1000 := by
    unfold Block.addr
    omega
  have hphys : getPhyAddr pools.mm (allocPageMemory + (b.index + k / 0x1000) * 0x1000 +
      k % 0x1000) = some ((pools.mm.allocPte (b.index + k / 0x1000)).frames * 0x1000) :=
    get_phy_addr_eq pools.mm (by omega) (Nat.mod_lt _ (by omega)) hrange
  have hoffset : (b.addr + k) % 0x1000 = k % 0x1000 := by
    have hwindow : allocPageMemory = 0x100000 * 0x1000 := rfl
    rw [hsplit, hwindow]
    omega
  rw [byteAddr, hoffset, hsplit, hphys]
  rfl

/-- A block that `malloc_syscall` returns is not a null pointer. -/
theorem malloc_syscall_ne_zero (h : PageInvariant s.pools.mm s.live) (hpos : 0 < bytes)
    (hlt : bytes < 2 ^ 32) (pools : Pools) :
    mallocSyscall thread bytes stack s.pools ≠ some (0, pools) := by
  intro hmalloc
  obtain ⟨i, -, haddr, -⟩ := malloc_syscall_cases h hpos hlt hmalloc
  unfold allocPageMemory at haddr
  omega

/-- `calloc` in a state of the allocator. -/
theorem calloc_zeroed_of_inv (h : PageInvariant s.pools.mm s.live) :
    CallocZeroed s thread nmemb size stack ↔
      (FitsMemory s.pools.mm (bytesOf nmemb size) ∧ FreeFramesZero s (bytesOf nmemb size)) ∨
        (bytesOf nmemb size ≠ 0 ∧ bytesOf nmemb size % 2 ^ 32 = 0) := by
  generalize hbytes : bytesOf nmemb size = bytes
  have hcall : ∀ pools, calloc thread nmemb size stack pools =
      if bytes % 2 ^ 32 = 0 then some (0, pools)
      else mallocSyscall thread (bytes % 2 ^ 32) stack pools := hbytes ▸ calloc_eq
  constructor
  · rintro ⟨hzeroed, hrefused⟩
    rw [hbytes] at hzeroed hrefused
    by_cases hfits : FitsMemory s.pools.mm bytes
    · refine .inl ⟨hfits, fun k hk f hf => ?_⟩
      obtain ⟨r, pools, hreturns, -, hzero⟩ := hzeroed hfits
      obtain ⟨b, pools', hmalloc, -, -, hplaced⟩ :=
        malloc_syscall_fits thread stack h (by omega) hfits
      rw [hcall, Nat.mod_eq_of_lt hfits.lt, if_neg (by omega), hmalloc] at hreturns
      obtain ⟨rfl, rfl⟩ := Prod.mk.inj (Option.some.inj hreturns)
      obtain ⟨a, ha, hclear⟩ := hzero k hk
      obtain ⟨f', hf', ha'⟩ := hplaced k hk
      obtain rfl : f' = f := Option.some.inj (hf'.symm.trans hf)
      obtain rfl := Option.some.inj (ha.symm.trans ha')
      exact hclear
    · obtain ⟨pools, hreturns⟩ := hrefused hfits
      refine .inr ⟨fun hnone => hfits (hnone ▸ fits_memory_zero _), ?_⟩
      by_contra hne
      rw [hcall, if_neg hne] at hreturns
      exact malloc_syscall_ne_zero h (Nat.pos_of_ne_zero hne) (Nat.mod_lt _ (by decide)) pools
        hreturns
  · rintro (⟨hfits, hclear⟩ | ⟨hne, hwrapped⟩)
    · refine ⟨fun _ => ?_, fun hnot => absurd (hbytes ▸ hfits) hnot⟩
      rw [hbytes, hcall, Nat.mod_eq_of_lt hfits.lt]
      rcases Nat.eq_zero_or_pos bytes with rfl | hpos
      · exact ⟨0, s.pools, if_pos rfl, .inl rfl, fun k hk => absurd hk (Nat.not_lt_zero k)⟩
      · obtain ⟨b, pools, hmalloc, hroom, hinv, hplaced⟩ :=
          malloc_syscall_fits thread stack h hpos hfits
        refine ⟨b.addr, pools, ?_, .inr ⟨b, rfl, hroom, hinv⟩, fun k hk => ?_⟩
        · rw [if_neg (by omega), hmalloc]
        · obtain ⟨f, hf, ha⟩ := hplaced k hk
          exact ⟨_, ha, hclear k hk f hf⟩
    · refine ⟨fun hfits => ?_, fun _ => ⟨s.pools, ?_⟩⟩
      · have hlt := hfits.lt
        omega
      · rw [hcall, if_pos hwrapped]

end Calls

/-! ### Whole histories -/

/-- The state of the allocator matches the live blocks. -/
def Heap.Inv (s : Heap) : Prop := PageInvariant s.pools.mm s.live

/-- `malloc_syscall` adds its block, if it asks for pages at all. -/
theorem malloc_syscall_inv {s s' : Pools} {live : List Block} {thread rdi stack addr : Nat}
    (h : PageInvariant s.mm live)
    (hgood : pagesOf rdi = 0 ∨ ∃ granted v mm, allocPages 1 (pagesOf rdi) stack s.mm =
      some (granted, v, mm) ∧ (v - allocPageMemory) / 0x1000 + pagesOf rdi ≤ pteCount)
    (hcall : mallocSyscall thread rdi stack s = some (addr, s')) :
    PageInvariant s'.mm (if pagesOf rdi = 0 then live
      else ⟨(addr - allocPageMemory) / 0x1000, pagesOf rdi, 1⟩ :: live) := by
  rw [malloc_syscall_eq, Option.bind_eq_some_iff] at hcall
  obtain ⟨⟨granted, v, mm⟩, halloc, hresult⟩ := hcall
  obtain ⟨rfl, rfl⟩ := Prod.mk.inj (Option.some.inj hresult)
  by_cases hpages : pagesOf rdi = 0
  · rw [hpages, allocPages, if_pos rfl] at halloc
    obtain ⟨-, hrest⟩ := Prod.mk.inj (Option.some.inj halloc)
    obtain ⟨-, rfl⟩ := Prod.mk.inj hrest
    rw [if_pos hpages]
    exact h
  · obtain ⟨granted', v', mm', halloc', hbound⟩ := hgood.resolve_left hpages
    obtain ⟨rfl, rfl, rfl⟩ : granted' = granted ∧ v' = v ∧ mm' = mm := by
      simpa [halloc] using halloc'.symm
    rw [if_neg hpages]
    exact (alloc_pages_window_inv h (Nat.pos_of_ne_zero hpages) halloc hbound).2

/-- `free_syscall` removes the block that has the address. -/
theorem free_syscall_inv {s s' : Pools} {live : List Block} {thread rdi : Nat}
    (h : PageInvariant s.mm live) (hgood : rdi = 0 ∨ ∃ b ∈ live, b.addr = rdi)
    (hcall : freeSyscall thread rdi s = some s') :
    PageInvariant s'.mm (live.filter fun b => b.addr ≠ rdi) := by
  rw [freeSyscall, threadFreeSyscall] at hcall
  rcases hgood with rfl | ⟨b, hb, rfl⟩
  · rw [if_pos rfl] at hcall
    obtain rfl := Option.some.inj hcall
    have hall : live.filter (fun b => b.addr ≠ 0) = live :=
      List.filter_eq_self.mpr fun b _ => decide_eq_true b.addr_ne_zero
    rw [hall]
    exact h
  · obtain ⟨mm, hreleased, hinv⟩ := PoolInv.release_pages_live h hb
    rw [if_neg b.addr_ne_zero, hreleased] at hcall
    obtain rfl := Option.some.inj hcall
    have herase : live.filter (fun c => c.addr ≠ b.addr) = live.erase b := by
      rw [h.nodup.erase_eq_filter]
      refine List.filter_congr fun c hc => ?_
      have hsame : c.addr = b.addr ↔ c = b := ⟨h.addr_inj hc hb, congrArg Block.addr⟩
      by_cases heq : c = b <;> simp [hsame, heq]
    rw [herase]
    exact hinv

/-- One call of a history. -/
theorem heap_step_inv {s t : Heap} {call : HeapCall} (h : s.Inv) (hgood : call.Good s)
    (hstep : HeapStep s call t) : t.Inv := by
  cases hstep with
  | malloc pools thread rdi stack addr hcall => exact malloc_syscall_inv h hgood hcall
  | free pools thread rdi hcall => exact free_syscall_inv h hgood hcall
  | store v a byte _ => exact h

theorem heap_run_inv {start s : Heap} (hstart : start.Started) (hrun : HeapRun start s) :
    s.Inv := by
  obtain ⟨s₀, hallocator⟩ := hstart
  exact Run.invariant Heap.Inv hrun (allocator_run_inv hallocator)
    fun _ _ _ h hgood hstep => heap_step_inv h hgood hstep

/-- After every history, `calloc` returns a zeroed block of at least the product when that fits,
and a null pointer when it does not, exactly in two cases: the product fits and the free frames
that come first hold zeroes already; or the product is a multiple of 2³² other than 0. -/
theorem calloc_zeroed_iff (start s : Heap) (hstart : start.Started) (hrun : HeapRun start s)
    (thread : Nat) (nmemb size : BitVec 32) (stack : Nat) :
    CallocZeroed s thread nmemb size stack ↔
      (FitsMemory s.pools.mm (bytesOf nmemb size) ∧ FreeFramesZero s (bytesOf nmemb size)) ∨
        (bytesOf nmemb size ≠ 0 ∧ bytesOf nmemb size % 2 ^ 32 = 0) :=
  calloc_zeroed_of_inv (heap_run_inv hstart hrun)

/-- The machine after the setup, with clear memory. -/
def clearHeap : Heap :=
  ⟨⟨allocPagesSetup (ramSetup clearMachine), fun _ _ => ⟨0, 0, 0⟩, fun _ => 0, []⟩, [],
    fun _ => 0#8⟩

/-- The result for a byte of clear memory. -/
theorem calloc_zeroed_clear : CallocZeroed clearHeap 1 1#32 1#32 0 :=
  (calloc_zeroed_iff clearHeap clearHeap ⟨clearMachine, Run.refl⟩ Run.refl 1 1#32 1#32 0).mpr
    (.inl ⟨setup_not_exhausted clearMachine (by decide), fun _ _ _ _ => rfl⟩)

/-- Thread 1 gets a page and frees it again: the address of the page, its physical address, and the
states after the two calls. -/
def recycle (s : Pools) : Option (Nat × Nat × Pools × Pools) := do
  let (addr, s₁) ← mallocSyscall 1 1 0 s
  let a ← byteAddr s₁.mm addr
  let s₂ ← freeSyscall 1 addr s₁
  pure (addr, a, s₁, s₂)

/-- A byte stored in a page that was freed since is in the block that `calloc` returns. -/
theorem calloc_recycled_page :
    ∃ s, HeapRun clearHeap s ∧ FitsMemory s.pools.mm (bytesOf 1#32 1#32) ∧
      ¬ CallocZeroed s 1 1#32 1#32 0 := by
  have hvalue : ((recycle clearHeap.pools).map fun r =>
      (r.1, r.2.1, (allocFrame r.2.2.2.mm).1)) =
      some (allocPageMemory, 0x8000000, 0x8000000) := by
    decide +kernel
  obtain ⟨⟨addr, a, s₁, s₂⟩, hcalls, hresult⟩ := Option.map_eq_some_iff.mp hvalue
  simp only [Prod.mk.injEq] at hresult
  obtain ⟨rfl, rfl, hframe⟩ := hresult
  simp only [recycle, Option.bind_eq_bind, Option.bind_eq_some_iff, Option.pure_def,
    Option.some.injEq, Prod.mk.injEq] at hcalls
  obtain ⟨⟨addr, s₁⟩, h₁, a, ha, s₂, h₂, rfl, rfl, rfl, rfl⟩ := hcalls
  have halloc := h₁
  rw [malloc_syscall_eq, Option.bind_eq_some_iff] at halloc
  obtain ⟨⟨granted, v, mm⟩, halloc, hs⟩ := halloc
  obtain ⟨rfl, rfl⟩ := Prod.mk.inj (Option.some.inj hs)
  have hrun₁ : HeapRun clearHeap ⟨_, [⟨0, 1, 1⟩], fun _ => 0#8⟩ :=
    Run.snoc Run.refl (.malloc 1 1 0) (.inr ⟨granted, _, mm, halloc, by decide⟩)
      (HeapStep.malloc clearHeap _ 1 1 0 _ h₁)
  have hrun₂ : HeapRun clearHeap
      ⟨_, [⟨0, 1, 1⟩], Function.update (fun _ => 0#8) 0x8000000 1#8⟩ :=
    Run.snoc hrun₁ (.store allocPageMemory 1#8) trivial
      (HeapStep.store _ allocPageMemory 0x8000000 1#8 ha)
  have hrun₃ : HeapRun clearHeap ⟨s₂, [], Function.update (fun _ => 0#8) 0x8000000 1#8⟩ :=
    Run.snoc hrun₂ (.free 1 allocPageMemory) (.inr ⟨⟨0, 1, 1⟩, List.mem_singleton_self _, rfl⟩)
      (HeapStep.free _ s₂ 1 allocPageMemory h₂)
  have hstart : clearHeap.Started := ⟨clearMachine, Run.refl⟩
  have hinv := heap_run_inv hstart hrun₃
  -- the frame of the page is the first free one again
  have hfirst : FirstFreeFrame s₂.mm.ramBitmap 32768 := by
    rcases alloc_frame_first s₂.mm with ⟨f, hf, halloc⟩ | ⟨-, halloc⟩
    · rw [halloc] at hframe
      have hf' : f = 32768 := by
        simp only at hframe
        omega
      exact hf' ▸ hf
    · rw [halloc] at hframe
      cases hframe
  refine ⟨_, hrun₃, ⟨⟨0, by decide, fun page _ hpage => ?_⟩, {32768}, rfl, fun f hf => ?_⟩, ?_⟩
  · have hcount : pageCount (bytesOf 1#32 1#32) = 1 := rfl
    have hmarks : 1 < markCount := by decide
    exact hinv.marks.free page (by omega) (by simp)
  · rw [Finset.mem_singleton.mp hf]
    exact ⟨hfirst.range, hfirst.clear⟩
  · intro hzeroed
    rcases (calloc_zeroed_of_inv hinv).mp hzeroed with ⟨-, hclear⟩ | ⟨-, hwrapped⟩
    · have hbyte := hclear 0 (by decide) 32768 (by rw [free_frame_list_first hfirst]; rfl)
      cases hbyte
    · cases hwrapped

end Sirius.Process
