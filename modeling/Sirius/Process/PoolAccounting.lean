import Sirius.Process.Pool

/-!
# Accounting of the pools

Runs of `malloc_syscall` and `free_syscall` of any threads, and the exit of some of them.
`Obtained` records which blocks a thread holds and how many calls of `free_pages` came before it got
them. `PoolInv` connects the tables with these records and with the live blocks of the page
allocator. `pool_accounting` is the result for runs in which threads free only blocks they hold
and no table overflows.
-/

namespace Sirius.Process

open Library Memory

/-- A block that a thread got from `malloc_syscall`, after `since` calls of `free_pages`. -/
structure Obtained where
  thread : Nat
  block : Block
  since : Nat

/-- The thread got the address from `malloc_syscall` and has not freed it. -/
def Holds (obtained : List Obtained) (thread addr : Nat) : Prop :=
  ∃ o ∈ obtained, o.thread = thread ∧ o.block.addr = addr

/-- The table records the address. -/
def Records (m : Nat → PoolSyscall) (addr : Nat) : Prop := ∃ i < poolCount, (m i).ptr = addr

/-- The table of the thread records the address. -/
def Recorded (s : Pools) (thread addr : Nat) : Prop := Records (s.pool thread) addr

/-! ### Calls -/

/-- A system call of a thread; `stack` is the value of the uninitialised variable of
`__malloc_syscall`. -/
inductive PoolCall where
  | malloc (thread rdi stack : Nat)
  | free (thread rdi : Nat)

/-- The pages `malloc_syscall` asks for. -/
def pagesOf (rdi : Nat) : Nat :=
  rdi % 2 ^ 32 / 0x1000 + if rdi % 2 ^ 32 % 0x1000 ≠ 0 then 1 else 0

theorem malloc_syscall_eq (thread rdi stack : Nat) (s : Pools) :
    mallocSyscall thread rdi stack s =
      (allocPages 1 (pagesOf rdi) stack s.mm).bind fun result => some (result.2.1, { s with
        mm := result.2.2
        pool := Function.update s.pool thread
          (recordLoop result.2.1 (rdi % 2 ^ 32) (s.pool thread)) }) :=
  rfl

/-- The tables of other threads stay as they are. -/
theorem malloc_syscall_other {thread rdi stack addr other : Nat} {s s' : Pools}
    (h : mallocSyscall thread rdi stack s = some (addr, s')) (hother : other ≠ thread) :
    s'.pool other = s.pool other := by
  rw [malloc_syscall_eq, Option.bind_eq_some_iff] at h
  obtain ⟨result, -, hs⟩ := h
  obtain ⟨-, rfl⟩ := Prod.mk.inj (Option.some.inj hs)
  exact Function.update_of_ne hother _ _

/-- A call together with the records. -/
inductive PoolStep : Pools × List Obtained → PoolCall → Pools × List Obtained → Prop where
  | malloc (s s' : Pools) (obtained : List Obtained) (thread rdi stack addr : Nat) :
      mallocSyscall thread rdi stack s = some (addr, s') →
      PoolStep (s, obtained) (.malloc thread rdi stack)
        (s', if pagesOf rdi = 0 then obtained
          else ⟨thread, ⟨(addr - allocPageMemory) / 0x1000, pagesOf rdi, 1⟩, s.freed.length⟩ ::
            obtained)
  | free (s s' : Pools) (obtained : List Obtained) (thread rdi : Nat) :
      freeSyscall thread rdi s = some s' →
      PoolStep (s, obtained) (.free thread rdi)
        (s', obtained.eraseP fun o => o.thread = thread ∧ o.block.addr = rdi)

/-- The calls under which the accounts hold: a thread allocates at least a byte, while its table has
an empty entry and the pages lie in the window, and it frees only what it holds, or 0. -/
def PoolCall.Good (threads : List Nat) : Pools × List Obtained → PoolCall → Prop
  | (s, _), .malloc thread rdi stack => thread ∈ threads ∧
      (pagesOf rdi = 0 → stack = 0) ∧
      (pagesOf rdi ≠ 0 → Recorded s thread 0 ∧
        ∃ granted v mm, allocPages 1 (pagesOf rdi) stack s.mm = some (granted, v, mm) ∧
          (v - allocPageMemory) / 0x1000 + pagesOf rdi ≤ pteCount)
  | (_, obtained), .free thread rdi => thread ∈ threads ∧ (rdi = 0 ∨ Holds obtained thread rdi)

/-- The threads have been created: their tables are empty, and the pages of the tables are blocks
of their own. -/
structure Created (threads : List Nat) (kernel : List Block) (s : Pools) : Prop where
  reached : ∃ s₀, AllocatorRun PageCall.InWindow s₀ s.mm kernel
  empty : ∀ thread ∈ threads, ∀ i < poolCount, (s.pool thread i).ptr = 0
  table : ∀ thread ∈ threads, ∃ b ∈ kernel, b.addr = s.poolAddr thread
  apart : ∀ thread ∈ threads, ∀ other ∈ threads, s.poolAddr thread = s.poolAddr other →
    thread = other

/-- The runs of the two system calls whose calls are all `Good`. -/
def PoolRun (threads : List Nat) (start s : Pools) (obtained : List Obtained) : Prop :=
  Run PoolStep (PoolCall.Good threads) (start, []) (s, obtained)

/-! ### The table -/

/-- The loop replaces the first entry with the address, if there is one. -/
theorem replace_first_spec (m : Nat → PoolSyscall) (ptr : Nat) (entry : PoolSyscall) (n i : Nat) :
    (∃ j, i ≤ j ∧ j < i + n ∧ (m j).ptr = ptr ∧
        replaceFirst ptr entry n i m = Function.update m j entry) ∨
      ((∀ j, i ≤ j → j < i + n → (m j).ptr ≠ ptr) ∧ replaceFirst ptr entry n i m = m) := by
  induction n generalizing i with
  | zero => exact .inr ⟨fun j hj hlt => by omega, rfl⟩
  | succ n ih =>
      rw [replaceFirst]
      by_cases hptr : (m i).ptr = ptr
      · exact .inl ⟨i, le_rfl, by omega, hptr, if_pos hptr⟩
      · rw [if_neg hptr]
        rcases ih (i + 1) with ⟨j, hj, hlt, hfound, heq⟩ | ⟨hnone, heq⟩
        · exact .inl ⟨j, by omega, by omega, hfound, heq⟩
        · refine .inr ⟨fun j hj hlt => ?_, heq⟩
          rcases Nat.eq_or_lt_of_le hj with rfl | hgt
          · exact hptr
          · exact hnone j hgt (by omega)

/-- No address is recorded twice. -/
def DistinctEntries (m : Nat → PoolSyscall) : Prop :=
  ∀ i < poolCount, ∀ j < poolCount, (m i).ptr = (m j).ptr → (m i).ptr ≠ 0 → i = j

section Table

variable {m : Nat → PoolSyscall} {j : Nat}

/-- Recording an address in an empty entry. -/
theorem records_record (hj : j < poolCount) (hempty : (m j).ptr = 0) {addr size other : Nat}
    (hother : other ≠ 0) :
    Records (Function.update m j ⟨addr, size, 0⟩) other ↔ other = addr ∨ Records m other := by
  constructor
  · rintro ⟨i, hi, hptr⟩
    by_cases heq : i = j
    · rw [heq, Function.update_self] at hptr
      exact .inl hptr.symm
    · rw [Function.update_of_ne heq] at hptr
      exact .inr ⟨i, hi, hptr⟩
  · rintro (rfl | ⟨i, hi, hptr⟩)
    · exact ⟨j, hj, by rw [Function.update_self]⟩
    · have hne : i ≠ j := by
        rintro rfl
        exact hother (hptr.symm.trans hempty)
      exact ⟨i, hi, by rw [Function.update_of_ne hne, hptr]⟩

theorem DistinctEntries.record (h : DistinctEntries m) {addr size : Nat}
    (hunused : ¬ Records m addr) : DistinctEntries (Function.update m j ⟨addr, size, 0⟩) := by
  intro i hi i' hi'
  by_cases hij : i = j <;> by_cases hij' : i' = j
  · exact fun _ _ => hij.trans hij'.symm
  · rw [hij, Function.update_self, Function.update_of_ne hij']
    exact fun hptr => absurd ⟨i', hi', hptr.symm⟩ hunused
  · rw [hij', Function.update_self, Function.update_of_ne hij]
    exact fun hptr => absurd ⟨i, hi, hptr⟩ hunused
  · rw [Function.update_of_ne hij, Function.update_of_ne hij']
    exact h i hi i' hi'

/-- Clearing the entry of an address. -/
theorem records_forget (h : DistinctEntries m) (hj : j < poolCount) {ptr other : Nat}
    (hptr : (m j).ptr = ptr) (hother : other ≠ 0) :
    Records (Function.update m j ⟨0, 0, 0⟩) other ↔ other ≠ ptr ∧ Records m other := by
  constructor
  · rintro ⟨i, hi, hentry⟩
    by_cases heq : i = j
    · rw [heq, Function.update_self] at hentry
      exact absurd hentry.symm hother
    · rw [Function.update_of_ne heq] at hentry
      refine ⟨?_, i, hi, hentry⟩
      rintro rfl
      exact heq (h i hi j hj (hentry.trans hptr.symm) (hentry ▸ hother))
  · rintro ⟨hne, i, hi, hentry⟩
    have hij : i ≠ j := by
      rintro rfl
      exact hne (hentry.symm.trans hptr)
    exact ⟨i, hi, by rw [Function.update_of_ne hij, hentry]⟩

theorem DistinctEntries.forget (h : DistinctEntries m) :
    DistinctEntries (Function.update m j ⟨0, 0, 0⟩) := by
  intro i hi i' hi'
  by_cases hij : i = j <;> by_cases hij' : i' = j
  · exact fun _ _ => hij.trans hij'.symm
  · rw [hij, Function.update_self]
    exact fun _ hne => absurd rfl hne
  · rw [hij', Function.update_self, Function.update_of_ne hij]
    exact fun hptr hne => absurd hptr hne
  · rw [Function.update_of_ne hij, Function.update_of_ne hij']
    exact h i hi i' hi'

end Table

/-! ### The invariant -/

/-- The tables, the records and the allocator agree. -/
structure PoolInv (threads : List Nat) (kernel : List Block) (s : Pools)
    (obtained : List Obtained) : Prop where
  live : PageInvariant s.mm (obtained.map Obtained.block ++ kernel)
  owner : ∀ o ∈ obtained, o.thread ∈ threads
  recorded : ∀ thread ∈ threads, ∀ addr ≠ 0, Recorded s thread addr ↔ Holds obtained thread addr
  once : ∀ thread ∈ threads, DistinctEntries (s.pool thread)
  kept : ∀ o ∈ obtained, o.since ≤ s.freed.length ∧ o.block.addr ∉ s.freed.drop o.since
  table : ∀ thread ∈ threads, ∃ b ∈ kernel, b.addr = s.poolAddr thread
  apart : ∀ thread ∈ threads, ∀ other ∈ threads, s.poolAddr thread = s.poolAddr other →
    thread = other

/-- Blocks of the window do not start at the null pointer. -/
theorem block_addr_ne_zero (b : Block) : b.addr ≠ 0 := by
  have hwindow : allocPageMemory = 2 ^ 32 := rfl
  unfold Block.addr
  omega

namespace PoolInv

variable {threads : List Nat} {kernel : List Block} {s : Pools} {obtained : List Obtained}

/-- A held block is live. -/
theorem mem_live {o : Obtained} (ho : o ∈ obtained) :
    o.block ∈ obtained.map Obtained.block ++ kernel :=
  List.mem_append_left _ (List.mem_map_of_mem ho)

/-- Two records with one address are the same record. -/
theorem unique (h : PoolInv threads kernel s obtained) {o o' : Obtained} (ho : o ∈ obtained)
    (ho' : o' ∈ obtained) (haddr : o.block.addr = o'.block.addr) : o = o' := by
  have hblock := h.live.addr_inj (mem_live ho) (mem_live ho') haddr
  exact List.inj_on_of_nodup_map (List.nodup_append.mp h.live.nodup).1 ho ho' hblock

/-- A held block is no block of the kernel. -/
theorem not_kernel (h : PoolInv threads kernel s obtained) {o : Obtained} (ho : o ∈ obtained)
    {b : Block} (hb : b ∈ kernel) : b.addr ≠ o.block.addr := by
  intro haddr
  have hblock := h.live.addr_inj (List.mem_append_right _ hb) (mem_live ho) haddr
  exact (List.nodup_append.mp h.live.nodup).2.2 _ (List.mem_map_of_mem ho) b hb hblock.symm

/-- Only the addresses in the tables count. -/
theorem congr (h : PoolInv threads kernel s obtained) {pool : Nat → Nat → PoolSyscall}
    (hptr : ∀ thread i, (pool thread i).ptr = (s.pool thread i).ptr) :
    PoolInv threads kernel { s with pool := pool } obtained := by
  have hrecorded : ∀ thread addr, Recorded { s with pool := pool } thread addr ↔
      Recorded s thread addr := by
    intro thread addr
    show Records (pool thread) addr ↔ Records (s.pool thread) addr
    simp only [Records, hptr]
  constructor
  · exact h.live
  · exact h.owner
  · intro thread hthread addr haddr
    rw [hrecorded]
    exact h.recorded thread hthread addr haddr
  · intro thread hthread i hi j hj
    show (pool thread i).ptr = (pool thread j).ptr → (pool thread i).ptr ≠ 0 → i = j
    rw [hptr, hptr]
    exact h.once thread hthread i hi j hj
  · exact h.kept
  · exact h.table
  · exact h.apart

/-- The invariant of the threads just created. -/
theorem of_created (h : Created threads kernel s) : PoolInv threads kernel s [] := by
  obtain ⟨s₀, hrun⟩ := h.reached
  constructor
  · exact allocator_run_inv hrun
  · simp
  · intro thread hthread addr haddr
    constructor
    · rintro ⟨i, hi, hptr⟩
      rw [h.empty thread hthread i hi] at hptr
      exact absurd hptr.symm haddr
    · rintro ⟨o, ho, -⟩
      cases ho
  · intro thread hthread i hi j hj hptr hne
    exact absurd (h.empty thread hthread i hi) hne
  · simp
  · exact h.table
  · exact h.apart

/-- `malloc_syscall` of no pages, with a null pointer left in the variable. -/
theorem malloc_none (h : PoolInv threads kernel s obtained) {thread rdi addr : Nat} {s' : Pools}
    (hpages : pagesOf rdi = 0) (hcall : mallocSyscall thread rdi 0 s = some (addr, s')) :
    PoolInv threads kernel s' obtained := by
  have hresult : mallocSyscall thread rdi 0 s = some (0, { s with
      pool := Function.update s.pool thread
        (recordLoop 0 (rdi % 2 ^ 32) (s.pool thread)) }) := by
    rw [malloc_syscall_eq, hpages]
    rfl
  rw [hresult] at hcall
  obtain rfl := (Prod.mk.inj (Option.some.inj hcall)).2
  refine h.congr fun other i => ?_
  by_cases hother : other = thread
  · subst hother
    rw [Function.update_self]
    rcases replace_first_spec (s.pool other) 0 ⟨0, rdi % 2 ^ 32, 0⟩ poolCount 0 with
      ⟨j, -, -, hempty, heq⟩ | ⟨-, heq⟩
    · rw [recordLoop, heq]
      by_cases hi : i = j
      · rw [hi, Function.update_self, hempty]
      · rw [Function.update_of_ne hi]
    · rw [recordLoop, heq]
  · rw [Function.update_of_ne hother]

/-- `malloc_syscall` of pages, while the table has an empty entry. -/
theorem malloc_block (h : PoolInv threads kernel s obtained) {thread rdi stack addr granted : Nat}
    {mm : Mm} (hthread : thread ∈ threads) (hpages : pagesOf rdi ≠ 0)
    (hempty : Recorded s thread 0)
    (halloc : allocPages 1 (pagesOf rdi) stack s.mm = some (granted, addr, mm))
    (hbound : (addr - allocPageMemory) / 0x1000 + pagesOf rdi ≤ pteCount) :
    PoolInv threads kernel { s with
        mm := mm
        pool := Function.update s.pool thread
          (recordLoop addr (rdi % 2 ^ 32) (s.pool thread)) }
      (⟨thread, ⟨(addr - allocPageMemory) / 0x1000, pagesOf rdi, 1⟩, s.freed.length⟩ ::
        obtained) := by
  obtain ⟨haddr, hlive⟩ := alloc_pages_window_inv h.live (Nat.pos_of_ne_zero hpages) halloc hbound
  generalize hb : (Block.mk ((addr - allocPageMemory) / 0x1000) (pagesOf rdi) 1) = b at *
  -- a live block has another address, so the entry is recorded for the first time
  have hnew : ∀ c ∈ obtained.map Obtained.block ++ kernel, c.addr ≠ addr := by
    intro c hc heq
    have hsame := hlive.addr_inj (List.mem_cons_of_mem _ hc) (List.mem_cons_self ..)
      (heq.trans haddr)
    rw [hsame] at hc
    exact (List.nodup_cons.mp hlive.nodup).1 hc
  have hnonzero : addr ≠ 0 := haddr ▸ block_addr_ne_zero b
  obtain ⟨k, hk, hzero⟩ := hempty
  rcases replace_first_spec (s.pool thread) 0 ⟨addr, rdi % 2 ^ 32, 0⟩ poolCount 0 with
    ⟨j, -, hj, hjzero, hloop⟩ | ⟨hnone, -⟩
  · rw [Nat.zero_add] at hj
    rw [recordLoop, hloop]
    constructor
    · exact hlive
    · intro o ho
      rcases List.mem_cons.mp ho with rfl | ho
      · exact hthread
      · exact h.owner o ho
    · intro other hother address hne
      have hholds : Holds (⟨thread, b, s.freed.length⟩ :: obtained) other address ↔
          thread = other ∧ b.addr = address ∨ Holds obtained other address := by
        simp only [Holds, List.mem_cons, exists_eq_or_imp]
      rw [hholds, ← h.recorded other hother address hne]
      show Records (Function.update s.pool thread _ other) address ↔ _
      -- only the table of the calling thread changes
      by_cases hsame : thread = other
      · subst hsame
        rw [Function.update_self, records_record hj hjzero hne, ← haddr]
        simp only [true_and, eq_comm]
        rfl
      · rw [Function.update_of_ne (Ne.symm hsame)]
        simp only [hsame, false_and, false_or]
        rfl
    · intro other hother
      show DistinctEntries (Function.update s.pool thread _ other)
      by_cases hsame : other = thread
      · subst hsame
        rw [Function.update_self]
        refine (h.once other hother).record fun hrecorded => ?_
        obtain ⟨o, ho, -, hoaddr⟩ := (h.recorded other hother addr hnonzero).mp hrecorded
        exact hnew _ (mem_live ho) hoaddr
      · rw [Function.update_of_ne hsame]
        exact h.once other hother
    · intro o ho
      rcases List.mem_cons.mp ho with rfl | ho
      · refine ⟨le_rfl, ?_⟩
        show _ ∉ s.freed.drop s.freed.length
        rw [List.drop_length]
        exact List.not_mem_nil
      · exact h.kept o ho
    · exact h.table
    · exact h.apart
  · exact absurd hzero (hnone k (Nat.zero_le k) (by omega))

/-- `free_pages` of a live block, with the call put on record. -/
theorem release_pages_live {live : List Block} (h : PageInvariant s.mm live) {b : Block}
    (hb : b ∈ live) :
    ∃ mm, releasePages b.addr s = some { s with mm := mm, freed := s.freed ++ [b.addr] } ∧
      PageInvariant mm (live.erase b) := by
  obtain ⟨mm, hreturns, -, hinv⟩ := free_pages_inv h hb
  refine ⟨mm, ?_, hinv⟩
  rw [releasePages, hreturns]
  rfl

/-- The state and the records after `free_syscall` of the block of `o`. -/
theorem forget_inv {l₁ l₂ : List Obtained} {o : Obtained} {mm : Mm} {j : Nat}
    (h : PoolInv threads kernel s (l₁ ++ o :: l₂))
    (hlive : PageInvariant mm (((l₁ ++ o :: l₂).map Obtained.block ++ kernel).erase o.block))
    (hj : j < poolCount) (hptr : (s.pool o.thread j).ptr = o.block.addr) :
    PoolInv threads kernel { s with
        mm := mm
        freed := s.freed ++ [o.block.addr]
        pool := Function.update s.pool o.thread
          (Function.update (s.pool o.thread) j ⟨0, 0, 0⟩) } (l₁ ++ l₂) := by
  have ho : o ∈ l₁ ++ o :: l₂ := List.mem_append_right _ (List.mem_cons_self ..)
  have hsub : ∀ o' ∈ l₁ ++ l₂, o' ∈ l₁ ++ o :: l₂ := fun o' ho' => by
    rw [List.mem_append, List.mem_cons]
    rw [List.mem_append] at ho'
    tauto
  have hperm : ((l₁ ++ o :: l₂).map Obtained.block ++ kernel).Perm
      (o.block :: ((l₁ ++ l₂).map Obtained.block ++ kernel)) := by
    rw [List.map_append, List.map_cons, List.map_append, List.append_assoc,
      List.append_assoc, List.cons_append]
    exact List.perm_middle
  -- live blocks have different addresses
  have hother : ∀ o' ∈ l₁ ++ l₂, o'.block.addr ≠ o.block.addr := by
    intro o' ho' haddr
    have hblock := h.live.addr_inj (mem_live (hsub o' ho')) (mem_live ho) haddr
    have hnodup := List.nodup_cons.mp (hperm.nodup_iff.mp h.live.nodup)
    exact hnodup.1 (hblock ▸ mem_live ho')
  constructor
  · have hrest := hperm.erase o.block
    rw [List.erase_cons_head] at hrest
    exact hlive.perm hrest
  · exact fun o' ho' => h.owner o' (hsub o' ho')
  · intro other hmem address hne
    -- what is held now is what was held, without this block
    have hholds : Holds (l₁ ++ l₂) other address ↔
        Holds (l₁ ++ o :: l₂) other address ∧ ¬ (other = o.thread ∧ address = o.block.addr) := by
      constructor
      · rintro ⟨o', ho', rfl, rfl⟩
        exact ⟨⟨o', hsub o' ho', rfl, rfl⟩, fun hsame => hother o' ho' hsame.2⟩
      · rintro ⟨⟨o', ho', rfl, rfl⟩, hne⟩
        refine ⟨o', ?_, rfl, rfl⟩
        rw [List.mem_append, List.mem_cons] at ho'
        rw [List.mem_append]
        rcases ho' with hleft | rfl | hright
        · exact .inl hleft
        · exact absurd ⟨rfl, rfl⟩ hne
        · exact .inr hright
    rw [hholds, ← h.recorded other hmem address hne]
    show Records (Function.update s.pool o.thread _ other) address ↔
      Records (s.pool other) address ∧ _
    by_cases hsame : other = o.thread
    · subst hsame
      rw [Function.update_self, records_forget (h.once _ hmem) hj hptr hne]
      simp only [true_and, and_comm]
    · rw [Function.update_of_ne hsame]
      simp only [hsame, false_and, not_false_iff, and_true]
  · intro other hmem
    show DistinctEntries (Function.update s.pool o.thread _ other)
    by_cases hsame : other = o.thread
    · subst hsame
      rw [Function.update_self]
      exact (h.once _ hmem).forget
    · rw [Function.update_of_ne hsame]
      exact h.once other hmem
  · intro o' ho'
    obtain ⟨hsince, hnot⟩ := h.kept o' (hsub o' ho')
    show o'.since ≤ (s.freed ++ [o.block.addr]).length ∧
      o'.block.addr ∉ (s.freed ++ [o.block.addr]).drop o'.since
    rw [List.length_append, List.drop_append_of_le_length hsince, List.mem_append,
      List.mem_singleton]
    exact ⟨by omega, not_or.mpr ⟨hnot, hother o' ho'⟩⟩
  · exact h.table
  · exact h.apart

/-- `free_syscall` of a block the thread holds. -/
theorem free_block (h : PoolInv threads kernel s obtained) {thread rdi : Nat}
    (hthread : thread ∈ threads) (hholds : Holds obtained thread rdi) :
    ∃ s', freeSyscall thread rdi s = some s' ∧
      PoolInv threads kernel s'
        (obtained.eraseP fun o => o.thread = thread ∧ o.block.addr = rdi) := by
  obtain ⟨o, ho, howner, haddr⟩ := hholds
  obtain ⟨o', l₁, l₂, -, ho', hsplit, heq⟩ :=
    List.exists_of_eraseP (p := fun o => decide (o.thread = thread ∧ o.block.addr = rdi)) ho
      (decide_eq_true ⟨howner, haddr⟩)
  obtain ⟨rfl, rfl⟩ := of_decide_eq_true ho'
  rw [heq]
  subst hsplit
  have hmem : o' ∈ l₁ ++ o' :: l₂ := List.mem_append_right _ (List.mem_cons_self ..)
  have hnonzero := block_addr_ne_zero o'.block
  obtain ⟨mm, hrelease, hlive⟩ := release_pages_live h.live (mem_live hmem)
  obtain ⟨k, hk, hfound⟩ := (h.recorded _ hthread _ hnonzero).mpr ⟨o', hmem, rfl, rfl⟩
  rcases replace_first_spec (s.pool o'.thread) o'.block.addr ⟨0, 0, 0⟩ poolCount 0 with
    ⟨j, -, hj, hptr, hloop⟩ | ⟨hnone, -⟩
  · rw [Nat.zero_add] at hj
    refine ⟨_, ?_, h.forget_inv hlive hj hptr⟩
    rw [freeSyscall, threadFreeSyscall, if_neg hnonzero, hrelease, ← hloop]
    rfl
  · exact absurd hfound (hnone k (Nat.zero_le k) (by omega))

end PoolInv

section Runs

variable {threads : List Nat} {kernel : List Block} {start s : Pools} {obtained : List Obtained}

/-- The invariant holds in every state of a run. -/
theorem pool_run_inv (hcreated : Created threads kernel start)
    (hrun : PoolRun threads start s obtained) : PoolInv threads kernel s obtained := by
  refine Run.invariant (fun state => PoolInv threads kernel state.1 state.2) hrun
    (PoolInv.of_created hcreated) ?_
  intro state call next h hgood hstep
  cases hstep with
  | malloc s s' obtained thread rdi stack addr hcall =>
      obtain ⟨hthread, hnone, hsome⟩ := hgood
      by_cases hpages : pagesOf rdi = 0
      · rw [hnone hpages] at hcall
        rw [if_pos hpages]
        exact PoolInv.malloc_none h hpages hcall
      · obtain ⟨hempty, granted, v, mm, halloc, hbound⟩ := hsome hpages
        have hresult : mallocSyscall thread rdi stack s = some (v, { s with
            mm := mm
            pool := Function.update s.pool thread
              (recordLoop v (rdi % 2 ^ 32) (s.pool thread)) }) := by
          rw [malloc_syscall_eq, halloc]
          rfl
        rw [hresult] at hcall
        obtain ⟨rfl, rfl⟩ := Prod.mk.inj (Option.some.inj hcall)
        rw [if_neg hpages]
        exact PoolInv.malloc_block h hthread hpages hempty halloc hbound
  | free s s' obtained thread rdi hcall =>
      obtain ⟨hthread, rfl | hholds⟩ := hgood
      · obtain rfl : s = s' := Option.some.inj hcall
        have hnone : (obtained.eraseP fun o => o.thread = thread ∧ o.block.addr = 0) = obtained :=
          List.eraseP_of_forall_not fun o _ => by simp [block_addr_ne_zero]
        rw [hnone]
        exact h
      · obtain ⟨s'', hreturns, hinv⟩ := PoolInv.free_block h hthread hholds
        rw [hreturns] at hcall
        obtain rfl := Option.some.inj hcall
        exact hinv

/-! ### Exit -/

/-- Several calls of `free_pages`. -/
def releaseAll : (addrs : List Nat) → Pools → Option Pools
  | [], s => some s
  | addr :: rest, s =>
      match releasePages addr s with
      | none => none
      | some s => releaseAll rest s

theorem release_all_append (xs ys : List Nat) (s : Pools) :
    releaseAll (xs ++ ys) s = (releaseAll xs s).bind (releaseAll ys) := by
  induction xs generalizing s with
  | nil => rfl
  | cons x xs ih =>
      rw [List.cons_append, releaseAll, releaseAll]
      cases releasePages x s with
      | none => rfl
      | some s => exact ih s

/-- The tables are not changed. -/
theorem release_all_tables {addrs : List Nat} {s s' : Pools}
    (h : releaseAll addrs s = some s') : s'.pool = s.pool ∧ s'.poolAddr = s.poolAddr := by
  induction addrs generalizing s with
  | nil =>
      obtain rfl : s = s' := Option.some.inj h
      exact ⟨rfl, rfl⟩
  | cons addr rest ih =>
      rw [releaseAll, releasePages] at h
      cases hfree : freePages addr s.mm with
      | none =>
          rw [hfree] at h
          cases h
      | some mm =>
          rw [hfree] at h
          exact ih (s := { s with mm := mm, freed := s.freed ++ [addr] }) h

/-- Distinct live blocks are released one after the other. -/
theorem release_all_live {addrs : List Nat} {s : Pools} {live : List Block}
    (h : PageInvariant s.mm live) (hnodup : addrs.Nodup)
    (hlive : ∀ addr ∈ addrs, ∃ b ∈ live, b.addr = addr) :
    ∃ s', releaseAll addrs s = some s' ∧ s'.freed = s.freed ++ addrs ∧
      PageInvariant s'.mm (live.filter fun b => b.addr ∉ addrs) := by
  induction addrs generalizing s live with
  | nil =>
      refine ⟨s, rfl, (List.append_nil _).symm, ?_⟩
      simpa using h
  | cons addr rest ih =>
      obtain ⟨hnot, hrest⟩ := List.nodup_cons.mp hnodup
      obtain ⟨b, hb, rfl⟩ := hlive addr (List.mem_cons_self ..)
      obtain ⟨mm, hrelease, hinv⟩ := PoolInv.release_pages_live h hb
      -- the other addresses are still those of live blocks
      have hleft : ∀ addr ∈ rest, ∃ c ∈ live.erase b, c.addr = addr := by
        intro addr haddr
        obtain ⟨c, hc, rfl⟩ := hlive addr (List.mem_cons_of_mem _ haddr)
        refine ⟨c, (List.Nodup.mem_erase_iff h.nodup).mpr ⟨?_, hc⟩, rfl⟩
        rintro rfl
        exact hnot haddr
      obtain ⟨s', hreturns, hfreed, hinv'⟩ :=
        ih (s := { s with mm := mm, freed := s.freed ++ [b.addr] }) hinv hrest hleft
      refine ⟨s', ?_, ?_, ?_⟩
      · rw [releaseAll, hrelease]
        exact hreturns
      · rw [hfreed, List.append_assoc]
        rfl
      · rw [h.nodup.erase_eq_filter, List.filter_filter] at hinv'
        have hsame : (live.filter fun c => decide (c.addr ∉ b.addr :: rest)) =
            live.filter fun c => decide (c.addr ∉ rest) && (c != b) := by
          refine List.filter_congr fun c hc => ?_
          rw [Bool.eq_iff_iff]
          have hsame : c.addr = b.addr ↔ c = b :=
            ⟨h.addr_inj hc hb, fun heq => congrArg Block.addr heq⟩
          simp only [List.mem_cons, not_or, hsame, decide_eq_true_eq, Bool.and_eq_true, bne_iff_ne,
            and_comm]
        rw [hsame]
        exact hinv'

/-- The addresses `user_free` finds in the table. -/
def tableBlocks (m : Nat → PoolSyscall) (n i : Nat) : List Nat :=
  ((List.range' i n).map fun i => (m i).ptr).filter fun ptr => ptr ≠ 0

theorem user_free_loop_eq (m : Nat → PoolSyscall) (n i : Nat) (s : Pools) :
    userFreeLoop m n i s = releaseAll (tableBlocks m n i) s := by
  induction n generalizing i s with
  | zero => rfl
  | succ n ih =>
      rw [userFreeLoop, tableBlocks, List.range'_succ, List.map_cons, List.filter_cons]
      by_cases hptr : (m i).ptr = 0
      · rw [if_neg (not_not_intro hptr), if_neg (by simp [hptr])]
        exact ih (i + 1) s
      · rw [if_pos hptr, if_pos (by simp [hptr]), releaseAll]
        cases releasePages (m i).ptr s with
        | none => rfl
        | some s => exact ih (i + 1) s

/-- What `user_free` releases: the blocks in the table and the table. -/
def releasedBy (s : Pools) (thread : Nat) : List Nat :=
  tableBlocks (s.pool thread) poolCount 0 ++ [s.poolAddr thread]

theorem user_free_eq (thread : Nat) (s : Pools) :
    userFree thread s = releaseAll (releasedBy s thread) s := by
  rw [userFree, user_free_loop_eq, releasedBy, release_all_append]
  cases hreturns : releaseAll (tableBlocks (s.pool thread) poolCount 0) s with
  | none => rfl
  | some s' =>
      obtain ⟨-, haddr⟩ := release_all_tables hreturns
      show releasePages (s'.poolAddr thread) s' = releaseAll [s.poolAddr thread] s'
      rw [haddr, releaseAll]
      cases releasePages (s.poolAddr thread) s' <;> rfl

theorem exit_pools_eq (chain : List Nat) (s : Pools) :
    exitPools chain s = releaseAll (chain.flatMap (releasedBy s)) s := by
  induction chain generalizing s with
  | nil => rfl
  | cons thread tail ih =>
      rw [exitPools, user_free_eq, List.flatMap_cons, release_all_append]
      cases hreturns : releaseAll (releasedBy s thread) s with
      | none => rfl
      | some s' =>
          obtain ⟨hpool, haddr⟩ := release_all_tables hreturns
          have hsame : releasedBy s' = releasedBy s := by
            funext thread
            rw [releasedBy, releasedBy, hpool, haddr]
          show exitPools tail s' = releaseAll (tail.flatMap (releasedBy s)) s'
          rw [ih s', hsame]

theorem mem_table_blocks (m : Nat → PoolSyscall) {addr : Nat} :
    addr ∈ tableBlocks m poolCount 0 ↔ addr ≠ 0 ∧ Records m addr := by
  simp only [tableBlocks, List.mem_filter, List.mem_map, List.mem_range'_1, Nat.zero_le, true_and,
    Nat.zero_add, decide_eq_true_eq, Records, and_comm]

theorem table_blocks_nodup {m : Nat → PoolSyscall} (h : DistinctEntries m) :
    (tableBlocks m poolCount 0).Nodup := by
  have hpairwise : (tableBlocks m poolCount 0).Pairwise (· ≠ ·) := by
    rw [tableBlocks, List.pairwise_filter, List.pairwise_map]
    refine List.Pairwise.imp_of_mem ?_ (List.nodup_range' (s := 0) (n := poolCount))
    intro i j hi hj hne hnonzero _ hptr
    rw [List.mem_range'_1] at hi hj
    exact hne (h i (by omega) j (by omega) hptr (of_decide_eq_true hnonzero))
  exact hpairwise

/-- What the exit of the threads of `chain` releases: what they hold, and their tables. -/
theorem mem_released (h : PoolInv threads kernel s obtained) {chain : List Nat}
    (hchain : ∀ thread ∈ chain, thread ∈ threads) {addr : Nat} :
    addr ∈ chain.flatMap (releasedBy s) ↔
      ∃ thread ∈ chain, Holds obtained thread addr ∨ addr = s.poolAddr thread := by
  simp only [List.mem_flatMap, releasedBy, List.mem_append, List.mem_singleton, mem_table_blocks]
  refine exists_congr fun thread => and_congr_right fun hthread => or_congr_left ?_
  constructor
  · rintro ⟨hne, hrecorded⟩
    exact (h.recorded thread (hchain thread hthread) addr hne).mp hrecorded
  · intro hholds
    obtain ⟨o, -, -, haddr⟩ := id hholds
    have hne : addr ≠ 0 := haddr ▸ block_addr_ne_zero o.block
    exact ⟨hne, (h.recorded thread (hchain thread hthread) addr hne).mpr hholds⟩

/-- A thread holds no table. -/
theorem PoolInv.not_table (h : PoolInv threads kernel s obtained) {thread other addr : Nat}
    (hthread : thread ∈ threads) (hholds : Holds obtained other addr) :
    addr ≠ s.poolAddr thread := by
  obtain ⟨o, ho, -, rfl⟩ := hholds
  obtain ⟨b, hb, hbaddr⟩ := h.table thread hthread
  exact fun heq => h.not_kernel ho hb (hbaddr.trans heq.symm)

/-- Exit releases nothing twice. -/
theorem released_nodup (h : PoolInv threads kernel s obtained) {chain : List Nat}
    (hchain : ∀ thread ∈ chain, thread ∈ threads) (hnodup : chain.Nodup) :
    (chain.flatMap (releasedBy s)).Nodup := by
  have hone : ∀ thread ∈ chain, ∀ addr ∈ releasedBy s thread,
      Holds obtained thread addr ∨ addr = s.poolAddr thread := by
    intro thread hthread addr haddr
    have hmem : addr ∈ [thread].flatMap (releasedBy s) := by simpa using haddr
    obtain ⟨other, hother, hcase⟩ := (mem_released h (by simpa using hchain thread hthread)).mp hmem
    rwa [List.mem_singleton.mp hother] at hcase
  rw [List.nodup_flatMap]
  refine ⟨fun thread hthread => ?_, hnodup.imp_of_mem ?_⟩
  · have hmem := hchain thread hthread
    refine List.nodup_append.mpr ⟨table_blocks_nodup (h.once thread hmem), List.nodup_singleton _,
      fun addr haddr other hother => ?_⟩
    obtain ⟨hne, hrecorded⟩ := (mem_table_blocks _).mp haddr
    rw [List.mem_singleton.mp hother]
    exact h.not_table hmem ((h.recorded thread hmem addr hne).mp hrecorded)
  · intro thread other hthread hother hne addr haddr haddr'
    rcases hone thread hthread addr haddr with hholds | htable <;>
      rcases hone other hother addr haddr' with hholds' | htable'
    · obtain ⟨o, ho, rfl, hoaddr⟩ := hholds
      obtain ⟨o', ho', rfl, hoaddr'⟩ := hholds'
      exact hne (congrArg Obtained.thread (h.unique ho ho' (hoaddr.trans hoaddr'.symm)))
    · exact h.not_table (hchain other hother) hholds htable'
    · exact h.not_table (hchain thread hthread) hholds' htable
    · exact hne (h.apart thread (hchain thread hthread) other (hchain other hother)
        (htable.symm.trans htable'))

/-- A nonzero address is always passed to `free_pages`. -/
theorem free_syscall_freed {thread rdi : Nat} {s' : Pools} (hrdi : rdi ≠ 0)
    (hcall : freeSyscall thread rdi s = some s') : s'.freed = s.freed ++ [rdi] := by
  rw [freeSyscall, threadFreeSyscall, if_neg hrdi, releasePages] at hcall
  cases hfree : freePages rdi s.mm with
  | none =>
      rw [hfree] at hcall
      cases hcall
  | some mm =>
      rw [hfree] at hcall
      obtain rfl := Option.some.inj hcall
      rfl

/-- The accounts of the pools over whole runs. In every state a run of good calls reaches,
`free_syscall` releases nothing or an address in the caller's own table exactly when the caller
frees 0 or what it holds; and when threads exit, every block they hold has been passed to
`free_pages` exactly once since they got it, no block of another thread has been, and exactly the
blocks of the other threads are still allocated. -/
theorem pool_accounting (threads : List Nat) (kernel : List Block) (start s : Pools)
    (obtained : List Obtained) (hcreated : Created threads kernel start)
    (hrun : PoolRun threads start s obtained) :
    (∀ thread ∈ threads, ∀ rdi s', freeSyscall thread rdi s = some s' →
      (s'.freed = s.freed ∨ Recorded s thread rdi ↔ rdi = 0 ∨ Holds obtained thread rdi)) ∧
    (∀ chain : List Nat, chain.Nodup → (∀ thread ∈ chain, thread ∈ threads) →
      ∃ s' live, exitPools chain s = some s' ∧ PageInvariant s'.mm live ∧
        ∀ o ∈ obtained,
          (s'.freed.drop o.since).count o.block.addr = (if o.thread ∈ chain then 1 else 0) ∧
          (o.block ∈ live ↔ o.thread ∉ chain)) := by
  have h := pool_run_inv hcreated hrun
  refine ⟨fun thread hthread rdi s' hcall => ?_, fun chain hnodup hchain => ?_⟩
  · by_cases hrdi : rdi = 0
    · subst hrdi
      obtain rfl : s = s' := Option.some.inj hcall
      simp
    · have hgrown : s'.freed ≠ s.freed := by
        rw [free_syscall_freed hrdi hcall]
        simp
      rw [h.recorded thread hthread rdi hrdi]
      simp [hgrown, hrdi]
  · -- the exit releases the blocks of the chain and its tables, and no thread holds a table
    have hreleased : ∀ o ∈ obtained,
        (o.block.addr ∈ chain.flatMap (releasedBy s) ↔ o.thread ∈ chain) := by
      intro o ho
      rw [mem_released h hchain]
      constructor
      · rintro ⟨thread, hthread, hholds | htable⟩
        · obtain ⟨o', ho', rfl, haddr⟩ := hholds
          rwa [← h.unique ho' ho haddr]
        · exact absurd htable (h.not_table (hchain thread hthread) ⟨o, ho, rfl, rfl⟩)
      · exact fun hthread => ⟨o.thread, hthread, .inl ⟨o, ho, rfl, rfl⟩⟩
    have hlive : ∀ addr ∈ chain.flatMap (releasedBy s),
        ∃ b ∈ obtained.map Obtained.block ++ kernel, b.addr = addr := by
      intro addr haddr
      obtain ⟨thread, hthread, hholds | htable⟩ := (mem_released h hchain).mp haddr
      · obtain ⟨o, ho, -, hoaddr⟩ := hholds
        exact ⟨o.block, PoolInv.mem_live ho, hoaddr⟩
      · obtain ⟨b, hb, hbaddr⟩ := h.table thread (hchain thread hthread)
        exact ⟨b, List.mem_append_right _ hb, hbaddr.trans htable.symm⟩
    have hdistinct := released_nodup h hchain hnodup
    obtain ⟨s', hreturns, hfreed, hinv⟩ := release_all_live h.live hdistinct hlive
    refine ⟨s', _, by rw [exit_pools_eq, hreturns], hinv, fun o ho => ⟨?_, ?_⟩⟩
    · obtain ⟨hsince, hnot⟩ := h.kept o ho
      rw [hfreed, List.drop_append_of_le_length hsince, List.count_append,
        List.count_eq_zero.mpr hnot, Nat.zero_add, hdistinct.count]
      simp only [hreleased o ho]
    · rw [List.mem_filter, decide_eq_true_eq, hreleased o ho]
      exact and_iff_right (PoolInv.mem_live ho)

end Runs

/-- Two threads are created, thread 1 gets a page, and thread 2 frees it. -/
def foreignFree : Option (Pools × Nat × Pools × Pools) := do
  let (_, v₁, mm) ← allocPages 0 2 0 (allocPagesSetup (ramSetup clearMachine))
  let (_, v₂, mm) ← allocPages 0 2 0 mm
  let start : Pools :=
    ⟨mm, fun _ _ => ⟨0, 0, 0⟩, fun thread => if thread = 1 then v₁ else v₂, []⟩
  let (addr, s) ← mallocSyscall 1 0x1000 0 start
  let s' ← freeSyscall 2 addr s
  pure (start, addr, s, s')

/-- The calls of `foreignFree` return: thread 1 holds the page behind the two tables. -/
theorem foreign_free_run :
    ∃ start s s', Created [1, 2] [⟨2, 2, 0⟩, ⟨0, 2, 0⟩] start ∧
      PoolRun [1, 2] start s [⟨1, ⟨4, 1, 1⟩, 0⟩] ∧
      (∀ i, (s.pool 2 i).ptr = 0) ∧ freeSyscall 2 (Block.mk 4 1 1).addr s = some s' := by
  have hvalue : (foreignFree.map fun r => (r.1.poolAddr 1, r.1.poolAddr 2, r.2.1)) =
      some (allocPageMemory, allocPageMemory + 0x2000, allocPageMemory + 0x4000) := by
    decide +kernel
  obtain ⟨⟨start, addr, s, s'⟩, hcalls, hresult⟩ := Option.map_eq_some_iff.mp hvalue
  simp only [Prod.mk.injEq] at hresult
  obtain ⟨hfirst, hsecond, rfl⟩ := hresult
  simp only [foreignFree, Option.bind_eq_bind, Option.bind_eq_some_iff, Option.pure_def,
    Option.some.injEq, Prod.mk.injEq] at hcalls
  obtain ⟨⟨l₁, v₁, mm₁⟩, h₁, ⟨l₂, v₂, mm₂⟩, h₂, ⟨addr, s⟩, h₃, s', h₄, rfl, rfl, rfl, rfl⟩ := hcalls
  obtain rfl : v₁ = allocPageMemory := hfirst
  obtain rfl : v₂ = allocPageMemory + 0x2000 := hsecond
  have hcount : pteCount = 262144 := rfl
  -- the two tables are the first blocks of the allocator
  have hrun₁ : AllocatorRun PageCall.InWindow clearMachine mm₁ [⟨0, 2, 0⟩] :=
    Run.snoc Run.refl (.alloc 0 2) ⟨by omega, l₁, _, mm₁, h₁, by omega⟩
      (PageStep.alloc _ mm₁ [] 0 2 0 l₁ allocPageMemory h₁)
  have hrun₂ : AllocatorRun PageCall.InWindow clearMachine mm₂ [⟨2, 2, 0⟩, ⟨0, 2, 0⟩] :=
    Run.snoc hrun₁ (.alloc 0 2) ⟨by omega, l₂, _, mm₂, h₂, by omega⟩
      (PageStep.alloc mm₁ mm₂ _ 0 2 0 l₂ (allocPageMemory + 0x2000) h₂)
  have hmalloc := h₃
  rw [malloc_syscall_eq, Option.bind_eq_some_iff] at hmalloc
  obtain ⟨⟨granted, v, mm⟩, halloc, hs⟩ := hmalloc
  obtain ⟨rfl, rfl⟩ := Prod.mk.inj (Option.some.inj hs)
  refine ⟨⟨mm₂, fun _ _ => ⟨0, 0, 0⟩, fun thread => if thread = 1 then allocPageMemory else
    allocPageMemory + 0x2000, []⟩, _, s', ⟨⟨_, hrun₂⟩, fun _ _ _ _ => rfl, ?_, ?_⟩, ?_,
    fun i => ?_, h₄⟩
  · intro thread hthread
    rcases List.mem_pair.mp hthread with rfl | rfl
    · exact ⟨⟨0, 2, 0⟩, by simp, rfl⟩
    · exact ⟨⟨2, 2, 0⟩, by simp, rfl⟩
  · intro thread hthread other hother haddr
    rcases List.mem_pair.mp hthread with rfl | rfl <;> rcases List.mem_pair.mp hother with rfl | rfl
    · rfl
    · exact absurd haddr (by simp)
    · exact absurd haddr (by simp)
    · rfl
  · refine Run.snoc Run.refl (.malloc 1 0x1000 0) ⟨by simp, fun _ => rfl, fun _ => ⟨?_, ?_⟩⟩ ?_
    · exact ⟨0, by decide, rfl⟩
    · exact ⟨granted, _, mm, halloc, by decide⟩
    · exact PoolStep.malloc _ _ [] 1 0x1000 0 _ h₃
  · have hother := malloc_syscall_other h₃ (show 2 ≠ 1 by decide)
    exact congrArg (fun m : Nat → PoolSyscall => (m i).ptr) hother

/-- The accounts in that run: the exit of thread 1 releases the page once. -/
theorem pool_accounting_one_page :
    ∃ s s', exitPools [1] s = some s' ∧ s'.freed.count (Block.mk 4 1 1).addr = 1 := by
  obtain ⟨start, s, -, hcreated, hrun, -, -⟩ := foreign_free_run
  obtain ⟨-, hexit⟩ := pool_accounting [1, 2] _ start s _ hcreated hrun
  obtain ⟨s', live, hreturns, -, hcounts⟩ := hexit [1] (List.nodup_singleton 1) (by simp)
  refine ⟨s, s', hreturns, ?_⟩
  have hcount := (hcounts _ (List.mem_singleton_self _)).1
  simpa using hcount

/-- Thread 2 releases a page that thread 1 holds and that its own table does not record. -/
theorem free_syscall_foreign_block :
    ∃ threads kernel start s obtained s' thread rdi, Created threads kernel start ∧
      PoolRun threads start s obtained ∧ thread ∈ threads ∧
      freeSyscall thread rdi s = some s' ∧ s'.freed = s.freed ++ [rdi] ∧
      ¬ Recorded s thread rdi ∧ Holds obtained 1 rdi ∧ thread ≠ 1 := by
  obtain ⟨start, s, s', hcreated, hrun, hempty, hfree⟩ := foreign_free_run
  have hnonzero := block_addr_ne_zero (Block.mk 4 1 1)
  refine ⟨_, _, start, s, _, s', 2, _, hcreated, hrun, by simp, hfree,
    free_syscall_freed hnonzero hfree, ?_, ⟨_, List.mem_singleton_self _, rfl, rfl⟩, by decide⟩
  rintro ⟨i, -, hptr⟩
  exact hnonzero (hptr.symm.trans (hempty i))

end Sirius.Process
