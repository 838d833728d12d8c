import Sirius.Memory.PageInvariant

/-!
# The memory pool of a process

`malloc_syscall` and `free_syscall` of `kernel/syscall.c`. Every `THREAD` has a table of
`POOL_COUNT` entries in which the kernel records the blocks it allocated for the thread, and
`user_free` of `kernel/exit.c` releases what the table records when the thread leaves. The state
also carries the addresses that were passed to `free_pages`, oldest first; no function reads them.
-/

namespace Sirius.Process

open Library Memory

/-- `POOL_SYSCALL` -/
structure PoolSyscall where
  ptr : Nat
  size : Nat
  flag : Nat
  deriving DecidableEq, Repr

/-- `POOL_COUNT` -/
def poolCount : Nat := 512

/-- The page allocator, the tables of all threads with their addresses, and the addresses passed to
`free_pages` so far. -/
structure Pools where
  mm : Mm
  pool : Nat → Nat → PoolSyscall
  poolAddr : Nat → Nat
  freed : List Nat

/-- `free_pages` -/
def releasePages (addr : Nat) (s : Pools) : Option Pools := do
  let mm ← freePages addr s.mm
  pure { s with mm := mm, freed := s.freed ++ [addr] }

/-- The loop over the table in both calls: the first entry with the address `ptr`, from entry `i`
on, is replaced. -/
def replaceFirst (ptr : Nat) (entry : PoolSyscall) :
    (n i : Nat) → (Nat → PoolSyscall) → (Nat → PoolSyscall)
  | 0, _, m => m
  | n + 1, i, m =>
      if (m i).ptr = ptr then Function.update m i entry
      else replaceFirst ptr entry n (i + 1) m

/-- The loop of `__malloc_syscall`: the first entry without a block. -/
def recordLoop (addr size : Nat) (m : Nat → PoolSyscall) : Nat → PoolSyscall :=
  replaceFirst 0 ⟨addr, size, 0⟩ poolCount 0 m

/-- The loop of `__free_syscall`: the first entry with the address. -/
def forgetLoop (ptr : Nat) (m : Nat → PoolSyscall) : Nat → PoolSyscall :=
  replaceFirst ptr ⟨0, 0, 0⟩ poolCount 0 m

/-- `__malloc_syscall`; `stack` is what the variable `addr` holds before `alloc_pages` stores the
address. `none` if `alloc_pages` does not return. -/
def threadMallocSyscall (thread size stack : Nat) (s : Pools) : Option (Nat × Pools) := do
  let len := size / 0x1000 + if size % 0x1000 ≠ 0 then 1 else 0
  let (_, addr, mm) ← allocPages 1 len stack s.mm
  pure (addr, { s with
    mm := mm
    pool := Function.update s.pool thread (recordLoop addr size (s.pool thread)) })

/-- `malloc_syscall` of the current thread. The size is cut to an `unsigned`. -/
def mallocSyscall (thread rdi stack : Nat) (s : Pools) : Option (Nat × Pools) :=
  threadMallocSyscall thread (rdi % 2 ^ 32) stack s

/-- `__free_syscall`. The pages are released before the table is searched. -/
def threadFreeSyscall (thread ptr : Nat) (s : Pools) : Option Pools :=
  if ptr = 0 then some s
  else do
    let s ← releasePages ptr s
    pure { s with
      pool := Function.update s.pool thread (forgetLoop ptr (s.pool thread)) }

/-- `free_syscall` of the current thread. -/
def freeSyscall (thread rdi : Nat) (s : Pools) : Option Pools := threadFreeSyscall thread rdi s

/-- The loop of `user_free`. -/
def userFreeLoop (m : Nat → PoolSyscall) : (n i : Nat) → Pools → Option Pools
  | 0, _, s => some s
  | n + 1, i, s =>
      if (m i).ptr ≠ 0 then
        match releasePages (m i).ptr s with
        | none => none
        | some s => userFreeLoop m n (i + 1) s
      else userFreeLoop m n (i + 1) s

/-- `user_free`: the blocks in the table and then the table itself. -/
def userFree (thread : Nat) (s : Pools) : Option Pools := do
  let s ← userFreeLoop (s.pool thread) poolCount 0 s
  releasePages (s.poolAddr thread) s

/-- The release of the pools in `exit`, for the thread and the threads along its `tail` pointers. -/
def exitPools : (threads : List Nat) → Pools → Option Pools
  | [], s => some s
  | tmp :: tail, s =>
      match userFree tmp s with
      | none => none
      | some s => exitPools tail s

end Sirius.Process
