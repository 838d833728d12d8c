import Sirius.Library.Bytes
import Sirius.Library.Cells

/-!
# Threads and the ready queue

The `THREAD` record, the globals of `kernel/thread.c` and the three functions that create a thread.
Threads live in memory that `alloc_pages` hands out, so they are cells of a heap: `none` stands for
an address that holds no `THREAD`, among them every freed one. The ready queue is the list that
starts at `thread_ready_queue` and is linked with `next`; new threads go to its end.

A thread created by `create_thread` is a father: it carries the flag 0x20 and its `head` is itself.
The `head` of the others is the thread that created them, whose `tail` points to the last one.
-/

namespace Sirius.Process

open Library

/-- The registers that a switch saves and restores. -/
structure Context where
  (rax rbx rcx rdx rdi rsi rbp rsp rip : BitVec 64)
  (r8 r9 r10 r11 r12 r13 r14 r15 : BitVec 64)
  (cs ds es fs gs ss : BitVec 64)
  (rflag cr3 : BitVec 64)
  fxsave : Fin 512 → Byte

/-- `THREAD`. The pointers `head`, `next` and `tail` are addresses of threads. -/
structure Thread extends Context where
  (pid prv status : BitVec 64)
  (stdin stdout stderr pipe mouse : BitVec 64)
  (window id pool waitPid : BitVec 64)
  (head next tail : Nat)

/-- `THREAD_ZUMBI` -/
def threadZumbi : BitVec 64 := 1#64

/-- `THREAD_WAIT` -/
def threadWait : BitVec 64 := 2#64

/-- The heap of threads and the globals of `thread.c`. -/
structure Tasks where
  heap : Nat → Option Thread
  threadReadyQueue : Nat
  currentThread : Nat
  currentThread2 : Nat
  firstThread2 : Nat
  threadz : Nat
  nextPid : BitVec 64
  threadId : BitVec 64
  context : Context
  contextPid : BitVec 64
  context2 : Context
  context2Pid : BitVec 64

/-- The globals of the loaded kernel before any thread exists. -/
def zeroTasks : Tasks :=
  let c : Context := ⟨0, 0, 0, 0, 0, 0, 0, 0, 0, 0, 0, 0, 0, 0, 0, 0, 0, 0, 0, 0, 0, 0, 0, 0, 0,
    fun _ => 0#8⟩
  ⟨fun _ => none, 0, 0, 0, 0, 0, 0, 0, c, 0, c, 0⟩

/-- The links of the ready queue. -/
abbrev Queue : (Nat → Option Thread) → Nat → List Nat → Prop := Cells Thread.next

/-- The loop that walks the ready queue up to the first thread with a property. -/
abbrev searchQueue : (Nat → Option Thread) → (Thread → Bool) → (n p : Nat) → Option Nat :=
  search Thread.next

/-- Write one thread. -/
def setThread (heap : Nat → Option Thread) (p : Nat) (t : Thread) : Nat → Option Thread :=
  Function.update heap p (some t)

@[simp] theorem set_thread_self (heap : Nat → Option Thread) (p : Nat) (t : Thread) :
    setThread heap p t p = some t := Function.update_self ..

theorem set_thread_other {heap : Nat → Option Thread} {p a : Nat} (t : Thread) (h : a ≠ p) :
    setThread heap p t a = heap a := Function.update_of_ne h ..

/-- Replacing a thread by one with the same value of a field keeps the field everywhere. -/
theorem set_thread_field {β : Type} (field : Thread → β) {heap : Nat → Option Thread} {p : Nat}
    {t u : Thread} (hp : heap p = some t) (hfield : field u = field t) (a : Nat) :
    (setThread heap p u a).map field = (heap a).map field := by
  by_cases heq : a = p
  · subst heq
    simp [hp, hfield]
  · rw [set_thread_other u heq]

/-- The same for a test of the threads. -/
theorem set_thread_test (test : Thread → Bool) {heap : Nat → Option Thread} {p : Nat}
    {t u : Thread} (hp : heap p = some t) (htest : test u = test t) (a : Nat) :
    (setThread heap p u a).any test = (heap a).any test := by
  by_cases heq : a = p
  · subst heq
    simp [hp, htest]
  · rw [set_thread_other u heq]

/-! ### Creation -/

/-- What the create functions get from elsewhere: the addresses of the thread and of its pool, the
initial `fxsave` area and, for a father, its streams, its mouse and its window. -/
structure Resources where
  v : Nat
  fxsave : Fin 512 → Byte
  (stdin stdout stderr pipe mouse : BitVec 64)
  (window pool : BitVec 64)

/-- Only an address, for examples. -/
def emptyResources (v : Nat) : Resources := ⟨v, fun _ => 0#8, 0, 0, 0, 0, 0, 0, 0⟩

/-- The part the create functions share: a zeroed thread with the initial stack, code and segments.
Bit 0 of `pv` selects user space. -/
def newThread (pid : BitVec 64) (r : Resources) (main rsp : BitVec 64) (pv : BitVec 32) : Thread where
  rax := 0#64
  rbx := 0#64
  rcx := 0#64
  rdx := 0#64
  rdi := 0#64
  rsi := 0#64
  rbp := 0#64
  rsp := rsp
  rip := main
  r8 := 0#64
  r9 := 0#64
  r10 := 0#64
  r11 := 0#64
  r12 := 0#64
  r13 := 0#64
  r14 := 0#64
  r15 := 0#64
  cs := if pv &&& 1#32 = 1#32 then 0x1B#64 else 0x8#64
  ds := 0#64
  es := 0#64
  fs := 0#64
  gs := 0#64
  ss := if pv &&& 1#32 = 1#32 then 0x23#64 else 0x10#64
  rflag := 0x202#64
  cr3 := 0#64
  fxsave := r.fxsave
  pid := pid
  prv := if pv &&& 1#32 = 1#32 then 1#64 else 0#64
  status := 0#64
  stdin := 0#64
  stdout := 0#64
  stderr := 0#64
  pipe := 0#64
  mouse := 0#64
  window := 0#64
  id := 0#64
  pool := 0#64
  waitPid := 0#64
  head := 0
  next := 0
  tail := 0

/-- The registers that hand the streams, the mouse and the arguments to the program. -/
def Thread.arguments (t : Thread) (rbx argc argv pwd : BitVec 64) : Thread :=
  { t with
    rcx := t.stdin
    rdx := t.stdout
    rsi := t.stderr
    rdi := t.window
    rbx := rbx
    r8 := 0#64
    r9 := 0#64
    r10 := t.pipe
    rax := t.mouse
    r11 := argc
    r12 := argv
    r13 := pwd }

/-- The last loop of the create functions: the new thread `t`, written at `v`, becomes the last
thread of the ready queue. -/
def appendThread (n v : Nat) (t : Thread) (s : Tasks) : Option Tasks := do
  let heap := setThread s.heap v t
  let tmp ← searchQueue heap (fun t => t.next == 0) n s.threadReadyQueue
  let last ← heap tmp
  pure { s with heap := setThread heap tmp { last with next := v } }

/-- The new thread ends up behind the last one, and nothing else changes. -/
theorem append_thread_spec {s : Tasks} {l : List Nat} (h : Queue s.heap s.threadReadyQueue l)
    (hne : l ≠ []) {v : Nat} (hv : s.heap v = none) (hzero : v ≠ 0) {t : Thread} (ht : t.next = 0) :
    ∃ heap, (∀ n, l.length ≤ n → appendThread n v t s = some { s with heap := heap }) ∧
      Queue heap s.threadReadyQueue (l ++ [v]) ∧ heap v = some t ∧
      ∀ {β : Type} (field : Thread → β), (∀ t b, field { t with next := b } = field t) →
        ∀ a, a ≠ v → (heap a).map field = (s.heap a).map field := by
  obtain ⟨l₁, q, rfl⟩ := (List.eq_nil_or_concat' l).resolve_left hne
  have hfresh : ∀ a ∈ l₁ ++ [q], a ≠ v := by
    intro a ha heq
    obtain ⟨c, hc⟩ := h.allocated a ha
    rw [heq, hv] at hc
    cases hc
  have hq : q ∈ l₁ ++ [q] := by simp
  obtain ⟨last, hlast⟩ := h.allocated q hq
  -- writing the new thread leaves the queue as it is
  have hwritten : Queue (setThread s.heap v t) s.threadReadyQueue (l₁ ++ [q]) := by
    refine h.congr fun a ha => ?_
    rw [set_thread_other t (hfresh a ha)]
  have hlast' : setThread s.heap v t q = some last := by
    rw [set_thread_other t (hfresh q hq), hlast]
  have hend : last.next = 0 := h.behind hlast
  have hnew : setThread (setThread s.heap v t) q { last with next := v } v = some t := by
    rw [set_thread_other _ (Ne.symm (hfresh q hq)), set_thread_self]
  refine ⟨setThread (setThread s.heap v t) q { last with next := v }, fun n hn => ?_, ?_, hnew,
    fun field hfield a ha => ?_⟩
  · have hzero' : 0 ∉ l₁ ++ [q] := fun hmem => h.ne_zero 0 hmem rfl
    have hsearch := hwritten.search_link hzero' (by rw [hlast', Option.map_some, hend])
      (n := n) (by simp at hn; omega)
    simp only [appendThread, searchQueue, hsearch, hlast', Option.bind_eq_bind, Option.bind_some,
      Option.pure_def]
  · have hnodup := h.nodup
    rw [List.append_assoc]
    refine hwritten.splice (fun a ha => ?_) (by rw [set_thread_self, Option.map_some])
      ⟨rfl, hzero, t, hnew, ht⟩
    have haq : a ≠ q := fun heq => (List.nodup_append.mp hnodup).2.2 a ha q (by simp) heq
    rw [set_thread_other _ haq]
  · rw [set_thread_field field hlast' (hfield last v), set_thread_other t ha]

/-- The record `create_thread` builds: a father. -/
def fatherThread (r : Resources) (main rsp cr3 rbx : BitVec 64) (pv : BitVec 32)
    (argc argv pwd : BitVec 64) (s : Tasks) : Thread :=
  let t := newThread s.nextPid r main rsp pv
  let prv := if pv &&& 0x80#32 = 0x80#32 then t.prv ||| 0x80#64 else t.prv
  let prv := prv ||| 0x20#64
  let prv := if pv &&& 0x10#32 ≠ 0#32 then prv ||| 0x10#64 else prv
  let t := { t with
    cr3 := cr3
    stdin := r.stdin
    stdout := r.stdout
    stderr := r.stderr
    pipe := r.pipe
    mouse := r.mouse
    prv := prv
    window := if pv &&& 0x10#32 ≠ 0#32 then r.window else t.window
    id := if pv &&& 0x10#32 ≠ 0#32 then s.threadId else t.id }
  let t := t.arguments rbx argc argv pwd
  { t with head := r.v, next := 0, tail := 0, waitPid := t.pid, pool := r.pool }

/-- `create_thread` -/
def createThread (n : Nat) (r : Resources) (main rsp cr3 rbx : BitVec 64) (pv : BitVec 32)
    (argc argv pwd : BitVec 64) (s : Tasks) : Option (Nat × Tasks) := do
  let t := fatherThread r main rsp cr3 rbx pv argc argv pwd s
  let s ← appendThread n r.v t { s with nextPid := s.nextPid + 1 }
  pure (r.v, s)

/-- The part of their record that `create_thread_child` and `pthread_create` fill in alike: `t` gets
the streams, the mouse and the window of `thread` at `p`. -/
def childThread (r : Resources) (t : Thread) (rbx argc argv pwd : BitVec 64) (p : Nat)
    (thread : Thread) : Thread :=
  let t := { t with
    stdin := thread.stdin
    stdout := thread.stdout
    stderr := thread.stderr
    pipe := thread.pipe
    mouse := thread.mouse
    window := thread.window }
  let t := t.arguments rbx argc argv pwd
  { t with head := p, next := 0, tail := 0, pool := r.pool }

/-- The rest of both functions: the creator waits for the new thread, which becomes the last thread
of the queue and the `tail` of its creator. -/
def appendChild (n : Nat) (r : Resources) (t : Thread) (p : Nat) (s : Tasks) :
    Option (Nat × Tasks) := do
  let thread ← s.heap p
  let s := { s with
    nextPid := s.nextPid + 1
    heap := setThread s.heap p { thread with waitPid := t.pid } }
  let s ← appendThread n r.v t s
  let thread ← s.heap p
  pure (r.v, { s with heap := setThread s.heap p { thread with tail := r.v } })

/-- `create_thread_child`: a child of the thread at `p`. -/
def createThreadChild (n : Nat) (r : Resources) (main rsp cr3 rbx : BitVec 64) (pv : BitVec 32)
    (argc argv pwd : BitVec 64) (p : Nat) (s : Tasks) : Option (Nat × Tasks) := do
  let thread ← s.heap p
  let t := newThread s.nextPid r main rsp pv
  let prv := if pv &&& 0x80#32 = 0x80#32 then t.prv ||| 0x80#64 else t.prv
  let t := { t with cr3 := cr3, prv := prv }
  appendChild n r (childThread r t rbx argc argv pwd p thread) p s

/-- `pthread_create`: a child that starts as a zombie and shares the page tables of its creator. -/
def pthreadCreate (n : Nat) (r : Resources) (main rsp : BitVec 64) (pv : BitVec 32) (p : Nat)
    (s : Tasks) : Option (Nat × Tasks) := do
  let thread ← s.heap p
  let t := { newThread s.nextPid r main rsp pv with status := threadZumbi, cr3 := thread.cr3 }
  appendChild n r (childThread r t 0#64 0#64 0#64 0#64 p thread) p s

/-- The thread of the kernel itself. -/
def kernelThread (r : Resources) (pml4e : BitVec 64) : Thread :=
  { newThread 0#64 r 0#64 0#64 0#32 with
    cr3 := pml4e
    stdin := r.stdin
    stdout := r.stdout
    stderr := r.stderr
    pipe := r.pipe
    mouse := r.mouse
    pool := r.pool }

/-- `thread_setup`: the kernel thread is the whole ready queue, and current on both CPUs. No other
`THREAD` exists yet. -/
def threadSetup (r : Resources) (pml4e : BitVec 64) (s : Tasks) : Tasks :=
  { s with
    heap := setThread (fun _ => none) r.v (kernelThread r pml4e)
    threadReadyQueue := r.v
    currentThread := r.v
    currentThread2 := r.v
    firstThread2 := 0
    threadz := 0
    nextPid := 1#64 }

/-- `pthread_join` -/
def pthreadJoin (p : Nat) (s : Tasks) : Option Tasks := do
  let thread ← s.heap p
  pure { s with heap := setThread s.heap p { thread with status := thread.status &&& ~~~threadZumbi } }

end Sirius.Process
