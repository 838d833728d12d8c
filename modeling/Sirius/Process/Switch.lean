import Sirius.Process.Thread

/-!
# The two schedulers

`task_switch` runs on the timer interrupt of the first CPU, `task_switch2` on that of the second.
Both walk the ready queue; a thread whose `prv` carries 0x80 belongs to the second CPU. The
interrupt entry has put the registers of the interrupted thread into `context` or `context2` and
continues with what the function leaves there.
-/

namespace Sirius.Process

open Library

/-- Save the registers of a CPU in a thread. -/
def Thread.saveContext (t : Thread) (c : Context) : Thread :=
  { t with
    rax := c.rax
    rbx := c.rbx
    rcx := c.rcx
    rdx := c.rdx
    rdi := c.rdi
    rsi := c.rsi
    rbp := c.rbp
    rsp := c.rsp
    rip := c.rip
    r8 := c.r8
    r9 := c.r9
    r10 := c.r10
    r11 := c.r11
    r12 := c.r12
    r13 := c.r13
    r14 := c.r14
    r15 := c.r15
    cs := c.cs
    ds := c.ds
    es := c.es
    fs := c.fs
    gs := c.gs
    ss := c.ss
    rflag := c.rflag
    cr3 := c.cr3
    fxsave := c.fxsave }

/-- The registers a CPU gets from a thread. -/
def Thread.restoreContext (t : Thread) : Context where
  rax := t.rax
  rbx := t.rbx
  rcx := t.rcx
  rdx := t.rdx
  rdi := t.rdi
  rsi := t.rsi
  rbp := t.rbp
  rsp := t.rsp
  rip := t.rip
  r8 := t.r8
  r9 := t.r9
  r10 := t.r10
  r11 := t.r11
  r12 := t.r12
  r13 := t.r13
  r14 := t.r14
  r15 := t.r15
  cs := t.cs
  ds := t.ds
  es := t.es
  fs := t.fs
  gs := t.gs
  ss := t.ss
  rflag := t.rflag
  cr3 := t.cr3
  fxsave := t.fxsave

@[simp] theorem restore_save_context (t : Thread) (c : Context) :
    (t.saveContext c).restoreContext = c := rfl

/-- The thread belongs to the second CPU. -/
def Thread.second (t : Thread) : Bool := t.prv &&& 0x80#64 ≠ 0#64

/-- The thread waits or is a zombie. -/
def Thread.stopped (t : Thread) : Bool :=
  t.status &&& threadZumbi ≠ 0#64 ∨ t.status &&& threadWait ≠ 0#64

/-- The threads `task_switch` does not skip. -/
def Thread.runs (t : Thread) : Bool := !t.second && !t.stopped

/-- The threads `task_switch2` looks for. -/
def Thread.runs2 (t : Thread) : Bool := t.second && !t.stopped

/-- `task_switch` -/
def taskSwitch (n : Nat) (s : Tasks) : Option Tasks := do
  let current ← s.heap s.currentThread
  let heap := setThread s.heap s.currentThread (current.saveContext s.context)
  let p ← searchQueue heap Thread.runs n current.next
  -- at the end of the list the queue starts again
  let p := if p = 0 then s.threadReadyQueue else p
  let t ← heap p
  pure { s with
    heap := heap
    currentThread := p
    context := t.restoreContext
    contextPid := t.pid }

/-- The thread `task_switch` continues with: the first one behind the current thread that runs, or
the head of the queue. -/
def Tasks.nextTurn (s : Tasks) (behind : List Nat) : Nat :=
  (behind.find? fun a => (s.heap a).any Thread.runs).getD s.threadReadyQueue

/-- What `task_switch` does with a ready queue that holds the current thread: it saves the registers
there and continues with the thread whose turn it is. -/
theorem task_switch_selects {s : Tasks} {l₁ l₂ : List Nat}
    (hqueue : Queue s.heap s.threadReadyQueue (l₁ ++ s.currentThread :: l₂)) :
    ∃ t u, s.heap s.currentThread = some t ∧
      setThread s.heap s.currentThread (t.saveContext s.context) (s.nextTurn l₂) = some u ∧
      ∀ n, l₂.length ≤ n → taskSwitch n s = some { s with
        heap := setThread s.heap s.currentThread (t.saveContext s.context)
        currentThread := s.nextTurn l₂
        context := u.restoreContext
        contextPid := u.pid } := by
  have hmem : s.currentThread ∈ l₁ ++ s.currentThread :: l₂ := by simp
  obtain ⟨t, ht⟩ := hqueue.allocated _ hmem
  have hnext : ∀ a, (setThread s.heap s.currentThread (t.saveContext s.context) a).map Thread.next =
      (s.heap a).map Thread.next := set_thread_field Thread.next ht rfl
  have hruns : ∀ a, (setThread s.heap s.currentThread (t.saveContext s.context) a).any Thread.runs =
      (s.heap a).any Thread.runs := set_thread_test Thread.runs ht rfl
  have hsaved : Queue (setThread s.heap s.currentThread (t.saveContext s.context))
      s.threadReadyQueue (l₁ ++ s.currentThread :: l₂) := hqueue.congr fun a _ => hnext a
  have hbehind : Queue (setThread s.heap s.currentThread (t.saveContext s.context))
      (t.saveContext s.context).next l₂ := hsaved.behind (set_thread_self ..)
  rw [show (t.saveContext s.context).next = t.next from rfl] at hbehind
  have hturn : s.nextTurn l₂ ∈ l₁ ++ s.currentThread :: l₂ := by
    rw [Tasks.nextTurn]
    cases hfind : l₂.find? fun a => (s.heap a).any Thread.runs with
    | none => exact hqueue.head_mem hmem
    | some p =>
        have hp : p ∈ l₂ := List.mem_of_find?_eq_some hfind
        simp [hp]
  obtain ⟨u, hu⟩ := hsaved.allocated _ hturn
  refine ⟨t, u, ht, hu, fun n hn => ?_⟩
  have hsearch := hbehind.search_eq Thread.runs hn
  simp only [hruns] at hsearch
  -- at the end of the list the search has found nothing
  have hpick : (if (l₂.find? fun a => (s.heap a).any Thread.runs).getD 0 = 0 then s.threadReadyQueue
      else (l₂.find? fun a => (s.heap a).any Thread.runs).getD 0) = s.nextTurn l₂ := by
    rw [Tasks.nextTurn]
    cases hfind : l₂.find? fun a => (s.heap a).any Thread.runs with
    | none => rfl
    | some p => exact if_neg (hbehind.ne_zero p (List.mem_of_find?_eq_some hfind))
  simp only [taskSwitch, ht, Option.bind_eq_bind, Option.bind_some, searchQueue, hsearch, hpick, hu]
  rfl

/-- The thread that `task_switch` continues with is the head of the queue or runs. -/
theorem task_switch_spec {s : Tasks} {l : List Nat} (hqueue : Queue s.heap s.threadReadyQueue l)
    (hcurrent : s.currentThread ∈ l) :
    ∃ t p u, s.heap s.currentThread = some t ∧
      setThread s.heap s.currentThread (t.saveContext s.context) p = some u ∧ p ∈ l ∧
      (p = s.threadReadyQueue ∨ u.runs = true) ∧
      ∀ n, l.length ≤ n → taskSwitch n s = some { s with
        heap := setThread s.heap s.currentThread (t.saveContext s.context)
        currentThread := p
        context := u.restoreContext
        contextPid := u.pid } := by
  obtain ⟨l₁, l₂, hl⟩ := List.append_of_mem hcurrent
  obtain ⟨t, u, ht, hu, hcall⟩ := task_switch_selects (hl ▸ hqueue)
  have hruns := set_thread_test Thread.runs ht (u := t.saveContext s.context) rfl (s.nextTurn l₂)
  rw [hu, Option.any_some] at hruns
  refine ⟨t, s.nextTurn l₂, u, ht, hu, ?_, ?_, fun n hn => hcall n ?_⟩
  · rw [Tasks.nextTurn]
    cases hfind : l₂.find? fun a => (s.heap a).any Thread.runs with
    | none => exact hqueue.head_mem hcurrent
    | some p =>
        have hp : p ∈ l₂ := List.mem_of_find?_eq_some hfind
        simp [hl, hp]
  · rw [hruns, Tasks.nextTurn]
    cases hfind : l₂.find? fun a => (s.heap a).any Thread.runs with
    | none => exact .inl rfl
    | some p =>
        have hfound := List.find?_some hfind
        exact .inr hfound
  · rw [hl, List.length_append, List.length_cons] at hn
    omega

/-- The part of `task_switch2` from the label on: restore the registers of the thread at `p`. -/
def restore2 (p : Nat) (s : Tasks) : Option Tasks := do
  let t ← s.heap p
  pure { s with context2 := t.restoreContext, context2Pid := t.pid }

/-- The two rounds of the search: from `p` to the end of the queue, then the whole queue. -/
def search2 (n p : Nat) (s : Tasks) : Option Nat := do
  let q ← searchQueue s.heap Thread.runs2 n p
  if q = 0 then searchQueue s.heap Thread.runs2 n s.threadReadyQueue else pure q

/-- The part of `task_switch2` from `__no` on. The function returns without a change when both
rounds of the search fail. -/
def select2 (n : Nat) (s : Tasks) : Option Tasks := do
  let current ← s.heap s.currentThread2
  let p ← search2 n current.next s
  if p = 0 then pure s
  else restore2 p { s with currentThread2 := p, firstThread2 := 1 }

/-- `task_switch2` -/
def taskSwitch2 (n : Nat) (s : Tasks) : Option Tasks :=
  if s.firstThread2 = 0 then select2 n s
  else do
    let current ← s.heap s.currentThread2
    let s := { s with
      heap := setThread s.heap s.currentThread2 (current.saveContext s.context2) }
    if s.threadz ≠ 0 then restore2 s.currentThread2 s else select2 n s

end Sirius.Process
