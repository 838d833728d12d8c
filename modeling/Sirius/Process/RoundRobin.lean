import Sirius.Library.Rotation
import Sirius.Library.Runs
import Sirius.Process.Switch

/-!
# task_switch takes the threads in turn

While the ready queue does not change, the calls of `task_switch` go through the head of the queue
and the other threads that run on the first CPU, in the order of the queue. The head has its turn
whatever its status is, because the search falls back to it.
-/

namespace Sirius.Process

open Library

/-- The threads that have a turn: the head of the queue and those behind it that run. -/
def turns (heap : Nat → Option Thread) (head : Nat) (rest : List Nat) : List Nat :=
  head :: rest.filter fun a => (heap a).any Thread.runs

/-- The ready queue, the current thread and which threads run are the same in both states. All else
may have changed. -/
structure SameQueue (s s' : Tasks) : Prop where
  ready : s'.threadReadyQueue = s.threadReadyQueue
  current : s'.currentThread = s.currentThread
  next : ∀ a, (s'.heap a).map Thread.next = (s.heap a).map Thread.next
  runs : ∀ a, (s'.heap a).any Thread.runs = (s.heap a).any Thread.runs

variable {s s' : Tasks} {head p : Nat} {rest l₁ l₂ : List Nat}

/-- Behind a thread that has a turn, the next one to have a turn is the one `task_switch` finds. -/
theorem next_turn_eq
    (hturns : turns s.heap head rest = l₁ ++ p :: l₂) (hready : s.threadReadyQueue = head) :
    ∃ before behind, head :: rest = before ++ p :: behind ∧ s.nextTurn behind = l₂.head?.getD head := by
  cases l₁ with
  | nil =>
      -- the head of the queue: the rest of the queue is behind it
      rw [turns, List.nil_append, List.cons.injEq] at hturns
      refine ⟨[], rest, by rw [hturns.1, List.nil_append], ?_⟩
      rw [← hturns.2, List.head?_filter, Tasks.nextTurn, hready]
  | cons c l₁ =>
      rw [turns, List.cons_append, List.cons.injEq] at hturns
      obtain ⟨-, hfilter⟩ := hturns
      obtain ⟨r₁, r₂, hrest, hr₁, hr₂⟩ := List.filter_eq_append_iff.mp hfilter
      obtain ⟨r₃, behind, hr, hskip, hp, hl₂⟩ := List.filter_eq_cons_iff.mp hr₂
      refine ⟨head :: (r₁ ++ r₃), behind, by rw [hrest, hr]; simp, ?_⟩
      rw [← hl₂, List.head?_filter, Tasks.nextTurn, hready]

/-- A call of `task_switch` returns, takes the next turn and leaves the queue as it is. -/
theorem task_switch_turn (hqueue : Queue s.heap s.threadReadyQueue (l₁ ++ s.currentThread :: l₂)) :
    ∃ s', Returns (fun n => taskSwitch n s) s' ∧ s'.currentThread = s.nextTurn l₂ ∧
      s'.threadReadyQueue = s.threadReadyQueue ∧
      (∀ a, (s'.heap a).map Thread.next = (s.heap a).map Thread.next) ∧
      ∀ a, (s'.heap a).any Thread.runs = (s.heap a).any Thread.runs := by
  obtain ⟨t, u, ht, -, hcall⟩ := task_switch_selects hqueue
  exact ⟨_, ⟨l₂.length, hcall⟩, rfl, rfl, set_thread_field Thread.next ht rfl,
    set_thread_test Thread.runs ht rfl⟩

/-- The queue of the state `s₀` with some current thread in it. -/
structure SameTurns (s₀ s : Tasks) (l : List Nat) : Prop where
  queue : Queue s.heap s.threadReadyQueue l
  mem : s.currentThread ∈ l
  ready : s.threadReadyQueue = s₀.threadReadyQueue
  runs : ∀ a, (s.heap a).any Thread.runs = (s₀.heap a).any Thread.runs

/-- A call and what happens until the next one leave the queue as it is. -/
theorem SameTurns.step {s₀ s'' : Tasks} {l : List Nat} (h : SameTurns s₀ s l)
    (hcall : Returns (fun n => taskSwitch n s) s') (hsame : SameQueue s' s'') :
    SameTurns s₀ s'' l := by
  obtain ⟨l₁, l₂, rfl⟩ := List.append_of_mem h.mem
  obtain ⟨u, hreturns, hturn, hready, hnext, hruns⟩ := task_switch_turn h.queue
  obtain rfl := hcall.unique hreturns
  have hqueue : Queue s''.heap s''.threadReadyQueue (l₁ ++ s.currentThread :: l₂) := by
    rw [hsame.ready, hready]
    exact h.queue.congr fun a _ => (hsame.next a).trans (hnext a)
  refine ⟨hqueue, ?_, hsame.ready.trans (hready.trans h.ready), fun a => ?_⟩
  · rw [hsame.current, hturn, Tasks.nextTurn]
    cases hfind : l₂.find? fun a => (s.heap a).any Thread.runs with
    | none => exact h.queue.head_mem h.mem
    | some p =>
        have hp : p ∈ l₂ := List.mem_of_find?_eq_some hfind
        simp [hp]
  · exact (hsame.runs a).trans ((hruns a).trans (h.runs a))

/-- Between calls that leave the queue as it is, all states have the same turns. -/
theorem same_turns {s : Nat → Tasks} {l : List Nat} (hqueue : Queue (s 0).heap (s 0).threadReadyQueue l)
    (hmem : (s 0).currentThread ∈ l)
    (hcalls : ∀ k s', Returns (fun n => taskSwitch n (s k)) s' → SameQueue s' (s (k + 1))) (k : Nat) :
    SameTurns (s 0) (s k) l := by
  induction k with
  | zero => exact ⟨hqueue, hmem, rfl, fun _ => rfl⟩
  | succ k ih =>
      obtain ⟨l₁, l₂, rfl⟩ := List.append_of_mem ih.mem
      obtain ⟨s', hreturns, -⟩ := task_switch_turn ih.queue
      exact ih.step hreturns (hcalls k s' hreturns)

/-- The turns of a queue are different threads of it. -/
theorem turns_nodup (heap : Nat → Option Thread) (h : (head :: rest).Nodup) :
    (turns heap head rest).Nodup :=
  h.sublist (List.Sublist.cons_cons head List.filter_sublist)

/-- The calls of `task_switch` on a queue that does not change take the threads of the first CPU in
turn, starting with the head. -/
theorem task_switch_rotates {s : Nat → Tasks}
    (hqueue : Queue (s 0).heap (s 0).threadReadyQueue (head :: rest))
    (hstart : (s 0).currentThread = (s 0).threadReadyQueue)
    (hcalls : ∀ k s', Returns (fun n => taskSwitch n (s k)) s' → SameQueue s' (s (k + 1))) :
    Rotates (fun k => (s k).currentThread) (turns (s 0).heap head rest) := by
  have hhead : (s 0).threadReadyQueue = head := hqueue.1
  have hmem : (s 0).currentThread ∈ head :: rest := by
    rw [hstart, hhead]
    exact List.mem_cons_self
  refine rotates_of_step (hstart.trans hhead) fun k l₁ l₂ hsplit _ => ?_
  have hkept := same_turns hqueue hmem hcalls k
  have hturns : turns (s k).heap head rest = l₁ ++ (s k).currentThread :: l₂ := by
    simp only [turns, hkept.runs]
    exact hsplit
  obtain ⟨before, behind, hl, hnext⟩ := next_turn_eq hturns (hkept.ready.trans hhead)
  obtain ⟨s', hreturns, hturn, -⟩ := task_switch_turn (hl ▸ hkept.queue)
  exact (hcalls k s' hreturns).current.trans (hturn.trans hnext)

/-- While the ready queue does not change, the calls of `task_switch` return, and they go through the
head and the other threads that run on the first CPU again and again. Between two turns of a thread
every other one has exactly one turn. -/
theorem round_robin (s : Nat → Tasks) (head : Nat) (rest : List Nat)
    (hqueue : Queue (s 0).heap (s 0).threadReadyQueue (head :: rest))
    (hstart : (s 0).currentThread = (s 0).threadReadyQueue)
    (hcalls : ∀ k s', Returns (fun n => taskSwitch n (s k)) s' → SameQueue s' (s (k + 1))) :
    (∀ k, ∃ s', Returns (fun n => taskSwitch n (s k)) s' ∧
      (turns (s 0).heap head rest)[(k + 1) % (turns (s 0).heap head rest).length]? =
        some s'.currentThread) ∧
    ∀ p ∈ turns (s 0).heap head rest, ∀ i j, i < j → (s i).currentThread = p →
      (s j).currentThread = p → (∀ m, i < m → m < j → (s m).currentThread ≠ p) →
      ∀ q ∈ turns (s 0).heap head rest, q ≠ p → ∃! m, i < m ∧ m < j ∧ (s m).currentThread = q := by
  have hrotates := task_switch_rotates hqueue hstart hcalls
  have hnodup := turns_nodup (s 0).heap hqueue.nodup
  constructor
  · intro k
    have hmem : (s 0).currentThread ∈ head :: rest := by
      rw [hstart]
      exact hqueue.1 ▸ List.mem_cons_self
    have hkept := same_turns hqueue hmem hcalls k
    obtain ⟨l₁, l₂, hl⟩ := List.append_of_mem hkept.mem
    obtain ⟨s', hreturns, -⟩ := task_switch_turn (hl ▸ hkept.queue)
    refine ⟨s', hreturns, ?_⟩
    rw [← (hcalls k s' hreturns).current]
    exact hrotates (k + 1)
  · intro p _ i j hij hi hj hbetween q hq hne
    exact hrotates.once_between hnodup hij hi hj hbetween hq hne

/-- A queue of the head, a thread that waits and a thread that runs: the third thread and the head
take turns. -/
theorem round_robin_three_threads :
    let boot := kernelThread (emptyResources 1) 0#64
    ∃ s : Nat → Tasks, (s 0).heap 2 = some { boot with status := threadWait, next := 3 } ∧
      (∃ s', Returns (fun n => taskSwitch n (s 0)) s' ∧ s'.currentThread = 3) ∧
      ∃ s', Returns (fun n => taskSwitch n (s 1)) s' ∧ s'.currentThread = 1 := by
  intro boot
  let start : Tasks := { zeroTasks with
    heap := fun p => if p = 1 then some { boot with next := 2 }
      else if p = 2 then some { boot with status := threadWait, next := 3 }
      else if p = 3 then some boot else none
    threadReadyQueue := 1
    currentThread := 1 }
  have hqueue : Queue start.heap start.threadReadyQueue [1, 2, 3] :=
    ⟨rfl, by decide, _, rfl, rfl, by decide, _, rfl, rfl, by decide, _, rfl, rfl⟩
  -- every call starts in the state that the last one has left
  let after : Tasks → Tasks := fun s =>
    open Classical in if h : ∃ s', Returns (fun n => taskSwitch n s) s' then h.choose else s
  have hcalls : ∀ k s', Returns (fun n => taskSwitch n (after^[k] start)) s' →
      SameQueue s' (after^[k + 1] start) := by
    intro k s' hreturns
    have hafter : after^[k + 1] start = s' := by
      have hexists : ∃ s', Returns (fun n => taskSwitch n (after^[k] start)) s' := ⟨s', hreturns⟩
      rw [Function.iterate_succ_apply']
      simp only [after, dif_pos hexists]
      exact hexists.choose_spec.unique hreturns
    rw [hafter]
    exact ⟨rfl, rfl, fun _ => rfl, fun _ => rfl⟩
  obtain ⟨hturn, -⟩ := round_robin (fun k => after^[k] start) 1 [2, 3] hqueue rfl hcalls
  have hturns : turns start.heap 1 [2, 3] = [1, 3] := by
    simp [turns, start, boot, kernelThread, newThread, Thread.runs, Thread.second, Thread.stopped,
      threadWait, threadZumbi]
  refine ⟨fun k => after^[k] start, rfl, ?_, ?_⟩
  · obtain ⟨s', hreturns, hget⟩ := hturn 0
    rw [show (after^[0] start).heap = start.heap from rfl, hturns] at hget
    exact ⟨s', hreturns, (Option.some.inj hget).symm⟩
  · obtain ⟨s', hreturns, hget⟩ := hturn 1
    rw [show (after^[0] start).heap = start.heap from rfl, hturns] at hget
    exact ⟨s', hreturns, (Option.some.inj hget).symm⟩

end Sirius.Process
