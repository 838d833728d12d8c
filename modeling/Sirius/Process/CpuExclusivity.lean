import Sirius.Process.Switch
import Sirius.Library.Runs

/-!
# The two schedulers never run one thread

A run mixes calls of `task_switch` and `task_switch2` with the programs running on the two CPUs,
threads that are appended and threads whose status changes. The ghost map `saved` records for each
thread the registers with which it last left a CPU. `SwitchInv` is the invariant of such runs;
`cpu_exclusivity` says what follows for the state reached and for the next call of each scheduler.
-/

namespace Sirius.Process

open Library

/-- The ready queue is `l`, both current threads are in it, they are on their own sides, and every
thread that is not on a CPU holds the registers it was switched out with. -/
structure SwitchInv (s : Tasks) (saved : Nat → Context) (l : List Nat) : Prop where
  queue : Queue s.heap s.threadReadyQueue l
  head : (s.heap s.threadReadyQueue).map Thread.second = some false
  mem : s.currentThread ∈ l
  current : (s.heap s.currentThread).map Thread.second = some false
  mem2 : s.currentThread2 ∈ l
  current2 : s.firstThread2 ≠ 0 → (s.heap s.currentThread2).map Thread.second = some true
  contexts : ∀ p ∈ l, p ≠ s.currentThread → (s.firstThread2 ≠ 0 → p ≠ s.currentThread2) →
    (s.heap p).map Thread.restoreContext = some (saved p)

/-- The invariant in the middle of `task_switch2`: the registers of the second CPU are saved. -/
structure Saved2 (s : Tasks) (saved : Nat → Context) (l : List Nat) : Prop where
  inv : SwitchInv s saved l
  contexts2 : ∀ p ∈ l, p ≠ s.currentThread → (s.heap p).map Thread.restoreContext = some (saved p)

/-- The threads in the order in which `task_switch2` tries them when `p` is current: the rest of the
queue, then the queue from the start up to `p` itself. -/
def cyclicOrder (l : List Nat) (p : Nat) : List Nat :=
  (l.dropWhile (· != p)).drop 1 ++ l.takeWhile (· != p) ++ [p]

theorem cyclic_order_eq {l₁ l₂ : List Nat} {p : Nat} (h : p ∉ l₁) :
    cyclicOrder (l₁ ++ p :: l₂) p = l₂ ++ l₁ ++ [p] := by
  have hall : ∀ a ∈ l₁, (a != p) = true := by
    intro a ha
    rw [bne_iff_ne]
    intro heq
    exact h (heq ▸ ha)
  unfold cyclicOrder
  rw [List.dropWhile_append_of_pos hall, List.takeWhile_append_of_pos hall]
  simp

section Steps

variable {s : Tasks} {saved : Nat → Context} {l : List Nat}

theorem SwitchInv.ready_queue_mem (h : SwitchInv s saved l) : s.threadReadyQueue ∈ l :=
  h.queue.head_mem h.mem

/-- The CPUs never share their current thread. -/
theorem SwitchInv.exclusive (h : SwitchInv s saved l) (hfirst : s.firstThread2 ≠ 0) :
    s.currentThread ≠ s.currentThread2 := by
  intro heq
  have hcurrent := h.current
  rw [heq, h.current2 hfirst] at hcurrent
  cases hcurrent

/-- A change of the heap that touches neither the links, nor the side of a thread, nor its
registers. -/
theorem SwitchInv.heap_congr (h : SwitchInv s saved l) {heap : Nat → Option Thread}
    (hnext : ∀ a, (heap a).map Thread.next = (s.heap a).map Thread.next)
    (hsecond : ∀ a, (heap a).map Thread.second = (s.heap a).map Thread.second)
    (hcontext : ∀ a, (heap a).map Thread.restoreContext = (s.heap a).map Thread.restoreContext) :
    SwitchInv { s with heap := heap } saved l where
  queue := h.queue.congr fun a _ => hnext a
  head := (hsecond _).trans h.head
  mem := h.mem
  current := (hsecond _).trans h.current
  mem2 := h.mem2
  current2 := fun hfirst => (hsecond _).trans (h.current2 hfirst)
  contexts := fun p hp hne hne2 => (hcontext p).trans (h.contexts p hp hne hne2)

/-- `task_switch` puts a thread of the first CPU on the first CPU, with the registers it was last
switched out with. -/
theorem task_switch_inv (h : SwitchInv s saved l) :
    ∃ s', (∀ n, l.length ≤ n → taskSwitch n s = some s') ∧
      SwitchInv s' (Function.update saved s.currentThread s.context) l ∧
      s'.context = Function.update saved s.currentThread s.context s'.currentThread := by
  obtain ⟨t, p, u, ht, hu, hp, hruns, hcall⟩ := task_switch_spec h.queue h.mem
  let heap := setThread s.heap s.currentThread (t.saveContext s.context)
  have hnext : ∀ a, (heap a).map Thread.next = (s.heap a).map Thread.next :=
    set_thread_field Thread.next ht rfl
  have hsecond : ∀ a, (heap a).map Thread.second = (s.heap a).map Thread.second :=
    set_thread_field Thread.second ht rfl
  have hself : heap s.currentThread = some (t.saveContext s.context) := set_thread_self ..
  have hcell : heap p = some u := hu
  -- the search skips the threads of the second CPU, and the head of the queue is not one of them
  have hpsecond : (heap p).map Thread.second = some false := by
    rcases hruns with hhead | hruns
    · rw [hsecond, hhead, h.head]
    · simp only [Thread.runs, Bool.and_eq_true, Bool.not_eq_true'] at hruns
      rw [hcell, Option.map_some, hruns.1]
  -- every thread off the second CPU holds its registers after the save
  have hsaved : ∀ q ∈ l, (s.firstThread2 ≠ 0 → q ≠ s.currentThread2) →
      (heap q).map Thread.restoreContext =
        some (Function.update saved s.currentThread s.context q) := by
    intro q hq hne2
    by_cases heq : q = s.currentThread
    · rw [heq, hself, Function.update_self]
      rfl
    · rw [Function.update_of_ne heq, show heap q = s.heap q from set_thread_other _ heq]
      exact h.contexts q hq heq hne2
  have hpne : s.firstThread2 ≠ 0 → p ≠ s.currentThread2 := by
    intro hfirst heq
    rw [heq, hsecond, h.current2 hfirst] at hpsecond
    cases hpsecond
  refine ⟨_, hcall, ⟨h.queue.congr fun a _ => hnext a, (hsecond _).trans h.head, hp, hpsecond,
    h.mem2, fun hfirst => (hsecond _).trans (h.current2 hfirst), fun q hq _ => hsaved q hq⟩, ?_⟩
  have hcontext := hsaved p hp hpne
  rw [hcell, Option.map_some] at hcontext
  exact Option.some.inj hcontext

/-- What `task_switch2` selects: the first runnable thread of the second CPU in cyclic order, with
the registers it was last switched out with, or nothing. -/
def Selects2 (s : Tasks) (saved : Nat → Context) (l : List Nat) (s' : Tasks) : Prop :=
  match (cyclicOrder l s.currentThread2).find? fun p => (s.heap p).any Thread.runs2 with
  | some p => s'.currentThread2 = p ∧ s'.firstThread2 = 1 ∧ s'.context2 = saved p
  | none => s'.currentThread2 = s.currentThread2 ∧ s'.firstThread2 = s.firstThread2 ∧
      s'.context2 = s.context2

/-- The selection keeps the invariant. -/
theorem select2_inv (h : Saved2 s saved l) :
    ∃ s', (∀ n, l.length ≤ n → select2 n s = some s') ∧ SwitchInv s' saved l ∧
      Selects2 s saved l s' := by
  obtain ⟨t, ht⟩ := h.inv.queue.allocated _ h.inv.mem2
  obtain ⟨l₁, l₂, hl⟩ := List.append_of_mem h.inv.mem2
  have hbehind : Queue s.heap t.next l₂ := (hl ▸ h.inv.queue).behind ht
  have hnot : s.currentThread2 ∉ l₁ := by
    intro hmem
    have hnodup := h.inv.queue.nodup
    rw [hl] at hnodup
    exact (List.nodup_append.mp hnodup).2.2 _ hmem _ (by simp) rfl
  have hlength : l₂.length ≤ l.length := by
    rw [hl, List.length_append, List.length_cons]
    omega
  -- the two searches together are one search in cyclic order
  have hsearch : ∀ n, l.length ≤ n → search2 n t.next s =
      some (((cyclicOrder l s.currentThread2).find? fun p =>
        (s.heap p).any Thread.runs2).getD 0) := by
    intro n hn
    have hround := hbehind.search_eq Thread.runs2 (show l₂.length ≤ n by omega)
    have hagain := h.inv.queue.search_eq Thread.runs2 hn
    simp only [search2, searchQueue, hround, hagain, Option.bind_eq_bind, Option.bind_some]
    rw [hl, cyclic_order_eq hnot, List.append_assoc, List.find?_append]
    cases hfind : l₂.find? fun p => (s.heap p).any Thread.runs2 with
    | some p =>
        have hp : p ≠ 0 := hbehind.ne_zero p (List.mem_of_find?_eq_some hfind)
        simp [hp, hfind]
    | none =>
        -- behind the current thread the second round repeats the first one in vain
        simp [List.find?_append, List.find?_cons, hfind]
  unfold Selects2
  cases hfind : (cyclicOrder l s.currentThread2).find? fun p => (s.heap p).any Thread.runs2 with
  | none =>
      refine ⟨s, fun n hn => ?_, h.inv, rfl, rfl, rfl⟩
      have hround := hsearch n hn
      rw [hfind] at hround
      simp only [select2, ht, Option.bind_eq_bind, Option.bind_some, hround, Option.getD_none]
      rfl
  | some p =>
      have hp : p ∈ l := by
        have hmem := List.mem_of_find?_eq_some hfind
        rw [hl, cyclic_order_eq hnot] at hmem
        rw [hl]
        simp only [List.mem_append, List.mem_cons, List.not_mem_nil, or_false] at hmem ⊢
        tauto
      have hruns := List.find?_some hfind
      obtain ⟨u, hu⟩ := h.inv.queue.allocated p hp
      have hsecond : (s.heap p).map Thread.second = some true := by
        simp only [hu, Option.any_some, Thread.runs2, Bool.and_eq_true] at hruns
        rw [hu, Option.map_some, hruns.1]
      have hne : p ≠ s.currentThread := by
        intro heq
        rw [heq, h.inv.current] at hsecond
        cases hsecond
      refine ⟨{ s with
        currentThread2 := p
        firstThread2 := 1
        context2 := u.restoreContext
        context2Pid := u.pid }, fun n hn => ?_, ⟨h.inv.queue, h.inv.head, h.inv.mem, h.inv.current,
          hp, fun _ => hsecond, fun q hq hqne _ => h.contexts2 q hq hqne⟩, rfl, rfl, ?_⟩
      · have hround := hsearch n hn
        rw [hfind, Option.getD_some] at hround
        simp only [select2, ht, Option.bind_eq_bind, Option.bind_some, hround,
          if_neg (h.inv.queue.ne_zero p hp), restore2, hu]
        rfl
      · have hcontext := h.contexts2 p hp hne
        rw [hu, Option.map_some] at hcontext
        exact Option.some.inj hcontext

/-- The ghost map after `task_switch2` has saved the registers of the second CPU, which it does once
that CPU has a thread. -/
def Tasks.saveGhost2 (s : Tasks) (saved : Nat → Context) : Nat → Context :=
  if s.firstThread2 = 0 then saved else Function.update saved s.currentThread2 s.context2

/-- `task_switch2` keeps the invariant. It selects a thread unless `threadz` holds the CPU on its
thread. -/
theorem task_switch2_inv (h : SwitchInv s saved l) :
    ∃ s', (∀ n, l.length ≤ n → taskSwitch2 n s = some s') ∧
      SwitchInv s' (s.saveGhost2 saved) l ∧
      (s.threadz = 0 ∨ s.firstThread2 = 0 → Selects2 s (s.saveGhost2 saved) l s') ∧
      (s.threadz ≠ 0 → s.firstThread2 ≠ 0 → s'.currentThread2 = s.currentThread2 ∧
        s'.context2 = s.context2) := by
  by_cases hfirst : s.firstThread2 = 0
  · -- the second CPU has no thread yet, so nothing has to be saved
    have hghost : s.saveGhost2 saved = saved := if_pos hfirst
    have hsaved : Saved2 s saved l :=
      ⟨h, fun p hp hne => h.contexts p hp hne fun hcontra => absurd hfirst hcontra⟩
    obtain ⟨s', hreturns, hinv, hselects⟩ := select2_inv hsaved
    rw [hghost]
    refine ⟨s', fun n hn => ?_, hinv, fun _ => hselects, fun _ hcontra => absurd hfirst hcontra⟩
    rw [taskSwitch2, if_pos hfirst, hreturns n hn]
  · obtain ⟨t, ht⟩ := h.queue.allocated _ h.mem2
    have hghost : s.saveGhost2 saved = Function.update saved s.currentThread2 s.context2 :=
      if_neg hfirst
    let s₁ : Tasks := { s with
      heap := setThread s.heap s.currentThread2 (t.saveContext s.context2) }
    have hnext : ∀ a, (s₁.heap a).map Thread.next = (s.heap a).map Thread.next :=
      set_thread_field Thread.next ht rfl
    have hsecond : ∀ a, (s₁.heap a).map Thread.second = (s.heap a).map Thread.second :=
      set_thread_field Thread.second ht rfl
    have hself : s₁.heap s.currentThread2 = some (t.saveContext s.context2) := set_thread_self ..
    have hcontexts : ∀ p ∈ l, p ≠ s.currentThread →
        (s₁.heap p).map Thread.restoreContext = some (s.saveGhost2 saved p) := by
      intro p hp hne
      rw [hghost]
      by_cases heq : p = s.currentThread2
      · rw [heq, hself, Function.update_self]
        rfl
      · rw [Function.update_of_ne heq, show s₁.heap p = s.heap p from set_thread_other _ heq]
        exact h.contexts p hp hne fun _ => heq
    have hinv : SwitchInv s₁ (s.saveGhost2 saved) l :=
      ⟨h.queue.congr fun a _ => hnext a, (hsecond _).trans h.head, h.mem,
        (hsecond _).trans h.current, h.mem2, fun hfirst => (hsecond _).trans (h.current2 hfirst),
        fun p hp hne _ => hcontexts p hp hne⟩
    have hstart : ∀ n, taskSwitch2 n s =
        if s.threadz ≠ 0 then restore2 s.currentThread2 s₁ else select2 n s₁ := by
      intro n
      rw [taskSwitch2, if_neg hfirst, ht]
      rfl
    by_cases hz : s.threadz = 0
    · obtain ⟨s', hreturns, hinv', hselects⟩ := select2_inv ⟨hinv, hcontexts⟩
      refine ⟨s', fun n hn => ?_, hinv', fun _ => ?_, fun hcontra => absurd hz hcontra⟩
      · rw [hstart, if_neg fun hcontra => hcontra hz, hreturns n hn]
      · have htest : (fun p => (s₁.heap p).any Thread.runs2) =
            fun p => (s.heap p).any Thread.runs2 :=
          funext (set_thread_test Thread.runs2 ht rfl)
        unfold Selects2 at hselects ⊢
        rwa [htest] at hselects
    · -- the thread goes on with the registers that were just saved
      refine ⟨{ s₁ with context2 := s.context2, context2Pid := t.pid }, fun n _ => ?_,
        ⟨hinv.queue, hinv.head, hinv.mem, hinv.current, hinv.mem2, hinv.current2, hinv.contexts⟩,
        fun hor => absurd hor (by simp [hz, hfirst]), fun _ _ => ⟨rfl, rfl⟩⟩
      rw [hstart, if_pos hz, restore2, hself]
      rfl

/-- Appending a fresh thread. -/
theorem append_thread_inv (h : SwitchInv s saved l) {v : Nat} (hv : s.heap v = none) (hzero : v ≠ 0)
    {t : Thread} (ht : t.next = 0) :
    ∃ s', (∀ n, l.length ≤ n → appendThread n v t s = some s') ∧
      SwitchInv s' (Function.update saved v t.restoreContext) (l ++ [v]) := by
  obtain ⟨heap, happend, hqueue, hnew, hfield⟩ :=
    append_thread_spec h.queue (List.ne_nil_of_mem h.mem) hv hzero ht
  have hfresh : ∀ a ∈ l, a ≠ v := by
    intro a ha heq
    obtain ⟨c, hc⟩ := h.queue.allocated a ha
    rw [heq, hv] at hc
    cases hc
  have hsecond := hfield Thread.second fun _ _ => rfl
  refine ⟨_, happend, hqueue, ?_, by simp [h.mem], ?_, by simp [h.mem2], fun hfirst => ?_,
    fun p hp hne hne2 => ?_⟩
  · exact (hsecond _ (hfresh _ h.ready_queue_mem)).trans h.head
  · exact (hsecond _ (hfresh _ h.mem)).trans h.current
  · exact (hsecond _ (hfresh _ h.mem2)).trans (h.current2 hfirst)
  · rcases List.mem_append.mp hp with hp | hp
    · have hpv := hfresh p hp
      rw [Function.update_of_ne hpv]
      exact (hfield Thread.restoreContext (fun _ _ => rfl) p hpv).trans (h.contexts p hp hne hne2)
    · obtain rfl := List.mem_singleton.mp hp
      rw [Function.update_self]
      exact congrArg (Option.map Thread.restoreContext) hnew

end Steps

/-! ### Runs -/

/-- What happens in a run. `run` and `run2` are programs that change the registers of a CPU,
`family` is the rest of what the create functions write. -/
inductive SwitchEvent where
  | taskSwitch
  | taskSwitch2
  | append (v : Nat) (t : Thread)
  | setStatus (p : Nat) (status : BitVec 64)
  | family (p tail : Nat) (waitPid : BitVec 64)
  | run (c : Context)
  | run2 (c : Context)
  | setThreadz (z : Nat)

/-- One step, with the registers with which each thread last left a CPU. -/
inductive SwitchStep : Tasks × (Nat → Context) → SwitchEvent → Tasks × (Nat → Context) → Prop where
  | taskSwitch (s s' : Tasks) (saved : Nat → Context) :
      Returns (fun n => Process.taskSwitch n s) s' →
      SwitchStep (s, saved) .taskSwitch (s', Function.update saved s.currentThread s.context)
  | taskSwitch2 (s s' : Tasks) (saved : Nat → Context) :
      Returns (fun n => Process.taskSwitch2 n s) s' →
      SwitchStep (s, saved) .taskSwitch2 (s', s.saveGhost2 saved)
  | append (s s' : Tasks) (saved : Nat → Context) (v : Nat) (t : Thread) :
      s.heap v = none → v ≠ 0 → t.next = 0 → Returns (fun n => appendThread n v t s) s' →
      SwitchStep (s, saved) (.append v t) (s', Function.update saved v t.restoreContext)
  | setStatus (s : Tasks) (saved : Nat → Context) (p : Nat) (t : Thread) (status : BitVec 64) :
      s.heap p = some t → SwitchStep (s, saved) (.setStatus p status)
        ({ s with heap := setThread s.heap p { t with status := status } }, saved)
  | family (s : Tasks) (saved : Nat → Context) (p tail : Nat) (t : Thread) (waitPid : BitVec 64) :
      s.heap p = some t → SwitchStep (s, saved) (.family p tail waitPid)
        ({ s with heap := setThread s.heap p { t with tail := tail, waitPid := waitPid } }, saved)
  | run (s : Tasks) (saved : Nat → Context) (c : Context) :
      SwitchStep (s, saved) (.run c) ({ s with context := c }, saved)
  | run2 (s : Tasks) (saved : Nat → Context) (c : Context) :
      SwitchStep (s, saved) (.run2 c) ({ s with context2 := c }, saved)
  | setThreadz (s : Tasks) (saved : Nat → Context) (z : Nat) :
      SwitchStep (s, saved) (.setThreadz z) ({ s with threadz := z }, saved)

/-- A ready queue before the first switch: both current threads are the head, which belongs to the
first CPU. -/
structure SwitchStart (s : Tasks) (saved : Nat → Context) (l : List Nat) : Prop where
  queue : Queue s.heap s.threadReadyQueue l
  mem : s.threadReadyQueue ∈ l
  head : (s.heap s.threadReadyQueue).map Thread.second = some false
  current : s.currentThread = s.threadReadyQueue
  current2 : s.currentThread2 = s.threadReadyQueue
  first : s.firstThread2 = 0
  contexts : ∀ p ∈ l, (s.heap p).map Thread.restoreContext = some (saved p)

/-- The runs of the schedulers. -/
abbrev SwitchRun : Tasks × (Nat → Context) → Tasks × (Nat → Context) → Prop :=
  Run SwitchStep fun _ _ => True

theorem switch_start_inv {s : Tasks} {saved : Nat → Context} {l : List Nat}
    (h : SwitchStart s saved l) : SwitchInv s saved l where
  queue := h.queue
  head := h.head
  mem := h.current ▸ h.mem
  current := h.current ▸ h.head
  mem2 := h.current2 ▸ h.mem
  current2 := fun hcontra => absurd h.first hcontra
  contexts := fun p hp _ _ => h.contexts p hp

/-- Every step keeps the invariant, for the queue with the appended thread. -/
theorem switch_step_inv {s s' : Tasks} {saved saved' : Nat → Context} {l : List Nat}
    {event : SwitchEvent} (h : SwitchInv s saved l)
    (hstep : SwitchStep (s, saved) event (s', saved')) : ∃ l', SwitchInv s' saved' l' := by
  cases hstep with
  | taskSwitch _ _ _ hreturns =>
      obtain ⟨_, hcall, hinv, -⟩ := task_switch_inv h
      obtain rfl := hreturns.unique ⟨_, hcall⟩
      exact ⟨l, hinv⟩
  | taskSwitch2 _ _ _ hreturns =>
      obtain ⟨_, hcall, hinv, -⟩ := task_switch2_inv h
      obtain rfl := hreturns.unique ⟨_, hcall⟩
      exact ⟨l, hinv⟩
  | append _ _ _ v t hv hzero ht hreturns =>
      obtain ⟨_, hcall, hinv⟩ := append_thread_inv h hv hzero ht
      obtain rfl := hreturns.unique ⟨_, hcall⟩
      exact ⟨l ++ [v], hinv⟩
  | setStatus _ _ p t status ht =>
      exact ⟨l, h.heap_congr (set_thread_field _ ht rfl) (set_thread_field _ ht rfl)
        (set_thread_field _ ht rfl)⟩
  | family _ _ p tail t waitPid ht =>
      exact ⟨l, h.heap_congr (set_thread_field _ ht rfl) (set_thread_field _ ht rfl)
        (set_thread_field _ ht rfl)⟩
  | run _ _ c => exact ⟨l, h.queue, h.head, h.mem, h.current, h.mem2, h.current2, h.contexts⟩
  | run2 _ _ c => exact ⟨l, h.queue, h.head, h.mem, h.current, h.mem2, h.current2, h.contexts⟩
  | setThreadz _ _ z => exact ⟨l, h.queue, h.head, h.mem, h.current, h.mem2, h.current2, h.contexts⟩

/-- Some invariant queue exists in every state of a run. -/
theorem switch_run_inv {s₀ s : Tasks} {saved₀ saved : Nat → Context} {l₀ : List Nat}
    (hstart : SwitchStart s₀ saved₀ l₀) (hrun : SwitchRun (s₀, saved₀) (s, saved)) :
    ∃ l, SwitchInv s saved l := by
  refine Run.invariant (fun state => ∃ l, SwitchInv state.1 state.2 l) hrun
    ⟨l₀, switch_start_inv hstart⟩ ?_
  rintro ⟨s, saved⟩ event ⟨s', saved'⟩ ⟨l, h⟩ - hstep
  exact switch_step_inv h hstep

/-- The two schedulers in every state of a run. The current thread of the first CPU is never one of
the second CPU; once `first_thread2` is set the current thread of the second CPU is one; so no
thread is current on both. The next `task_switch` resumes a thread with the registers it last left
a CPU with. The next `task_switch2` does the same for the first runnable thread of the second CPU
in cyclic order behind the current one, and leaves the CPU alone if there is none or if `threadz`
is set. -/
theorem cpu_exclusivity (s₀ s : Tasks) (saved₀ saved : Nat → Context) (l₀ : List Nat)
    (hstart : SwitchStart s₀ saved₀ l₀) (hrun : SwitchRun (s₀, saved₀) (s, saved)) :
    (s.heap s.currentThread).map Thread.second = some false ∧
    (s.firstThread2 = 1 → (s.heap s.currentThread2).map Thread.second = some true) ∧
    (s.firstThread2 = 1 → s.currentThread ≠ s.currentThread2) ∧
    (∃ s', Returns (fun n => taskSwitch n s) s' ∧
      s'.context = Function.update saved s.currentThread s.context s'.currentThread) ∧
    ∃ l, Queue s.heap s.threadReadyQueue l ∧ ∃ s', Returns (fun n => taskSwitch2 n s) s' ∧
      (s.threadz = 0 ∨ s.firstThread2 = 0 → Selects2 s (s.saveGhost2 saved) l s') ∧
      (s.threadz ≠ 0 → s.firstThread2 ≠ 0 →
        s'.currentThread2 = s.currentThread2 ∧ s'.context2 = s.context2) := by
  obtain ⟨l, h⟩ := switch_run_inv hstart hrun
  have hset : s.firstThread2 = 1 → s.firstThread2 ≠ 0 := fun hone => by omega
  obtain ⟨s', hswitch, -, hcontext⟩ := task_switch_inv h
  obtain ⟨s₂, hswitch2, -, hselects, hheld⟩ := task_switch2_inv h
  exact ⟨h.current, fun hone => h.current2 (hset hone), fun hone => h.exclusive (hset hone),
    ⟨s', ⟨_, hswitch⟩, hcontext⟩, l, h.queue, s₂, ⟨_, hswitch2⟩, hselects, hheld⟩

/-- A queue of the head and one thread of the second CPU, before the first switch. -/
theorem cpu_exclusivity_two_threads :
    let boot := kernelThread (emptyResources 1) 0#64
    let s : Tasks := { zeroTasks with
      heap := fun p => if p = 1 then some { boot with next := 2 }
        else if p = 2 then some { boot with prv := 0x80#64 } else none
      threadReadyQueue := 1
      currentThread := 1
      currentThread2 := 1 }
    ∃ s', Returns (fun n => taskSwitch2 n s) s' ∧ s'.currentThread2 = 2 ∧ s'.firstThread2 = 1 := by
  intro boot s
  have hqueue : Queue s.heap s.threadReadyQueue [1, 2] :=
    ⟨rfl, by decide, _, rfl, rfl, by decide, _, rfl, rfl⟩
  have hstart : SwitchStart s (fun _ => boot.restoreContext) [1, 2] := by
    refine ⟨hqueue, by decide, by simp [s, boot, kernelThread, newThread, Thread.second], rfl, rfl, rfl,
      fun p hp => ?_⟩
    rcases List.mem_pair.mp hp with rfl | rfl <;> rfl
  obtain ⟨-, -, -, -, l, hl, s', hreturns, hselects, -⟩ :=
    cpu_exclusivity s s _ _ _ hstart Run.refl
  obtain rfl := hqueue.unique hl
  have hfind : ((cyclicOrder [1, 2] s.currentThread2).find? fun p =>
      (s.heap p).any Thread.runs2) = some 2 := by
    simp [cyclicOrder, s, boot, kernelThread, newThread, Thread.runs2, Thread.second,
      Thread.stopped]
  have hselected := hselects (.inl rfl)
  rw [Selects2, hfind] at hselected
  exact ⟨s', hreturns, hselected.1, hselected.2.1⟩

end Sirius.Process
