import Sirius.Process.SchedulerLife

/-!
# Waiting for a child

`syscall_wait_state` of `kernel/syscall.c` lets the current thread wait when it has a `tail`, and
`exit` of any of its children wakes it. Both use one status bit and one `tail` pointer for all the
children of a thread. `WaitRun` is about runs with every order of creations, exits, waits and
switches; the ghost relation `waits` records which thread has called `syscall_wait_state` for which
child that is still alive.
-/

namespace Sirius.Process

open Library

/-- The thread waits. -/
def Thread.waiting (t : Thread) : Bool := t.status &&& threadWait ≠ 0#64

/-- `syscall_wait_state` -/
def waitState (s : Tasks) : Option Tasks := do
  let current ← s.heap s.currentThread
  if current.tail ≠ 0 then
    pure { s with
      heap := setThread s.heap s.currentThread
        { current with status := current.status ||| threadWait } }
  else pure s

/-- `syscall_wait`: the number that the program gets. -/
def wait (s : Tasks) : Option (BitVec 64) := do
  let current ← s.heap s.currentThread
  pure (if current.status &&& threadWait = 0#64 then current.waitPid else 0#64)

/-- What happens to the threads. -/
inductive WaitEvent where
  | createThread (image : Image) (pv : BitVec 32) (argc : BitVec 64)
  | createThreadChild (image : Image) (pv : BitVec 32) (argc : BitVec 64) (thread : Nat)
  | pthreadCreate (image : Image) (pv : BitVec 32) (thread : Nat)
  | pthreadJoin (thread : Nat)
  | exit (thr : Nat)
  | waitState
  | wait
  | taskSwitch (context : Context)
  | taskSwitch2 (context : Context)

/-- The threads after an event. -/
def WaitEvent.run (n : Nat) (s : Tasks) : WaitEvent → Option Tasks
  | .createThread i pv argc =>
      (Process.createThread n i.r i.entry i.stack i.phy i.user pv argc i.arg i.pwd s).map Prod.snd
  | .createThreadChild i pv argc thread =>
      (Process.createThreadChild n i.r i.entry i.stack i.phy i.user pv argc i.arg i.pwd thread
        s).map Prod.snd
  | .pthreadCreate i pv thread =>
      (Process.pthreadCreate n i.r i.entry i.stack pv thread s).map Prod.snd
  | .pthreadJoin thread => Process.pthreadJoin thread s
  | .exit thr => Process.exit n thr s
  | .waitState => Process.waitState s
  | .wait => (Process.wait s).map fun _ => s
  | .taskSwitch context => Process.taskSwitch n { s with context := context }
  | .taskSwitch2 context => Process.taskSwitch2 n { s with context2 := context }

/-- The image that the event brings into memory. -/
def WaitEvent.image : WaitEvent → Option Image
  | .createThread i _ _ => some i
  | .createThreadChild i _ _ _ => some i
  | .pthreadCreate i _ _ => some i
  | _ => none

/-- The child `c` is the one recorded in the `wait_pid` of `p`. -/
def RecordedChild (s : Tasks) (p c : Nat) : Prop :=
  Child s.heap p c ∧ (s.heap c).map Thread.pid = (s.heap p).map Thread.waitPid

/-- Who waits for whom after an event. -/
def WaitEvent.waits (s : Tasks) (waits : Nat → Nat → Prop) : WaitEvent → Nat → Nat → Prop
  | .waitState => fun p c => waits p c ∨ p = s.currentThread ∧ RecordedChild s p c
  | .exit thr => fun p c => waits p c ∧ p ≠ thr ∧ c ≠ thr
  | _ => waits

/-- One event. The address of a new thread is free. -/
def WaitStep (before : Tasks × (Nat → Nat → Prop)) (e : WaitEvent)
    (after : Tasks × (Nat → Nat → Prop)) : Prop :=
  (∀ i, e.image = some i → before.1.heap i.r.v = none ∧ i.r.v ≠ 0) ∧
    Returns (fun n => e.run n before.1) after.1 ∧ after.2 = e.waits before.1 before.2

/-- The condition: a thread that waits for a living child is not the first one and has a `tail`, and
no child exits while its creator waits for another one. -/
def WaitEvent.Orderly (before : Tasks × (Nat → Nat → Prop)) : WaitEvent → Prop
  | .waitState => ∀ c, RecordedChild before.1 before.1.currentThread c →
      before.1.currentThread ≠ before.1.threadReadyQueue ∧
        (before.1.heap before.1.currentThread).map Thread.tail ≠ some 0
  | .exit thr => thr ≠ before.1.threadReadyQueue ∧ thr ≠ before.1.currentThread ∧
      ∀ t, before.1.heap thr = some t → t.head ≠ thr → ∀ c, before.2 t.head c → c = thr
  | _ => True

/-- The runs from the setup on, where nobody waits, with a condition on the events. -/
def WaitRun (good : Tasks × (Nat → Nat → Prop) → WaitEvent → Prop) (r : Resources)
    (pml4e : BitVec 64) (s₀ : Tasks) (after : Tasks × (Nat → Nat → Prop)) : Prop :=
  Run WaitStep good (threadSetup r pml4e s₀, fun _ _ => False) after

/-- A thread that waits is not scheduled before its child has exited, the exit of the child makes it
runnable, and every thread that waits has a living child. -/
structure WaitsWell (s : Tasks) (waits : Nat → Nat → Prop) : Prop where
  alive : ∀ p c, waits p c → Child s.heap p c
  waiting : ∀ p c, waits p c → ∀ context s',
    Returns (fun n => taskSwitch n { s with context := context }) s' → s'.currentThread ≠ p
  waiting2 : ∀ p c, waits p c → ∀ context s',
    Returns (fun n => taskSwitch2 n { s with context2 := context }) s' →
      s'.currentThread2 = p → s.currentThread2 = p
  woken : ∀ p c, waits p c → (WaitEvent.exit c).Orderly (s, waits) → ∀ s',
    Returns (fun n => exit n c s) s' → (s'.heap p).any Thread.runs =
      (s.heap p).any fun t => !t.second && t.status &&& threadZumbi = 0#64
  child : ∀ p, (s.heap p).any Thread.waiting = true → ∃ c, Child s.heap p c

variable {s s' : Tasks} {waits : Nat → Nat → Prop} {l : List Nat} {p c thr : Nat}

/-! ### Events that leave the family as it is -/

/-- Only registers and status bits other than that of a wait have changed. -/
structure Untouched (s s' : Tasks) : Prop where
  ready : s'.threadReadyQueue = s.threadReadyQueue
  field : ∀ {β : Type} (field : Thread → β),
    (∀ t c status, field { t with toContext := c, status := status } = field t) →
      ∀ a, (s'.heap a).map field = (s.heap a).map field
  waiting : ∀ a, (s'.heap a).map Thread.waiting = (s.heap a).map Thread.waiting

/-- A write to one thread that changes its registers and such status bits. -/
theorem Untouched.write {t : Thread} (ht : s.heap p = some t) {context : Context}
    {status : BitVec 64} (hstatus : status &&& threadWait = t.status &&& threadWait)
    (hheap : s'.heap = setThread s.heap p { t with toContext := context, status := status })
    (hready : s'.threadReadyQueue = s.threadReadyQueue) : Untouched s s' where
  ready := hready
  field := fun field hfield => by
    rw [hheap]
    exact set_thread_field field ht (hfield t context status)
  waiting := by
    rw [hheap]
    exact set_thread_field Thread.waiting ht (by simp only [Thread.waiting, hstatus])

theorem Untouched.of_same (hheap : s'.heap = s.heap)
    (hready : s'.threadReadyQueue = s.threadReadyQueue) : Untouched s s' :=
  ⟨hready, fun _ _ _ => by rw [hheap], fun _ => by rw [hheap]⟩

theorem LifeInv.untouched (h : LifeInv s l) (hsame : Untouched s s')
    (hcurrent : s'.currentThread ∈ l) : LifeInv s' l where
  shape := by
    rw [hsame.ready]
    exact h.shape.congr (hsame.field _ fun _ _ _ => rfl) (hsame.field _ fun _ _ _ => rfl)
      (hsame.field _ fun _ _ _ => rfl) (hsame.field _ fun _ _ _ => rfl)
  later := h.later.congr (hsame.field _ fun _ _ _ => rfl)
  boot := by
    rw [hsame.ready, hsame.field _ fun _ _ _ => rfl]
    exact h.boot
  current := hcurrent

/-- `task_switch` saves registers, and continues with the first thread or one that runs. -/
theorem task_switch_untouched (h : LifeInv s l) (context : Context)
    (hreturns : Returns (fun n => taskSwitch n { s with context := context }) s') :
    Untouched s s' ∧ s'.currentThread ∈ l ∧
      (s'.currentThread = s.threadReadyQueue ∨ (s.heap s'.currentThread).any Thread.runs = true) := by
  obtain ⟨t, p, u, ht, hu, hmem, hruns, hcall⟩ :=
    task_switch_spec (s := { s with context := context }) h.shape.queue h.current
  obtain rfl := hreturns.unique ⟨l.length, hcall⟩
  refine ⟨Untouched.write ht rfl rfl rfl, hmem, hruns.imp_right fun hruns => ?_⟩
  have hsame := set_thread_test Thread.runs ht (u := t.saveContext context) rfl p
  rw [hu, Option.any_some, hruns] at hsame
  exact hsame.symm

theorem restore2_same (h : restore2 p s = some s') :
    s'.heap = s.heap ∧ s'.threadReadyQueue = s.threadReadyQueue ∧
      s'.currentThread = s.currentThread ∧ s'.currentThread2 = s.currentThread2 := by
  obtain ⟨t, -, h⟩ := Option.bind_eq_some_iff.mp h
  rw [← Option.some.inj h]
  exact ⟨rfl, rfl, rfl, rfl⟩

theorem select2_same {n : Nat} (h : select2 n s = some s') :
    s'.heap = s.heap ∧ s'.threadReadyQueue = s.threadReadyQueue ∧
      s'.currentThread = s.currentThread ∧
      (s'.currentThread2 = s.currentThread2 ∨
        (s.heap s'.currentThread2).any Thread.runs2 = true) := by
  obtain ⟨t, -, h⟩ := Option.bind_eq_some_iff.mp h
  obtain ⟨q, hsearch, h⟩ := Option.bind_eq_some_iff.mp h
  split at h
  · rw [← Option.some.inj h]
    exact ⟨rfl, rfl, rfl, .inl rfl⟩
  · next hq =>
      have hgood : (s.heap q).any Thread.runs2 = true := by
        obtain ⟨q', hfirst, hsearch⟩ := Option.bind_eq_some_iff.mp hsearch
        split at hsearch
        · exact (search_good _ hsearch).resolve_left hq
        · obtain rfl := Option.some.inj hsearch
          exact (search_good _ hfirst).resolve_left hq
      obtain ⟨hheap, hready, hcurrent, hcurrent2⟩ := restore2_same h
      refine ⟨hheap, hready, hcurrent, .inr ?_⟩
      rw [hcurrent2]
      exact hgood

/-- `task_switch2` saves registers, and keeps its thread or continues with one that runs. -/
theorem task_switch2_untouched {n : Nat} {context : Context}
    (h : taskSwitch2 n { s with context2 := context } = some s') :
    Untouched s s' ∧ s'.currentThread = s.currentThread ∧
      (s'.currentThread2 = s.currentThread2 ∨
        (s.heap s'.currentThread2).any Thread.runs2 = true) := by
  rw [taskSwitch2] at h
  split at h
  · obtain ⟨hheap, hready, hcurrent, hcurrent2⟩ := select2_same h
    exact ⟨Untouched.of_same hheap hready, hcurrent, hcurrent2⟩
  · obtain ⟨t, ht, h⟩ := Option.bind_eq_some_iff.mp h
    dsimp only at ht h
    have hruns := set_thread_test Thread.runs2 ht (u := t.saveContext context) rfl
    split at h
    · obtain ⟨hheap, hready, hcurrent, hcurrent2⟩ := restore2_same h
      exact ⟨Untouched.write ht rfl hheap hready, hcurrent, .inl hcurrent2⟩
    · obtain ⟨hheap, hready, hcurrent, hcurrent2⟩ := select2_same h
      refine ⟨Untouched.write ht rfl hheap hready, hcurrent,
        hcurrent2.imp_right fun hgood => ?_⟩
      rw [← hruns]
      exact hgood

/-! ### Creation -/

/-- A new thread does not wait. -/
theorem new_status {t : Thread} (h : t.status = 0#64 ∨ t.status = threadZumbi) :
    t.waiting = false := by
  rcases h with h | h
  · rw [Thread.waiting, h]
    decide
  · rw [Thread.waiting, h]
    decide

theorem append_thread_field {β : Type} (field : Thread → β)
    (hnext : ∀ t b, field { t with next := b } = field t) {n v : Nat} {t : Thread}
    (h : appendThread n v t s = some s') (a : Nat) :
    (s'.heap a).map field = (setThread s.heap v t a).map field := by
  obtain ⟨tmp, -, h⟩ := Option.bind_eq_some_iff.mp h
  obtain ⟨last, hlast, h⟩ := Option.bind_eq_some_iff.mp h
  rw [← Option.some.inj h]
  exact set_thread_field field hlast (hnext last v) a

/-- The new thread is as it was built, and the others keep everything but `wait_pid`, `next` and
`tail`. -/
theorem append_child_field {β : Type} (field : Thread → β)
    (hnext : ∀ t b, field { t with next := b } = field t)
    (htail : ∀ t b, field { t with tail := b } = field t)
    (hwait : ∀ t w, field { t with waitPid := w } = field t) {n v : Nat} {r : Resources} {t : Thread}
    (h : appendChild n r t p s = some (v, s')) (a : Nat) :
    (s'.heap a).map field = (setThread s.heap r.v t a).map field := by
  obtain ⟨thread, hthread, h⟩ := Option.bind_eq_some_iff.mp h
  obtain ⟨s₁, happend, h⟩ := Option.bind_eq_some_iff.mp h
  obtain ⟨last, hlast, h⟩ := Option.bind_eq_some_iff.mp h
  obtain ⟨-, rfl⟩ := Prod.mk.inj (Option.some.inj h)
  have hset : ∀ heap : Nat → Option Thread, (∀ b, (heap b).map field = (s.heap b).map field) →
      (setThread heap r.v t a).map field = (setThread s.heap r.v t a).map field := by
    intro heap hsame
    by_cases ha : a = r.v
    · rw [ha, set_thread_self, set_thread_self]
    · rw [set_thread_other _ ha, set_thread_other _ ha, hsame]
  calc (setThread s₁.heap p { last with tail := r.v } a).map field
      = (s₁.heap a).map field := set_thread_field field hlast (htail last _) a
    _ = _ := append_thread_field field hnext happend a
    _ = _ := hset _ (set_thread_field field hthread (hwait thread _))

/-! ### The invariant -/

/-- The invariant of the runs that meet the condition. -/
structure WaitInv (s : Tasks) (waits : Nat → Nat → Prop) (l : List Nat) : Prop where
  life : LifeInv s l
  pair : ∀ p c, waits p c → p ≠ s.threadReadyQueue ∧ Child s.heap p c ∧
    (s.heap p).map Thread.waiting = some true
  child : ∀ p, (s.heap p).map Thread.waiting = some true → ∃ c, Child s.heap p c

/-- Events that leave the family as it is keep the invariant. -/
theorem WaitInv.untouched (h : WaitInv s waits l) (hsame : Untouched s s')
    (hcurrent : s'.currentThread ∈ l) : WaitInv s' waits l := by
  have hchild : ∀ p c, Child s.heap p c → Child s'.heap p c := fun p c hchild =>
    ⟨hchild.1, (hsame.field Thread.head (fun _ _ _ => rfl) c).trans hchild.2⟩
  refine ⟨h.life.untouched hsame hcurrent, fun p c hpair => ?_, fun p hp => ?_⟩
  · obtain ⟨hne, halive, hwaiting⟩ := h.pair p c hpair
    exact ⟨hsame.ready ▸ hne, hchild p c halive, (hsame.waiting p).trans hwaiting⟩
  · rw [hsame.waiting] at hp
    obtain ⟨c, hc⟩ := h.child p hp
    exact ⟨c, hchild p c hc⟩

/-- A new thread keeps the invariant. -/
theorem WaitInv.created (h : WaitInv s waits l) {v : Nat} {t : Thread} {l' : List Nat}
    (hlife : LifeInv s' l') (hv : s.heap v = none) (hready : s'.threadReadyQueue = s.threadReadyQueue)
    (hfield : ∀ {β : Type} (field : Thread → β), (∀ t b, field { t with next := b } = field t) →
      (∀ t b, field { t with tail := b } = field t) →
      (∀ t w, field { t with waitPid := w } = field t) → ∀ a,
        (s'.heap a).map field = (setThread s.heap v t a).map field)
    (hstatus : t.waiting = false) : WaitInv s' waits l' := by
  have hhead := hfield Thread.head (fun _ _ => rfl) (fun _ _ => rfl) fun _ _ => rfl
  have hwaiting := hfield Thread.waiting (fun _ _ => rfl) (fun _ _ => rfl) fun _ _ => rfl
  have hother : ∀ a, (s.heap a).isSome → a ≠ v := by
    intro a ha heq
    rw [heq, hv] at ha
    cases ha
  have hchild : ∀ p c, Child s.heap p c → Child s'.heap p c := by
    intro p c hc
    obtain ⟨u, hu, -⟩ := Option.map_eq_some_iff.mp hc.2
    refine ⟨hc.1, ?_⟩
    rw [hhead, set_thread_other _ (hother c (by rw [hu]; rfl))]
    exact hc.2
  refine ⟨hlife, fun p c hpair => ?_, fun p hp => ?_⟩
  · obtain ⟨hne, halive, hwait⟩ := h.pair p c hpair
    obtain ⟨u, hu, -⟩ := Option.map_eq_some_iff.mp hwait
    refine ⟨hready ▸ hne, hchild p c halive, ?_⟩
    rw [hwaiting, set_thread_other _ (hother p (by rw [hu]; rfl))]
    exact hwait
  · rw [hwaiting] at hp
    by_cases hnew : p = v
    · rw [hnew, set_thread_self, Option.map_some, hstatus] at hp
      cases hp
    · rw [set_thread_other _ hnew] at hp
      obtain ⟨c, hc⟩ := h.child p hp
      exact ⟨c, hchild p c hc⟩

/-- An event that keeps the invariant. -/
def Keeps (s : Tasks) (waits : Nat → Nat → Prop) (e : WaitEvent) : Prop :=
  ∀ s', Returns (fun n => e.run n s) s' →
    s'.threadReadyQueue = s.threadReadyQueue ∧ ∃ l, WaitInv s' (e.waits s waits) l

theorem create_thread_keeps (h : WaitInv s waits l) (i : Image) (hv : s.heap i.r.v = none)
    (hzero : i.r.v ≠ 0) (pv : BitVec 32) (argc : BitVec 64) :
    Keeps s waits (.createThread i pv argc) := by
  intro s' hreturns
  obtain ⟨heap, hcall, hqueue, hinserted⟩ := create_thread_spec h.life.shape i.r hv hzero i.entry
    i.stack i.phy i.user pv argc i.arg i.pwd
  have hrun : Returns (fun n => (WaitEvent.createThread i pv argc).run n s)
      { s with nextPid := s.nextPid + 1, heap := heap } :=
    ⟨l.length, fun n hn => by simp only [WaitEvent.run, hcall n hn, Option.map_some]⟩
  obtain rfl := hreturns.unique hrun
  obtain ⟨s₁, happend, hresult⟩ := Option.bind_eq_some_iff.mp (hcall l.length le_rfl)
  obtain rfl : s₁.heap = heap := congrArg (fun r => r.2.heap) (Option.some.inj hresult)
  exact ⟨rfl, _, h.created (h.life.inserted hinserted hqueue rfl rfl) hv rfl
    (fun field hnext _ _ a => append_thread_field field hnext happend a) (new_status (.inl rfl))⟩

/-- A call that gives a thread a child returns only for a thread. -/
theorem parent_allocated (create : Nat → Thread → Option (Nat × Tasks))
    (hreturns : Returns (fun n => ((s.heap p).bind (create n)).map Prod.snd) s') :
    ∃ thread, s.heap p = some thread := by
  obtain ⟨k, hk⟩ := hreturns
  obtain ⟨r, hr, -⟩ := Option.map_eq_some_iff.mp (hk k le_rfl)
  obtain ⟨thread, hp, -⟩ := Option.bind_eq_some_iff.mp hr
  exact ⟨thread, hp⟩

theorem create_thread_child_keeps (h : WaitInv s waits l) (i : Image) (hv : s.heap i.r.v = none)
    (hzero : i.r.v ≠ 0) (pv : BitVec 32) (argc : BitVec 64) :
    Keeps s waits (.createThreadChild i pv argc p) := by
  intro s' hreturns
  obtain ⟨thread, hp⟩ := parent_allocated _ hreturns
  obtain ⟨heap, _, hcall, -, hqueue, hinserted⟩ := create_thread_child_spec h.life.shape i.r hv hzero
    hp i.entry i.stack i.phy i.user pv argc i.arg i.pwd
  have hrun : Returns (fun n => (WaitEvent.createThreadChild i pv argc p).run n s)
      { s with nextPid := s.nextPid + 1, heap := heap } :=
    ⟨l.length, fun n hn => by simp only [WaitEvent.run, hcall n hn, Option.map_some]⟩
  obtain rfl := hreturns.unique hrun
  obtain ⟨_, -, happend⟩ := Option.bind_eq_some_iff.mp (hcall l.length le_rfl)
  exact ⟨rfl, _, h.created (h.life.inserted hinserted hqueue rfl rfl) hv rfl
    (fun field hnext htail hwait a => append_child_field field hnext htail hwait happend a)
    (new_status (.inl rfl))⟩

theorem pthread_create_keeps (h : WaitInv s waits l) (i : Image) (hv : s.heap i.r.v = none)
    (hzero : i.r.v ≠ 0) (pv : BitVec 32) : Keeps s waits (.pthreadCreate i pv p) := by
  intro s' hreturns
  obtain ⟨thread, hp⟩ := parent_allocated _ hreturns
  obtain ⟨heap, _, hcall, -, hqueue, hinserted⟩ := pthread_create_spec h.life.shape i.r hv hzero hp
    i.entry i.stack pv
  have hrun : Returns (fun n => (WaitEvent.pthreadCreate i pv p).run n s)
      { s with nextPid := s.nextPid + 1, heap := heap } :=
    ⟨l.length, fun n hn => by simp only [WaitEvent.run, hcall n hn, Option.map_some]⟩
  obtain rfl := hreturns.unique hrun
  obtain ⟨_, -, happend⟩ := Option.bind_eq_some_iff.mp (hcall l.length le_rfl)
  exact ⟨rfl, _, h.created (h.life.inserted hinserted hqueue rfl rfl) hv rfl
    (fun field hnext htail hwait a => append_child_field field hnext htail hwait happend a)
    (new_status (.inr rfl))⟩

/-! ### Exits and waits -/

theorem woken_self (u : Thread) (p : Nat) : (u.wokenAt p p).waiting = false := by
  rw [Thread.wokenAt, if_pos rfl, Thread.waiting, BitVec.and_assoc]
  simp [threadWait]

theorem woken_other (u : Thread) {p a : Nat} (h : a ≠ p) : u.wokenAt p a = u := if_neg h

@[simp] theorem woken_head (u : Thread) (p a : Nat) : (u.wokenAt p a).head = u.head := by
  rw [Thread.wokenAt]
  split <;> rfl

/-- Marking a zombie does not change whether it waits. -/
theorem waiting_marked (t : Thread) :
    Thread.waiting { t with status := t.status ||| threadZumbi } = t.waiting := by
  have hbit : (t.status ||| threadZumbi) &&& threadWait = t.status &&& threadWait := by
    rw [BitVec.and_comm, BitVec.and_or_distrib_left, BitVec.and_comm]
    simp [threadWait, threadZumbi]
  simp only [Thread.waiting, hbit]

/-- `exit` returns only for a thread. -/
theorem exit_allocated (h : LifeInv s l) (hreturns : Returns (fun n => exit n thr s) s') :
    ∃ t, s.heap thr = some t := by
  obtain ⟨k, hk⟩ := hreturns
  have hexit : exit (k + 1) thr s = some s' := hk (k + 1) (Nat.le_succ k)
  by_cases hzero : thr = 0
  · rw [hzero, exit_null h.null] at hexit
    cases hexit
  · obtain ⟨marked, hmark, -⟩ := Option.bind_eq_some_iff.mp hexit
    rw [markZombies, if_neg hzero] at hmark
    cases ht : s.heap thr with
    | none =>
        rw [ht] at hmark
        cases hmark
    | some t => exact ⟨t, rfl⟩

/-- What `exit` of a thread other than the first and the current one leaves: the thread is gone, its
creator does not wait, and the creators and the waits of the others are the same. -/
theorem exit_waits (h : LifeInv s l) (hne : thr ≠ s.threadReadyQueue)
    (hcurrent : thr ≠ s.currentThread) (hreturns : Returns (fun n => exit n thr s) s') :
    ∃ t, s.heap thr = some t ∧ s'.threadReadyQueue = s.threadReadyQueue ∧
      LifeInv s' (l.erase thr) ∧ s'.heap thr = none ∧
      (∀ a, a ≠ thr → (s'.heap a).map Thread.head = (s.heap a).map Thread.head) ∧
      (∀ a, a ≠ thr → a ≠ t.head → (s'.heap a).map Thread.waiting = (s.heap a).map Thread.waiting) ∧
      (s'.heap t.head).map Thread.waiting ≠ some true := by
  obtain ⟨t, ht⟩ := exit_allocated h hreturns
  have hremovable := removable_of_returns h (h.shape.allocated thr t ht) hne hcurrent hreturns
  obtain ⟨heap, hcall, hlife, hfreed, hfield⟩ := exit_removable h hremovable
  obtain rfl := hreturns.unique ⟨l.length, hcall⟩
  obtain ⟨marked, hmark, hfield⟩ := hfield t ht
  refine ⟨t, ht, rfl, hlife, hfreed, fun a ha => ?_, fun a ha hother => ?_, ?_⟩
  · have hhead := hfield Thread.head (fun _ _ => rfl) (fun _ _ => rfl) a ha
    simp only [woken_head] at hhead
    exact hhead.trans (mark_zombies_field Thread.head (fun _ _ => rfl) hmark a)
  · have hwaiting := hfield Thread.waiting (fun _ _ => rfl) (fun _ _ => rfl) a ha
    simp only [woken_other _ hother] at hwaiting
    exact hwaiting.trans (mark_zombies_keeps Thread.waiting waiting_marked hmark a)
  · by_cases hself : t.head = thr
    · show (heap t.head).map Thread.waiting ≠ some true
      rw [hself, hfreed]
      exact fun hcontra => by cases hcontra
    · show (heap t.head).map Thread.waiting ≠ some true
      rw [hfield Thread.waiting (fun _ _ => rfl) (fun _ _ => rfl) t.head hself]
      simp only [woken_self]
      cases marked t.head <;> simp

theorem exit_keeps (h : WaitInv s waits l) (hgood : (WaitEvent.exit thr).Orderly (s, waits)) :
    Keeps s waits (.exit thr) := by
  intro s' hreturns
  obtain ⟨hne, hcurrent, hothers⟩ := hgood
  obtain ⟨t, ht, hready, hlife, hfreed, hhead, hwaiting, hcreator⟩ :=
    exit_waits h.life hne hcurrent hreturns
  refine ⟨hready, _, hlife, fun p c hpair => ?_, fun p hp => ?_⟩
  · obtain ⟨hpair, hp, hc⟩ := hpair
    obtain ⟨hfirst, halive, hwait⟩ := h.pair p c hpair
    refine ⟨hready ▸ hfirst, ⟨halive.1, (hhead c hc).trans halive.2⟩, ?_⟩
    -- the creator of the thread waits for no other child
    have hother : p ≠ t.head := fun heq =>
      hc (hothers t ht (fun hself => hp (heq.trans hself)) c (heq ▸ hpair))
    rw [hwaiting p hp hother]
    exact hwait
  · have hthr : p ≠ thr := by
      rintro rfl
      rw [hfreed] at hp
      cases hp
    have hother : p ≠ t.head := fun heq => hcreator (heq ▸ hp)
    rw [hwaiting p hthr hother] at hp
    obtain ⟨c, hchild⟩ := h.child p hp
    have hc : c ≠ thr := by
      rintro rfl
      rw [Child, ht, Option.map_some] at hchild
      exact hother (Option.some.inj hchild.2).symm
    exact ⟨c, hchild.1, (hhead c hc).trans hchild.2⟩

/-- `syscall_wait_state` leaves the family as it is, and a thread with a `tail` waits. -/
theorem wait_state_keeps (h : WaitInv s waits l) (hgood : WaitEvent.waitState.Orderly (s, waits)) :
    Keeps s waits .waitState := by
  intro s' hreturns
  obtain ⟨k, hk⟩ := hreturns
  obtain ⟨t, ht, hstate⟩ := Option.bind_eq_some_iff.mp (hk k le_rfl)
  split at hstate
  · next htail =>
    obtain rfl := Option.some.inj hstate
    let u := { t with status := t.status ||| threadWait }
    have hself : setThread s.heap s.currentThread u s.currentThread = some u := set_thread_self ..
    have hfield : ∀ {β : Type} (field : Thread → β),
        (∀ t status, field { t with status := status } = field t) → ∀ a,
        (setThread s.heap s.currentThread u a).map field = (s.heap a).map field :=
      fun field hfield => set_thread_field field ht (hfield t _)
    have hwaits : u.waiting = true := by
      have hbit : (t.status ||| threadWait) &&& threadWait ≠ 0#64 := by
        intro hzero
        have hbit := congrArg (·.getLsbD 1) hzero
        simp [threadWait] at hbit
      simpa [Thread.waiting, u] using hbit
    have hwaiting : ∀ a, (s.heap a).map Thread.waiting = some true →
        (setThread s.heap s.currentThread u a).map Thread.waiting = some true := by
      intro a ha
      by_cases heq : a = s.currentThread
      · rw [heq, hself, Option.map_some, hwaits]
      · rwa [set_thread_other _ heq]
    have hchild : ∀ p c, Child s.heap p c → Child (setThread s.heap s.currentThread u) p c :=
      fun p c hchild => ⟨hchild.1, (hfield Thread.head (fun _ _ => rfl) c).trans hchild.2⟩
    refine ⟨rfl, l, ?_, fun p c hpair => ?_, fun p hp => ?_⟩
    · exact ⟨h.life.shape.congr (hfield _ fun _ _ => rfl) (hfield _ fun _ _ => rfl)
        (hfield _ fun _ _ => rfl) (hfield _ fun _ _ => rfl), h.life.later.congr (hfield _ fun _ _ => rfl),
        (hfield Thread.head (fun _ _ => rfl) _).trans h.life.boot, h.life.current⟩
    · rcases hpair with hpair | ⟨rfl, hrecorded⟩
      · obtain ⟨hne, halive, hwait⟩ := h.pair p c hpair
        exact ⟨hne, hchild p c halive, hwaiting p hwait⟩
      · refine ⟨(hgood c hrecorded).1, hchild _ c hrecorded.1, ?_⟩
        show (setThread s.heap s.currentThread u s.currentThread).map Thread.waiting = some true
        rw [hself, Option.map_some, hwaits]
    · by_cases heq : p = s.currentThread
      · -- the `tail` is a living child
        exact ⟨t.tail, hchild p _ (heq ▸ (h.life.shape.tails _ t ht).resolve_left htail)⟩
      · have hother : setThread s.heap s.currentThread u p = s.heap p := set_thread_other u heq
        have hold : (s.heap p).map Thread.waiting = some true := by
          rw [← hother]
          exact hp
        obtain ⟨c, hc⟩ := h.child p hold
        exact ⟨c, hchild p c hc⟩
  · next htail =>
    obtain rfl := Option.some.inj hstate
    refine ⟨rfl, l, h.life, fun p c hpair => ?_, h.child⟩
    rcases hpair with hpair | ⟨rfl, hrecorded⟩
    · exact h.pair p c hpair
    · refine absurd ?_ (hgood c hrecorded).2
      rw [ht, Option.map_some, not_not.mp htail]

theorem pthread_join_keeps (h : WaitInv s waits l) (thread : Nat) :
    Keeps s waits (.pthreadJoin thread) := by
  intro s' hreturns
  obtain ⟨k, hk⟩ := hreturns
  obtain ⟨t, ht, hjoin⟩ := Option.bind_eq_some_iff.mp (hk k le_rfl)
  obtain rfl := Option.some.inj hjoin
  have hstatus : t.status &&& ~~~threadZumbi &&& threadWait = t.status &&& threadWait := by
    rw [BitVec.and_assoc]
    simp [threadZumbi, threadWait]
  exact ⟨rfl, l, h.untouched (Untouched.write ht hstatus rfl rfl) h.life.current⟩

theorem wait_keeps (h : WaitInv s waits l) : Keeps s waits .wait := by
  intro s' hreturns
  obtain ⟨k, hk⟩ := hreturns
  obtain ⟨pid, -, hsame⟩ := Option.map_eq_some_iff.mp (hk k le_rfl)
  obtain rfl := hsame
  exact ⟨rfl, l, h⟩

theorem task_switch_keeps (h : WaitInv s waits l) (context : Context) :
    Keeps s waits (.taskSwitch context) := by
  intro s' hreturns
  obtain ⟨hsame, hmem, -⟩ := task_switch_untouched h.life context hreturns
  exact ⟨hsame.ready, l, h.untouched hsame hmem⟩

theorem task_switch2_keeps (h : WaitInv s waits l) (context : Context) :
    Keeps s waits (.taskSwitch2 context) := by
  intro s' hreturns
  obtain ⟨k, hk⟩ := hreturns
  obtain ⟨hsame, hcurrent, -⟩ := task_switch2_untouched (hk k le_rfl)
  exact ⟨hsame.ready, l, h.untouched hsame (hcurrent ▸ h.life.current)⟩

/-! ### Runs -/

/-- Every event that meets the condition keeps the invariant. -/
theorem wait_step_inv {before after : Tasks × (Nat → Nat → Prop)} {e : WaitEvent}
    (h : WaitInv before.1 before.2 l) (hgood : e.Orderly before) (hstep : WaitStep before e after) :
    after.1.threadReadyQueue = before.1.threadReadyQueue ∧ ∃ l, WaitInv after.1 after.2 l := by
  obtain ⟨hfresh, hreturns, hwaits⟩ := hstep
  rw [hwaits]
  cases e with
  | createThread i pv argc =>
      exact create_thread_keeps h i (hfresh i rfl).1 (hfresh i rfl).2 pv argc _ hreturns
  | createThreadChild i pv argc thread =>
      exact create_thread_child_keeps h i (hfresh i rfl).1 (hfresh i rfl).2 pv argc _ hreturns
  | pthreadCreate i pv thread =>
      exact pthread_create_keeps h i (hfresh i rfl).1 (hfresh i rfl).2 pv _ hreturns
  | pthreadJoin thread => exact pthread_join_keeps h thread _ hreturns
  | exit thr => exact exit_keeps h hgood _ hreturns
  | waitState => exact wait_state_keeps h hgood _ hreturns
  | wait => exact wait_keeps h _ hreturns
  | taskSwitch context => exact task_switch_keeps h context _ hreturns
  | taskSwitch2 context => exact task_switch2_keeps h context _ hreturns

theorem thread_setup_waits (r : Resources) (hzero : r.v ≠ 0) (pml4e : BitVec 64) (s₀ : Tasks) :
    WaitInv (threadSetup r pml4e s₀) (fun _ _ => False) [r.v] := by
  refine ⟨thread_setup_life r hzero pml4e s₀, fun _ _ hpair => hpair.elim, fun p hp => ?_⟩
  have hheap : (threadSetup r pml4e s₀).heap =
      setThread (fun _ => none) r.v (kernelThread r pml4e) := rfl
  rw [hheap] at hp
  by_cases heq : p = r.v
  · rw [heq, set_thread_self, Option.map_some, new_status (.inl rfl)] at hp
    cases hp
  · rw [set_thread_other _ heq] at hp
    cases hp

theorem wait_run_inv {r : Resources} {pml4e : BitVec 64} {s₀ : Tasks} (hzero : r.v ≠ 0)
    (hrun : WaitRun (fun before e => e.Orderly before) r pml4e s₀ (s, waits)) :
    ∃ l, WaitInv s waits l := by
  refine Run.invariant (fun after => ∃ l, WaitInv after.1 after.2 l) hrun
    ⟨_, thread_setup_waits r hzero pml4e s₀⟩ ?_
  rintro before e after ⟨l, h⟩ hgood hstep
  exact (wait_step_inv h hgood hstep).2

/-- A thread that waits is not one that runs. -/
theorem waiting_not_runs (h : (s.heap p).map Thread.waiting = some true) :
    (s.heap p).any Thread.runs = false ∧ (s.heap p).any Thread.runs2 = false := by
  obtain ⟨t, ht, hwaiting⟩ := Option.map_eq_some_iff.mp h
  have hstopped : t.stopped = true := by
    rw [Thread.waiting, decide_eq_true_iff] at hwaiting
    rw [Thread.stopped, decide_eq_true_iff]
    exact .inr hwaiting
  simp [ht, Thread.runs, Thread.runs2, hstopped]

/-- The exit of a child makes its creator runnable. -/
theorem exit_wakes (h : LifeInv s l) (hchild : Child s.heap p c) (hne : c ≠ s.threadReadyQueue)
    (hcurrent : c ≠ s.currentThread) (hreturns : Returns (fun n => exit n c s) s') :
    (s'.heap p).any Thread.runs =
      (s.heap p).any fun t => !t.second && t.status &&& threadZumbi = 0#64 := by
  obtain ⟨hself, hhead⟩ := hchild
  obtain ⟨t, ht, rfl⟩ := Option.map_eq_some_iff.mp hhead
  have hremovable := removable_of_returns h (h.shape.allocated c t ht) hne hcurrent hreturns
  obtain ⟨heap, hcall, -, -, hfield⟩ := exit_removable h hremovable
  obtain rfl := hreturns.unique ⟨l.length, hcall⟩
  obtain ⟨marked, hmark, hfield⟩ := hfield t ht
  -- a child without a `tail` is the only thread that is marked
  have hother : marked t.head = s.heap t.head := by
    obtain ⟨u, hu, -, hlast⟩ := hremovable.thread
    obtain rfl := Option.some.inj (ht.symm.trans hu)
    have htail : t.tail = 0 := hlast.resolve_left fun hfather =>
      hself ((h.shape.fathers c t ht).mp hfather).symm
    obtain ⟨n, hn⟩ : ∃ n, l.length = n + 1 :=
      ⟨l.length - 1, by have := List.length_pos_of_mem (h.shape.allocated c t ht); omega⟩
    rw [hn, markZombies, if_neg (h.shape.queue.ne_zero c (h.shape.allocated c t ht)), ht] at hmark
    dsimp only at hmark
    rw [htail, mark_zombies_zero] at hmark
    rw [← Option.some.inj hmark, set_thread_other _ (Ne.symm hself)]
  have hruns := hfield Thread.runs (fun _ _ => rfl) (fun _ _ => rfl) t.head (Ne.symm hself)
  rw [hother] at hruns
  have hwoken : ∀ u : Thread, (u.wokenAt t.head t.head).runs =
      (!u.second && decide (u.status &&& threadZumbi = 0#64)) := by
    intro u
    have hzombie : u.status &&& ~~~threadWait &&& threadZumbi = u.status &&& threadZumbi := by
      rw [BitVec.and_assoc]
      simp [threadZumbi, threadWait]
    have hwait : u.status &&& ~~~threadWait &&& threadWait = 0#64 := by
      rw [BitVec.and_assoc]
      simp [threadWait]
    simp [Thread.wokenAt, Thread.runs, Thread.second, Thread.stopped, hzombie, hwait]
  simp only [hwoken] at hruns
  show (heap t.head).any Thread.runs = _
  cases hu : s.heap t.head with
  | none =>
      rw [hu, Option.map_none, Option.map_eq_none_iff] at hruns
      rw [hruns]
      rfl
  | some u =>
      rw [hu, Option.map_some] at hruns
      obtain ⟨u', hu', hsame⟩ := Option.map_eq_some_iff.mp hruns
      rw [hu', Option.any_some, Option.any_some, hsame]

/-- In every state of a run of creations, exits, waits and switches that meet the condition, a thread
that waits for a child is not scheduled before the child has exited, the exit of the child makes it
runnable, and every thread that waits has a living child. -/
theorem waiting_for_child (r : Resources) (pml4e : BitVec 64) (s₀ s : Tasks)
    (waits : Nat → Nat → Prop) (hzero : r.v ≠ 0)
    (hrun : WaitRun (fun before e => e.Orderly before) r pml4e s₀ (s, waits)) :
    WaitsWell s waits := by
  obtain ⟨l, h⟩ := wait_run_inv hzero hrun
  refine ⟨fun p c hpair => (h.pair p c hpair).2.1, fun p c hpair context s' hreturns heq => ?_,
    fun p c hpair context s' hreturns heq => ?_, fun p c hpair hgood s' hreturns => ?_,
    fun p hp => h.child p ?_⟩
  · obtain ⟨hne, -, hwaiting⟩ := h.pair p c hpair
    obtain ⟨-, -, hturn⟩ := task_switch_untouched h.life context hreturns
    rw [heq, (waiting_not_runs hwaiting).1] at hturn
    exact hturn.elim hne Bool.false_ne_true
  · obtain ⟨-, -, hwaiting⟩ := h.pair p c hpair
    obtain ⟨k, hk⟩ := hreturns
    obtain ⟨-, -, hturn⟩ := task_switch2_untouched (hk k le_rfl)
    rw [heq, (waiting_not_runs hwaiting).2] at hturn
    exact (hturn.resolve_right Bool.false_ne_true).symm
  · exact exit_wakes h.life (h.pair p c hpair).2.1 hgood.1 hgood.2.1 hreturns
  · cases ht : s.heap p with
    | none =>
        rw [ht] at hp
        cases hp
    | some t =>
        rw [ht, Option.any_some] at hp
        rw [Option.map_some, hp]

/-- An event of a run that returns when `k` steps in the queue are enough. -/
theorem wait_run_event {good : Tasks × (Nat → Nat → Prop) → WaitEvent → Prop} {r : Resources}
    {pml4e : BitVec 64} {s₀ : Tasks} (hrun : WaitRun good r pml4e s₀ (s, waits)) (e : WaitEvent)
    (hgood : good (s, waits) e) (hfresh : ∀ i, e.image = some i → s.heap i.r.v = none ∧ i.r.v ≠ 0)
    (k : Nat) (hreturns : ∀ n, e.run (n + k) s = some s') :
    WaitRun good r pml4e s₀ (s', e.waits s waits) :=
  hrun.snoc e hgood ⟨hfresh, Returns.of_add k hreturns, rfl⟩

/-- The registers of the kernel thread, for examples. -/
def bootContext : Context := (kernelThread (emptyResources 1) 0#64).restoreContext

/-- A father waits for its only child. -/
theorem waiting_for_child_father : ∃ s waits,
    WaitRun (fun before e => e.Orderly before) (emptyResources 1) 0#64 zeroTasks (s, waits) ∧
      s.currentThread = 2 ∧ waits 2 3 ∧ WaitsWell s waits := by
  have hkernel : WaitRun (fun before e => e.Orderly before) (emptyResources 1) 0#64 zeroTasks _ :=
    Run.refl
  have hfather := wait_run_event hkernel (.createThread (emptyImage 2) 0x11#32 0#64) trivial
    (fun i hi => by cases hi; exact ⟨rfl, by decide⟩) 3 fun _ => rfl
  have hswitch := wait_run_event hfather (.taskSwitch bootContext) trivial
    (fun i hi => by cases hi) 3 fun _ => rfl
  have hchild := wait_run_event hswitch (.createThreadChild (emptyImage 3) 0x11#32 0#64 2) trivial
    (fun i hi => by cases hi; exact ⟨rfl, by decide⟩) 3 fun _ => rfl
  have hwait := wait_run_event hchild .waitState (fun _ _ => ⟨by decide, by decide⟩)
    (fun i hi => by cases hi) 0 fun _ => rfl
  exact ⟨_, _, hwait, rfl, .inr ⟨rfl, ⟨by decide, rfl⟩, rfl⟩,
    waiting_for_child _ _ _ _ _ (by decide) hwait⟩

/-- A father creates two children and waits for the second one. The exit of the first one lets it
run again. -/
theorem first_exit_wakes_father : ¬ ∀ (r : Resources) (pml4e : BitVec 64) (s₀ s : Tasks)
    (waits : Nat → Nat → Prop), r.v ≠ 0 →
    WaitRun (fun _ _ => True) r pml4e s₀ (s, waits) → WaitsWell s waits := by
  intro hall
  have hkernel : WaitRun (fun _ _ => True) (emptyResources 1) 0#64 zeroTasks _ := Run.refl
  have hfather := wait_run_event hkernel (.createThread (emptyImage 2) 0x11#32 0#64) trivial
    (fun i hi => by cases hi; exact ⟨rfl, by decide⟩) 3 fun _ => rfl
  have hswitch := wait_run_event hfather (.taskSwitch bootContext) trivial
    (fun i hi => by cases hi) 3 fun _ => rfl
  have hfirst := wait_run_event hswitch (.createThreadChild (emptyImage 3) 0x11#32 0#64 2) trivial
    (fun i hi => by cases hi; exact ⟨rfl, by decide⟩) 3 fun _ => rfl
  have hsecond := wait_run_event hfirst (.pthreadCreate (emptyImage 4) 0x11#32 2) trivial
    (fun i hi => by cases hi; exact ⟨rfl, by decide⟩) 4 fun _ => rfl
  have hwait := wait_run_event hsecond .waitState trivial (fun i hi => by cases hi) 0 fun _ => rfl
  have hexit := wait_run_event hwait (.exit 3) trivial (fun i hi => by cases hi) 5 fun _ => rfl
  have hboot := wait_run_event hexit (.taskSwitch bootContext) trivial
    (fun i hi => by cases hi) 5 fun _ => rfl
  refine (hall _ _ _ _ _ (by decide) hboot).waiting 2 4 ?_ bootContext _
    (Returns.of_add 5 fun _ => rfl) rfl
  exact ⟨.inr ⟨rfl, ⟨by decide, rfl⟩, rfl⟩, by decide, by decide⟩

end Sirius.Process
