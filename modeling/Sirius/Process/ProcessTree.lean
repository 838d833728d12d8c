import Sirius.Process.QueueInvariant
import Sirius.Library.Runs
import Mathlib.Logic.Relation

/-!
# The process tree when threads exit

`TreeInv` is the shape of the ready queue and the `head` and `tail` pointers that the create
functions build and that `exit` of a thread without children keeps. For a thread with a child
`exit` fails: it leaves children of a father in the queue with a dangling `head`, and for other
threads it either leaves a child behind or touches the record it has just freed.
`process_exit_iff` states this for every state a run reaches.
-/

namespace Sirius.Process

open Library

/-- `c` was created by `p`, or by a descendant of `p`. -/
def Descendant (heap : Nat → Option Thread) : Nat → Nat → Prop :=
  Relation.TransGen (Child heap)

/-- No pointer of a thread in the queue leads to a freed thread. -/
def NoDangling (heap : Nat → Option Thread) (l : List Nat) : Prop :=
  ∀ a ∈ l, ∀ t, heap a = some t → ∀ p ∈ [t.head, t.next, t.tail], p ≠ 0 → ∃ u, heap p = some u

/-- `exit` works: it returns, the queue is the old one without the thread and its descendants, and
no thread left refers to a freed one. -/
def ExitsCleanly (s : Tasks) (l : List Nat) (thr : Nat) : Prop :=
  ∃ s', Returns (fun n => exit n thr s) s' ∧ ∃ l', Queue s'.heap s'.threadReadyQueue l' ∧
    l'.Sublist l ∧ (∀ a, a ∈ l' ↔ a ∈ l ∧ a ≠ thr ∧ ¬ Descendant s.heap thr a) ∧
    NoDangling s'.heap l'

/-- The shape of the queue and the family pointers. The first thread is that of the kernel. -/
structure TreeInv (heap : Nat → Option Thread) (ready : Nat) (l : List Nat) : Prop where
  queue : Queue heap ready l
  mem : ready ∈ l
  allocated : ∀ a t, heap a = some t → a ∈ l
  boot : (heap ready).map Thread.head = some 0
  heads : ∀ a t, heap a = some t → a ≠ ready → t.head ∈ l
  tails : ∀ a t, heap a = some t → t.tail = 0 ∨ Child heap a t.tail
  fathers : ∀ a t, heap a = some t → (t.father = true ↔ t.head = a)

namespace TreeInv

variable {heap heap' : Nat → Option Thread} {ready : Nat} {l : List Nat}

/-- The part of the shape that does not depend on the creators. -/
theorem queue_inv (h : TreeInv heap ready l) : QueueInv heap ready l :=
  ⟨h.queue, h.mem, h.allocated, h.tails, h.fathers⟩

/-- The whole shape, from that part. -/
theorem of_queue_inv (h : QueueInv heap ready l) (hboot : (heap ready).map Thread.head = some 0)
    (hheads : ∀ a t, heap a = some t → a ≠ ready → t.head ∈ l) : TreeInv heap ready l :=
  ⟨h.queue, h.mem, h.allocated, hboot, hheads, h.tails, h.fathers⟩

/-- The invariant leaves no dangling pointer. -/
theorem no_dangling (h : TreeInv heap ready l) : NoDangling heap l := by
  intro a ha t ht p hp hzero
  simp only [List.mem_cons, List.not_mem_nil, or_false] at hp
  rcases hp with rfl | rfl | rfl
  · by_cases hready : a = ready
    · have hboot := h.boot
      rw [← hready, ht, Option.map_some] at hboot
      exact absurd (Option.some.inj hboot) hzero
    · exact h.queue.allocated _ (h.heads a t ht hready)
  · obtain ⟨l₁, l₂, rfl⟩ := List.append_of_mem ha
    have hbehind := h.queue.behind ht
    cases l₂ with
    | nil => exact absurd hbehind hzero
    | cons q l₂ =>
        obtain ⟨heq, -, c, hc, -⟩ := hbehind
        exact ⟨c, heq ▸ hc⟩
  · rcases h.tails a t ht with htail | ⟨-, hchild⟩
    · exact absurd htail hzero
    · obtain ⟨u, hu, -⟩ := Option.map_eq_some_iff.mp hchild
      exact ⟨u, hu⟩

/-- Marking zombies keeps the shape. -/
theorem of_marked (h : TreeInv heap ready l) {n p : Nat}
    (hmark : markZombies n p heap = some heap') : TreeInv heap' ready l := by
  have hhead := mark_zombies_field Thread.head (fun _ _ => rfl) hmark
  refine of_queue_inv (h.queue_inv.of_marked hmark) ((hhead _).trans h.boot) fun a t' ht' hne => ?_
  have hsame := hhead a
  rw [ht', Option.map_some] at hsame
  obtain ⟨t, ht, heq⟩ := Option.map_eq_some_iff.mp hsame.symm
  exact heq ▸ h.heads a t ht hne

/-- A new last thread keeps the shape when its creator is in the queue. -/
theorem inserted {v : Nat} {t : Thread} (h : TreeInv heap ready l)
    (hinserted : Inserted heap v t heap') (hqueue : QueueInv heap' ready (l ++ [v]))
    (hhead : t.head ∈ l ++ [v]) : TreeInv heap' ready (l ++ [v]) := by
  obtain ⟨u, hready⟩ := h.queue.allocated _ h.mem
  refine of_queue_inv hqueue ((hinserted.head _ (hinserted.ne hready)).trans h.boot)
    fun a t' ht' hother => ?_
  rcases hinserted.before ht' with ⟨-, rfl⟩ | ⟨-, u, hu, hsame, -⟩
  · exact hhead
  · exact hsame ▸ List.mem_append_left _ (h.heads a u hu hother)

end TreeInv

/-! ### One call of `exit` -/

/-- Removing a thread without children keeps the shape. -/
theorem Removed.tree_inv {heap heap' : Nat → Option Thread} {ready thr : Nat} {l : List Nat}
    (hremoved : Removed heap thr heap') (h : TreeInv heap ready l) (hne : thr ≠ ready)
    (hleaf : ∀ c, ¬ Child heap thr c) (hqueue : Queue heap' ready (l.erase thr)) :
    TreeInv heap' ready (l.erase thr) := by
  refine TreeInv.of_queue_inv (hremoved.queue_inv h.queue_inv hne hqueue)
    ((hremoved.head _ (Ne.symm hne)).trans h.boot) fun a t' ht' hready => ?_
  obtain ⟨hother, t, ht, hhead, -⟩ := hremoved.before ht'
  rw [← hhead]
  refine (List.Nodup.mem_erase_iff h.queue.nodup).mpr
    ⟨fun heq => hleaf a ⟨hother, ?_⟩, h.heads a t ht hready⟩
  rw [ht, Option.map_some, heq]

section Calls

variable {s : Tasks} {thr : Nat} {l : List Nat}

/-- `exit` of a thread without children removes exactly that thread. -/
theorem exit_childless (h : TreeInv s.heap s.threadReadyQueue l) (hthr : thr ∈ l)
    (hne : thr ≠ s.threadReadyQueue) (hleaf : ∀ c, ¬ Child s.heap thr c) :
    ∃ heap, (∀ n, l.length ≤ n → exit n thr s = some { s with heap := heap }) ∧
      TreeInv heap s.threadReadyQueue (l.erase thr) := by
  obtain ⟨t, ht⟩ := h.queue.allocated _ hthr
  have hzero : thr ≠ 0 := h.queue.ne_zero thr hthr
  have htail : t.tail = 0 := (h.tails thr t ht).resolve_right (hleaf _)
  let heap₁ := setThread s.heap thr { t with status := t.status ||| threadZumbi }
  have hmark : ∀ n, markZombies (n + 1) thr s.heap = some heap₁ := by
    intro n
    rw [markZombies, if_neg hzero, ht]
    change markZombies n t.tail heap₁ = some heap₁
    rw [htail, mark_zombies_zero]
  have h₁ : TreeInv heap₁ s.threadReadyQueue l := h.of_marked (hmark 0)
  have hleaf₁ : ∀ c, ¬ Child heap₁ thr c := by
    intro c hchild
    refine hleaf c ⟨hchild.1, ?_⟩
    rw [← mark_zombies_field Thread.head (fun _ _ => rfl) (hmark 0) c]
    exact hchild.2
  have ht₁ : heap₁ thr = _ := set_thread_self ..
  obtain ⟨father, hfather⟩ := h₁.queue.allocated _ (h₁.heads thr _ ht₁ hne)
  obtain ⟨heap', hqueue, hremoved, -, hleave⟩ :=
    leave_queue_eq h₁.queue_inv hthr hne ht₁ hfather
  refine ⟨heap', fun n hn => ?_, hremoved.tree_inv h₁ hne hleaf₁ hqueue⟩
  obtain ⟨n, rfl⟩ : ∃ m, n = m + 1 := by
    have := List.length_pos_of_mem hthr
    exact ⟨n - 1, by omega⟩
  have hnext : (if t.head = thr then 0 else t.tail) = 0 := by
    rw [htail, ite_self]
  simp only [exit, hmark, hleave n hn, hnext, remove_threads_zero, Option.bind_eq_bind,
    Option.bind_some]
  rfl

/-- `exit` of a thread with a child fails. -/
theorem exit_with_child (h : TreeInv s.heap s.threadReadyQueue l) (hthr : thr ∈ l)
    (hne : thr ≠ s.threadReadyQueue) {c : Nat} (hchild : Child s.heap thr c) :
    ¬ ExitsCleanly s l thr := by
  rintro ⟨s', ⟨k, hreturns⟩, l', hqueue', -, hmem, -⟩
  have hexit := hreturns (max k l.length + 1) (by omega)
  cases hmark : markZombies (max k l.length + 1) thr s.heap with
  | none =>
      simp only [exit, hmark] at hexit
      cases hexit
  | some heap₁ =>
      have h₁ : TreeInv heap₁ s.threadReadyQueue l := h.of_marked hmark
      obtain ⟨t, ht⟩ := h₁.queue.allocated _ hthr
      obtain ⟨father, hfather⟩ := h₁.queue.allocated _ (h₁.heads thr t ht hne)
      simp only [exit, hmark, Option.bind_eq_bind, Option.bind_some] at hexit
      by_cases hnext : (if t.head = thr then 0 else t.tail) = 0
      · -- only `thr` is removed, so its child is still in the queue
        obtain ⟨heap', hqueue, hremoved, -, hleave⟩ :=
          leave_queue_eq h₁.queue_inv hthr hne ht hfather
        rw [hleave (max k l.length) (by omega), hnext, remove_threads_zero] at hexit
        obtain rfl := Option.some.inj hexit
        obtain rfl := hqueue.unique hqueue'
        obtain ⟨u, hu, -⟩ := Option.map_eq_some_iff.mp hchild.2
        have hc : c ∈ l.erase thr :=
          (List.Nodup.mem_erase_iff h.queue.nodup).mpr ⟨hchild.1, h.allocated c u hu⟩
        exact ((hmem c).mp hc).2.2 (.single hchild)
      · have hhead' : t.head ≠ thr := fun heq => hnext (if_pos heq)
        rw [if_neg hhead'] at hnext
        have hready : t.tail ≠ s.threadReadyQueue := by
          intro heq
          have hboot := h₁.boot
          rw [← heq, ((h₁.tails thr t ht).resolve_left hnext).2] at hboot
          exact h.queue.ne_zero thr hthr (Option.some.inj hboot)
        rw [leave_queue_with_child h₁.queue_inv hthr hne ht hfather hhead' hnext hready
          (by omega)] at hexit
        cases hexit

/-- `exit` works exactly for the threads without children. -/
theorem exits_cleanly_iff (h : TreeInv s.heap s.threadReadyQueue l) (hthr : thr ∈ l)
    (hne : thr ≠ s.threadReadyQueue) : ExitsCleanly s l thr ↔ ∀ c, ¬ Child s.heap thr c := by
  refine ⟨fun hexits c hchild => exit_with_child h hthr hne hchild hexits, fun hleaf => ?_⟩
  obtain ⟨heap, hreturns, hinv⟩ := exit_childless h hthr hne hleaf
  have hnone : ∀ a, ¬ Descendant s.heap thr a := by
    intro a hdescendant
    obtain ⟨c, hchild, -⟩ := Relation.TransGen.head'_iff.mp hdescendant
    exact hleaf c hchild
  refine ⟨_, ⟨_, hreturns⟩, l.erase thr, hinv.queue, List.erase_sublist .., fun a => ?_,
    hinv.no_dangling⟩
  rw [List.Nodup.mem_erase_iff h.queue.nodup]
  exact ⟨fun ⟨hother, hmem⟩ => ⟨hmem, hother, hnone a⟩, fun ⟨hmem, hother, _⟩ => ⟨hother, hmem⟩⟩

/-! ### Creation -/

/-- `create_thread` returns and keeps the shape. -/
theorem create_thread_inv (h : TreeInv s.heap s.threadReadyQueue l) (r : Resources)
    (hv : s.heap r.v = none) (hzero : r.v ≠ 0) (main rsp cr3 rbx : BitVec 64) (pv : BitVec 32)
    (argc argv pwd : BitVec 64) :
    ∃ s', (∀ n, l.length ≤ n →
        createThread n r main rsp cr3 rbx pv argc argv pwd s = some (r.v, s')) ∧
      s'.threadReadyQueue = s.threadReadyQueue ∧
      TreeInv s'.heap s'.threadReadyQueue (l ++ [r.v]) := by
  obtain ⟨heap, hcall, hqueue, hinserted⟩ :=
    create_thread_spec h.queue_inv r hv hzero main rsp cr3 rbx pv argc argv pwd
  exact ⟨_, hcall, rfl, h.inserted hinserted hqueue
    (List.mem_append_right _ (List.mem_singleton.mpr rfl))⟩

/-- A child that ends up behind the last thread. -/
theorem TreeInv.child_inserted {heap heap' : Nat → Option Thread} {ready p v : Nat}
    {t thread : Thread} (h : TreeInv heap ready l) (hp : heap p = some thread) (hhead : t.head = p)
    (hqueue : QueueInv heap' ready (l ++ [v])) (hinserted : Inserted heap v t heap') :
    TreeInv heap' ready (l ++ [v]) ∧ Child heap' p v := by
  refine ⟨h.inserted hinserted hqueue ?_, Ne.symm (hinserted.ne hp), ?_⟩
  · rw [hhead]
    exact List.mem_append_left _ (h.allocated p thread hp)
  · rw [hinserted.new, Option.map_some, hhead]

/-- `create_thread_child` on a thread of the queue. -/
theorem create_thread_child_inv (h : TreeInv s.heap s.threadReadyQueue l) (r : Resources)
    (hv : s.heap r.v = none) (hzero : r.v ≠ 0) {p : Nat} {thread : Thread}
    (hp : s.heap p = some thread) (main rsp cr3 rbx : BitVec 64) (pv : BitVec 32)
    (argc argv pwd : BitVec 64) :
    ∃ s', (∀ n, l.length ≤ n →
        createThreadChild n r main rsp cr3 rbx pv argc argv pwd p s = some (r.v, s')) ∧
      s'.threadReadyQueue = s.threadReadyQueue ∧
      TreeInv s'.heap s'.threadReadyQueue (l ++ [r.v]) ∧ Child s'.heap p r.v := by
  obtain ⟨heap, t, hcall, hhead, hqueue, hinserted⟩ :=
    create_thread_child_spec h.queue_inv r hv hzero hp main rsp cr3 rbx pv argc argv pwd
  exact ⟨_, hcall, rfl, h.child_inserted hp hhead hqueue hinserted⟩

/-- `pthread_create` on a thread of the queue. -/
theorem pthread_create_inv (h : TreeInv s.heap s.threadReadyQueue l) (r : Resources)
    (hv : s.heap r.v = none) (hzero : r.v ≠ 0) {p : Nat} {thread : Thread}
    (hp : s.heap p = some thread) (main rsp : BitVec 64) (pv : BitVec 32) :
    ∃ s', (∀ n, l.length ≤ n → pthreadCreate n r main rsp pv p s = some (r.v, s')) ∧
      s'.threadReadyQueue = s.threadReadyQueue ∧
      TreeInv s'.heap s'.threadReadyQueue (l ++ [r.v]) ∧ Child s'.heap p r.v := by
  obtain ⟨heap, t, hcall, hhead, hqueue, hinserted⟩ :=
    pthread_create_spec h.queue_inv r hv hzero hp main rsp pv
  exact ⟨_, hcall, rfl, h.child_inserted hp hhead hqueue hinserted⟩

/-- The kernel thread alone has the shape. -/
theorem thread_setup_inv (r : Resources) (hzero : r.v ≠ 0) (pml4e : BitVec 64) (s : Tasks) :
    TreeInv (threadSetup r pml4e s).heap (threadSetup r pml4e s).threadReadyQueue [r.v] := by
  let heap := setThread (fun _ => none) r.v (kernelThread r pml4e)
  have hboot : heap r.v = some (kernelThread r pml4e) := set_thread_self ..
  have honly : ∀ a t, heap a = some t → a = r.v ∧ t = kernelThread r pml4e := by
    intro a t ht
    by_cases ha : a = r.v
    · rw [ha, hboot] at ht
      exact ⟨ha, (Option.some.inj ht).symm⟩
    · rw [show heap a = none from set_thread_other _ ha] at ht
      cases ht
  have hinv : TreeInv heap r.v [r.v] := by
    refine ⟨⟨rfl, hzero, _, hboot, rfl⟩, List.mem_singleton.mpr rfl,
      fun a t ht => List.mem_singleton.mpr (honly a t ht).1, by rw [hboot, Option.map_some]; rfl,
      fun a t ht hne => absurd (honly a t ht).1 hne, fun a t ht => .inl ?_, fun a t ht => ?_⟩
    · rw [(honly a t ht).2]
      rfl
    · obtain ⟨rfl, rfl⟩ := honly a t ht
      have hfather : (kernelThread r pml4e).father = false := by
        simp [Thread.father, kernelThread, newThread]
      have hhead : (kernelThread r pml4e).head = 0 := rfl
      simp [hfather, hhead, Ne.symm hzero]
  exact hinv

end Calls

/-! ### Runs -/

/-- The calls that change the tree. -/
inductive TreeCall where
  | create
  | exit (thr : Nat)

/-- One call. The address of a new thread is free. -/
inductive TreeStep : Tasks → TreeCall → Tasks → Prop where
  | createThread (s s' : Tasks) (r : Resources) (main rsp cr3 rbx : BitVec 64) (pv : BitVec 32)
      (argc argv pwd : BitVec 64) (v : Nat) : s.heap r.v = none → r.v ≠ 0 →
      Returns (fun n => Process.createThread n r main rsp cr3 rbx pv argc argv pwd s) (v, s') →
      TreeStep s .create s'
  | createThreadChild (s s' : Tasks) (r : Resources) (main rsp cr3 rbx : BitVec 64)
      (pv : BitVec 32) (argc argv pwd : BitVec 64) (p v : Nat) : s.heap r.v = none → r.v ≠ 0 →
      Returns (fun n => Process.createThreadChild n r main rsp cr3 rbx pv argc argv pwd p s)
        (v, s') →
      TreeStep s .create s'
  | pthreadCreate (s s' : Tasks) (r : Resources) (main rsp : BitVec 64) (pv : BitVec 32)
      (p v : Nat) : s.heap r.v = none → r.v ≠ 0 →
      Returns (fun n => Process.pthreadCreate n r main rsp pv p s) (v, s') →
      TreeStep s .create s'
  | exit (s s' : Tasks) (thr : Nat) : Returns (fun n => Process.exit n thr s) s' →
      TreeStep s (.exit thr) s'

/-- Only threads without children exit, and not the first one. -/
def TreeCall.Childless (s : Tasks) : TreeCall → Prop
  | .create => True
  | .exit thr => thr ≠ s.threadReadyQueue ∧ (∃ t, s.heap thr = some t) ∧
      ∀ c, ¬ Child s.heap thr c

/-- Some thread `p` was read by a create function that returned. -/
theorem creator_allocated {σ : Type} {s : Tasks} {p : Nat} {f : Thread → Nat → Option σ} {r : σ}
    (h : Returns (fun n => (s.heap p).bind fun t => f t n) r) : ∃ t, s.heap p = some t := by
  obtain ⟨k, hk⟩ := h
  obtain ⟨t, ht, -⟩ := Option.bind_eq_some_iff.mp (hk k le_rfl)
  exact ⟨t, ht⟩

theorem tree_step_inv {s s' : Tasks} {call : TreeCall} {l : List Nat}
    (h : TreeInv s.heap s.threadReadyQueue l) (hgood : call.Childless s)
    (hstep : TreeStep s call s') : ∃ l', TreeInv s'.heap s'.threadReadyQueue l' := by
  cases hstep with
  | createThread _ r main rsp cr3 rbx pv argc argv pwd v hv hzero hreturns =>
      obtain ⟨_, hcall, -, hinv⟩ :=
        create_thread_inv h r hv hzero main rsp cr3 rbx pv argc argv pwd
      obtain ⟨-, rfl⟩ := Prod.mk.inj (hreturns.unique ⟨_, hcall⟩)
      exact ⟨_, hinv⟩
  | createThreadChild _ r main rsp cr3 rbx pv argc argv pwd p v hv hzero hreturns =>
      obtain ⟨thread, hp⟩ := creator_allocated hreturns
      obtain ⟨_, hcall, -, hinv, -⟩ :=
        create_thread_child_inv h r hv hzero hp main rsp cr3 rbx pv argc argv pwd
      obtain ⟨-, rfl⟩ := Prod.mk.inj (hreturns.unique ⟨_, hcall⟩)
      exact ⟨_, hinv⟩
  | pthreadCreate _ r main rsp pv p v hv hzero hreturns =>
      obtain ⟨thread, hp⟩ := creator_allocated hreturns
      obtain ⟨_, hcall, -, hinv, -⟩ := pthread_create_inv h r hv hzero hp main rsp pv
      obtain ⟨-, rfl⟩ := Prod.mk.inj (hreturns.unique ⟨_, hcall⟩)
      exact ⟨_, hinv⟩
  | exit _ thr hreturns =>
      obtain ⟨hne, ⟨t, ht⟩, hleaf⟩ := hgood
      obtain ⟨heap, hcall, hinv⟩ := exit_childless h (h.allocated thr t ht) hne hleaf
      obtain rfl := hreturns.unique ⟨_, hcall⟩
      exact ⟨_, hinv⟩

/-- The runs from the setup on in which only childless threads exit. -/
def TreeRun (r : Resources) (pml4e : BitVec 64) (s₀ s : Tasks) : Prop :=
  Run TreeStep (fun s call => call.Childless s) (threadSetup r pml4e s₀) s

theorem tree_run_inv {r : Resources} {pml4e : BitVec 64} {s₀ s : Tasks} (hzero : r.v ≠ 0)
    (hrun : TreeRun r pml4e s₀ s) : ∃ l, TreeInv s.heap s.threadReadyQueue l :=
  Run.invariant (fun s => ∃ l, TreeInv s.heap s.threadReadyQueue l) hrun
    ⟨_, thread_setup_inv r hzero pml4e s₀⟩
    fun _ _ _ ⟨_, h⟩ hgood hstep => tree_step_inv h hgood hstep

/-- In every state reached by creating threads and by exits of threads without children, `exit` of
a thread other than the first one removes the thread with its descendants and leaves no dangling
reference if and only if the thread has no child in the queue. -/
theorem process_exit_iff (r : Resources) (pml4e : BitVec 64) (s₀ s : Tasks) (hzero : r.v ≠ 0)
    (hrun : TreeRun r pml4e s₀ s) (l : List Nat) (hl : Queue s.heap s.threadReadyQueue l)
    (thr : Nat) (hthr : thr ∈ l) (hne : thr ≠ s.threadReadyQueue) :
    ExitsCleanly s l thr ↔ ∀ c, ¬ Child s.heap thr c := by
  obtain ⟨l', h⟩ := tree_run_inv hzero hrun
  obtain rfl := h.queue.unique hl
  exact exits_cleanly_iff h hthr hne

/-- The kernel thread and a father without children. -/
theorem father_run : ∃ s, TreeRun (emptyResources 1) 0#64 zeroTasks s ∧ s.threadReadyQueue = 1 ∧
    TreeInv s.heap s.threadReadyQueue [1, 2] := by
  have hsetup := thread_setup_inv (emptyResources 1) (by decide) 0#64 zeroTasks
  have hfree := hsetup.queue_inv.free (show (2 : Nat) ∉ [1] by decide)
  obtain ⟨s, hcreate, hready, hinv⟩ := create_thread_inv hsetup (emptyResources 2) hfree
    (by decide) 0#64 0#64 0#64 0#64 1#32 0#64 0#64 0#64
  exact ⟨s, Run.refl.snoc .create trivial
    (.createThread _ _ _ _ _ _ _ _ _ _ _ _ hfree (by decide) ⟨_, hcreate⟩), hready, hinv⟩

/-- A father without children exits cleanly. -/
theorem process_exit_father : ∃ s, TreeRun (emptyResources 1) 0#64 zeroTasks s ∧
    ExitsCleanly s [1, 2] 2 := by
  obtain ⟨s, hrun, hready, hinv⟩ := father_run
  refine ⟨s, hrun, (process_exit_iff _ _ _ s (by decide) hrun _ hinv.queue 2 (by decide)
    (by rw [hready]; decide)).mpr fun c hchild => ?_⟩
  obtain ⟨t, ht, hhead⟩ := Option.map_eq_some_iff.mp hchild.2
  have hmem := hinv.allocated c t ht
  have hother := hchild.1
  -- the only thread left to be the child is the kernel thread, which nobody created
  obtain rfl : c = 1 := by
    simp at hmem
    omega
  have hboot := hinv.boot
  rw [hready, ht, Option.map_some, hhead] at hboot
  cases hboot

/-- A father with one child: its `exit` leaves the child in the queue. -/
theorem exit_father_leaves_child : ∃ s, TreeRun (emptyResources 1) 0#64 zeroTasks s ∧
    Queue s.heap s.threadReadyQueue [1, 2, 3] ∧ ¬ ExitsCleanly s [1, 2, 3] 2 := by
  obtain ⟨s, hrun, hready, hinv⟩ := father_run
  obtain ⟨father, hfather⟩ := hinv.queue.allocated 2 (by decide)
  have hfree := hinv.queue_inv.free (show (3 : Nat) ∉ [1, 2] by decide)
  obtain ⟨s', hcreate, hready', hinv', hchild⟩ := create_thread_child_inv hinv (emptyResources 3)
    hfree (by decide) hfather 0#64 0#64 0#64 0#64 1#32 0#64 0#64 0#64
  refine ⟨s', hrun.snoc .create trivial
    (.createThreadChild _ _ _ _ _ _ _ _ _ _ _ _ _ hfree (by decide) ⟨_, hcreate⟩), hinv'.queue,
    exit_with_child hinv' (by decide) ?_ hchild⟩
  rw [hready', hready]
  decide

end Sirius.Process
