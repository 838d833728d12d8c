import Sirius.Process.Communication
import Sirius.Process.ProcessTree

/-!
# Messages and the scheduler

A run mixes the messages that `commun_switch` receives with calls of `task_switch` and of the
functions that create a thread. The scheduler is alive when the ready queue is a finite list of
threads that starts with the kernel thread and holds the current one. An exit message keeps it
alive exactly when `Removable` holds for the thread with the number: `exit` does not check what
`get_thread` returns.
-/

namespace Sirius.Process

open Library

/-- The ready queue is a list of threads, none of them freed, that starts at `boot` and holds the
current thread. -/
structure Alive (boot : Nat) (s : Tasks) : Prop where
  head : s.threadReadyQueue = boot
  queue : ∃ l, Queue s.heap boot l ∧ boot ∈ l ∧ s.currentThread ∈ l

/-- What happens to the threads: a timer interrupt with the registers it saves, a message, or a call
that creates a thread. -/
inductive SchedulerEvent where
  | switch (context : Context)
  | message (argc : BitVec 64) (image : Option Image) (commun ret : Communication)
  | createThread (image : Image) (pv : BitVec 32) (argc : BitVec 64)
  | createThreadChild (image : Image) (pv : BitVec 32) (argc : BitVec 64) (thread : Nat)
  | pthreadCreate (image : Image) (pv : BitVec 32) (thread : Nat)

/-- The threads after an event. -/
def SchedulerEvent.run (n : Nat) (s : Tasks) : SchedulerEvent → Option Tasks
  | .switch context => taskSwitch n { s with context := context }
  | .message argc image commun ret => (communSwitch n argc image commun ret s).map Prod.snd
  | .createThread i pv argc =>
      (Process.createThread n i.r i.entry i.stack i.phy i.user pv argc i.arg i.pwd s).map Prod.snd
  | .createThreadChild i pv argc thread =>
      (Process.createThreadChild n i.r i.entry i.stack i.phy i.user pv argc i.arg i.pwd thread
        s).map Prod.snd
  | .pthreadCreate i pv thread =>
      (Process.pthreadCreate n i.r i.entry i.stack pv thread s).map Prod.snd

/-- The image that the event brings into memory. -/
def SchedulerEvent.image : SchedulerEvent → Option Image
  | .switch _ => none
  | .message _ image _ _ => image
  | .createThread i _ _ => some i
  | .createThreadChild i _ _ _ => some i
  | .pthreadCreate i _ _ => some i

/-- `alloc_pages` hands out an address at which no thread is. -/
def SchedulerEvent.Fresh (s : Tasks) (e : SchedulerEvent) : Prop :=
  ∀ i, e.image = some i → s.heap i.r.v = none ∧ i.r.v ≠ 0

/-- The event returns, with these threads afterwards. -/
def SchedulerStep (s : Tasks) (e : SchedulerEvent) (s' : Tasks) : Prop :=
  e.Fresh s ∧ Returns (fun n => e.run n s) s'

/-- `get_thread` finds the thread at `p`; 0 stands for none. -/
def Finds (s : Tasks) (pid : BitVec 64) (p : Nat) : Prop := Returns (fun n => getThread n pid s) p

/-- A thread for which `exit` works: it is neither the first nor the current one, its creator is
not freed, and it is a father or has no child that it waits for. -/
structure Removable (s : Tasks) (p : Nat) : Prop where
  first : p ≠ s.threadReadyQueue
  current : p ≠ s.currentThread
  thread : ∃ t, s.heap p = some t ∧ (∃ u, s.heap t.head = some u) ∧
    (t.father = true ∨ t.tail = 0)

/-- The event keeps the scheduler alive, and a request to exit a number that no thread has changes
nothing. -/
def Survives (s : Tasks) (e : SchedulerEvent) : Prop :=
  ∃ s', Returns (fun n => e.run n s) s' ∧ Alive s.threadReadyQueue s' ∧
    ∀ argc image commun ret, e = .message argc image commun ret → commun.type = communTypeExit →
      Finds s commun.pid 0 → s' = s

/-- The condition: an exit message names a thread that can be removed, and a child is made for a
thread that exists. -/
def SchedulerEvent.Harmless (s : Tasks) : SchedulerEvent → Prop
  | .message _ image commun _ =>
      (commun.type = communTypeExit → ∃ p, Finds s commun.pid p ∧ Removable s p) ∧
        (commun.type = communTypeExecChild → image.isSome → ¬ Finds s commun.pid 0)
  | .createThreadChild _ _ _ thread => ∃ t, s.heap thread = some t
  | .pthreadCreate _ _ thread => ∃ t, s.heap thread = some t
  | _ => True

/-- The runs from the setup on whose events meet the condition. -/
def SchedulerRun (r : Resources) (pml4e : BitVec 64) (s₀ s : Tasks) : Prop :=
  Run SchedulerStep (fun s e => e.Harmless s) (threadSetup r pml4e s₀) s

variable {heap heap' : Nat → Option Thread} {ready thr : Nat} {l : List Nat} {s s' : Tasks}

/-! ### The order of the `tail` pointers -/

/-- The `tail` of a thread comes later in the queue. -/
def TailsLater (heap : Nat → Option Thread) (l : List Nat) : Prop :=
  ∀ a t, heap a = some t → t.tail = 0 ∨ [a, t.tail].Sublist l

theorem TailsLater.congr (h : TailsLater heap l)
    (htail : ∀ a, (heap' a).map Thread.tail = (heap a).map Thread.tail) : TailsLater heap' l := by
  intro a t' ht'
  have hsame := htail a
  rw [ht', Option.map_some] at hsame
  obtain ⟨t, ht, heq⟩ := Option.map_eq_some_iff.mp hsame.symm
  exact heq ▸ h a t ht

/-- A new last thread comes later than its creator. -/
theorem Inserted.tails_later {v : Nat} {t : Thread} (hinserted : Inserted heap v t heap')
    (h : TailsLater heap l) (hall : ∀ a u, heap a = some u → a ∈ l) :
    TailsLater heap' (l ++ [v]) := by
  intro a t' ht'
  rcases hinserted.before ht' with ⟨-, rfl⟩ | ⟨ha, u, hu, -⟩
  · exact .inl hinserted.last
  · rcases hinserted.tail a t' ha ht' with hkept | ⟨hlast, -⟩
    · rw [hu, Option.map_some] at hkept
      rw [← Option.some.inj hkept]
      exact (h a u hu).imp_right fun hsub => hsub.trans (List.sublist_append_left l [v])
    · rw [hlast]
      exact .inr ((List.singleton_sublist.mpr (hall a u hu)).append (List.Sublist.refl [v]))

/-- The order is kept when a thread is removed. -/
theorem Removed.tails_later (hremoved : Removed heap thr heap') (h : TailsLater heap l)
    (hinv : QueueInv heap ready l) : TailsLater heap' (l.erase thr) := by
  intro a t' ht'
  obtain ⟨hother, -⟩ := hremoved.before ht'
  rcases hremoved.tail_kept hinv ht' with hzero | ⟨hself, t, ht, heq⟩
  · exact .inl hzero
  · rw [← heq] at hself ⊢
    refine (h a t ht).imp_right fun hsub => ?_
    have hkept : [a, t.tail].erase thr = [a, t.tail] :=
      List.erase_of_not_mem (by simp [Ne.symm hother, Ne.symm hself])
    rw [← hkept]
    exact hsub.erase thr

theorem mem_of_pair_sublist {p q : Nat} {l₁ l₂ : List Nat}
    (h : [p, q].Sublist (l₁ ++ p :: l₂)) (hnodup : (l₁ ++ p :: l₂).Nodup) : q ∈ l₂ := by
  obtain ⟨s₁, s₂, heq, hleft, hright⟩ := List.sublist_append_iff.mp h
  cases s₁ with
  | nil =>
      obtain rfl := heq
      exact List.singleton_sublist.mp (List.cons_sublist_cons.mp hright)
  | cons a s₁ =>
      obtain ⟨rfl, -⟩ := List.cons.inj heq
      have hp : p ∈ l₁ := hleft.subset List.mem_cons_self
      exact absurd rfl ((List.nodup_append.mp hnodup).2.2 p hp p List.mem_cons_self)

/-- The loop that marks zombies ends, since it moves on in the queue. -/
theorem mark_zombies_returns (hall : ∀ a ∈ l, ∃ t, heap a = some t) (hnodup : l.Nodup)
    (hlater : TailsLater heap l) {m p : Nat}
    (hp : p = 0 ∨ ∃ l₁ l₂, l = l₁ ++ p :: l₂ ∧ l₂.length < m) :
    ∃ heap', ∀ n, m ≤ n → markZombies n p heap = some heap' := by
  induction m generalizing p heap with
  | zero =>
      obtain rfl := hp.resolve_right fun ⟨_, _, _, hlt⟩ => Nat.not_lt_zero _ hlt
      exact ⟨heap, fun n _ => mark_zombies_zero n heap⟩
  | succ m ih =>
      rcases hp with rfl | ⟨l₁, l₂, hl, hlength⟩
      · exact ⟨heap, fun n _ => mark_zombies_zero n heap⟩
      · have hmem : p ∈ l := hl ▸ List.mem_append_right _ List.mem_cons_self
        obtain ⟨t, ht⟩ := hall p hmem
        by_cases hzero : p = 0
        · exact ⟨heap, fun n _ => hzero ▸ mark_zombies_zero n heap⟩
        have hnext : t.tail = 0 ∨ ∃ l₁ l₃, l = l₁ ++ t.tail :: l₃ ∧ l₃.length < m := by
          refine (hlater p t ht).imp_right fun hsub => ?_
          obtain ⟨x, y, hxy⟩ := List.append_of_mem (mem_of_pair_sublist (hl ▸ hsub) (hl ▸ hnodup))
          refine ⟨l₁ ++ p :: x, y, by rw [hl, hxy, List.append_assoc, List.cons_append], ?_⟩
          rw [hxy, List.length_append, List.length_cons] at hlength
          omega
        have hmarked : ∀ a, ((setThread heap p { t with status := t.status ||| threadZumbi }) a).map
            Thread.tail = (heap a).map Thread.tail := set_thread_field Thread.tail ht rfl
        obtain ⟨heap', hreturns⟩ := ih
          (fun a ha => by
            obtain ⟨u, hu⟩ := hall a ha
            by_cases heq : a = p
            · rw [heq]
              exact ⟨_, set_thread_self ..⟩
            · exact ⟨u, (set_thread_other _ heq).trans hu⟩)
          (hlater.congr hmarked) hnext
        refine ⟨heap', fun n hn => ?_⟩
        obtain ⟨n, rfl⟩ : ∃ k, n = k + 1 := ⟨n - 1, by omega⟩
        rw [markZombies, if_neg hzero, ht]
        exact hreturns n (by omega)

/-! ### Freed records -/

theorem set_thread_freed {p a : Nat} {t : Thread} (hp : heap p = some t) (ha : heap a = none)
    (u : Thread) : setThread heap p u a = none := by
  have hne : a ≠ p := by
    intro heq
    rw [heq, hp] at ha
    cases ha
  rw [set_thread_other u hne, ha]

theorem reset_father_freed {tmp a : Nat} (h : resetFather tmp heap = some heap')
    (ha : heap a = none) : heap' a = none := by
  obtain ⟨t, -, h⟩ := Option.bind_eq_some_iff.mp h
  obtain ⟨father, hfather, h⟩ := Option.bind_eq_some_iff.mp h
  rw [← Option.some.inj h]
  exact set_thread_freed hfather ha _

theorem unlink_freed {list tmp a : Nat} (h : unlink list tmp heap = some heap')
    (ha : heap a = none) : heap' a = none := by
  rw [unlink] at h
  split at h
  · rw [← Option.some.inj h]
    exact ha
  · obtain ⟨prev, hprev, h⟩ := Option.bind_eq_some_iff.mp h
    obtain ⟨t, -, h⟩ := Option.bind_eq_some_iff.mp h
    exact reset_father_freed h (set_thread_freed hprev ha _)

/-- Removing a thread frees it, and brings no freed one back. -/
theorem remove_thread_freed {n tmp next : Nat}
    (h : removeThread n ready tmp heap = some (next, heap')) {a : Nat}
    (ha : a = tmp ∨ heap a = none) : heap' a = none := by
  obtain ⟨list, -, h⟩ := Option.bind_eq_some_iff.mp h
  obtain ⟨heap₁, hunlink, h⟩ := Option.bind_eq_some_iff.mp h
  obtain ⟨t, -, h⟩ := Option.bind_eq_some_iff.mp h
  obtain ⟨-, rfl⟩ := Prod.mk.inj (Option.some.inj h)
  by_cases heq : a = tmp
  · rw [heq, Function.update_self]
  · rw [Function.update_of_ne heq]
    exact unlink_freed hunlink (ha.resolve_left heq)

theorem remove_threads_freed {n m tmp : Nat} (h : removeThreads n ready m tmp heap = some heap')
    {a : Nat} (ha : heap a = none) : heap' a = none := by
  induction m generalizing tmp heap with
  | zero =>
      rw [removeThreads] at h
      split at h
      · rw [← Option.some.inj h]
        exact ha
      · cases h
  | succ m ih =>
      rw [removeThreads] at h
      split at h
      · rw [← Option.some.inj h]
        exact ha
      · cases hremove : removeThread n ready tmp heap with
        | none =>
            rw [hremove] at h
            cases h
        | some r =>
            rw [hremove] at h
            exact ih h (remove_thread_freed hremove (Or.inr ha))

/-- `exit` frees the record of its thread. -/
theorem exit_freed {n : Nat} (h : exit n thr s = some s') (hzero : thr ≠ 0) :
    s'.heap thr = none := by
  obtain ⟨heap₁, -, h⟩ := Option.bind_eq_some_iff.mp h
  obtain ⟨heap₂, hleave, h⟩ := Option.bind_eq_some_iff.mp h
  obtain ⟨heap₃, -, hremove⟩ := Option.bind_eq_some_iff.mp hleave
  rw [← Option.some.inj h]
  show heap₂ thr = none
  cases n with
  | zero =>
      rw [removeThreads, if_neg hzero] at hremove
      cases hremove
  | succ n =>
      rw [removeThreads, if_neg hzero] at hremove
      cases hfirst : removeThread (n + 1) s.threadReadyQueue thr heap₃ with
      | none =>
          rw [hfirst] at hremove
          cases hremove
      | some r =>
          rw [hfirst] at hremove
          exact remove_threads_freed hremove (remove_thread_freed hfirst (Or.inl rfl))

/-- `exit` of the null pointer touches it. -/
theorem exit_null (h : s.heap 0 = none) (n : Nat) : exit n 0 s = none := by
  have hclear : clearTail n s.threadReadyQueue 0 s.heap = none := by
    simp [clearTail, h]
  simp only [exit, mark_zombies_zero, leaveQueue, hclear, Option.bind_eq_bind, Option.bind_some,
    Option.bind_none]

theorem exit_ready {n : Nat} (h : exit n thr s = some s') :
    s'.threadReadyQueue = s.threadReadyQueue ∧ s'.currentThread = s.currentThread := by
  obtain ⟨heap₁, -, h⟩ := Option.bind_eq_some_iff.mp h
  obtain ⟨heap₂, -, h⟩ := Option.bind_eq_some_iff.mp h
  rw [← Option.some.inj h]
  exact ⟨rfl, rfl⟩

/-! ### One event -/

/-- The invariant of the runs. -/
structure LifeInv (s : Tasks) (l : List Nat) : Prop where
  shape : QueueInv s.heap s.threadReadyQueue l
  later : TailsLater s.heap l
  boot : (s.heap s.threadReadyQueue).map Thread.head = some 0
  current : s.currentThread ∈ l

theorem LifeInv.alive (h : LifeInv s l) : Alive s.threadReadyQueue s :=
  ⟨rfl, l, h.shape.queue, h.shape.mem, h.current⟩

theorem LifeInv.null (h : LifeInv s l) : s.heap 0 = none :=
  h.shape.free fun hmem => h.shape.queue.ne_zero 0 hmem rfl

/-- A marked thread keeps its creator, its `tail` and its flags. -/
theorem marked_thread {n p a : Nat} (hmark : markZombies n p heap = some heap') {t : Thread}
    (ht : heap a = some t) : ∃ t', heap' a = some t' ∧ t'.head = t.head ∧ t'.tail = t.tail ∧
      t'.father = t.father := by
  have hhead := mark_zombies_field Thread.head (fun _ _ => rfl) hmark a
  have htail := mark_zombies_field Thread.tail (fun _ _ => rfl) hmark a
  have hfather := mark_zombies_field Thread.father (fun _ _ => rfl) hmark a
  rw [ht, Option.map_some] at hhead htail hfather
  obtain ⟨t', ht', heq⟩ := Option.map_eq_some_iff.mp hhead
  rw [ht', Option.map_some] at htail hfather
  exact ⟨t', ht', heq, Option.some.inj htail, Option.some.inj hfather⟩

/-- `exit` of a thread that can be removed takes it out of the queue. -/
theorem exit_removable (h : LifeInv s l) (hthr : Removable s thr) :
    ∃ heap, (∀ n, l.length ≤ n → exit n thr s = some { s with heap := heap }) ∧
      LifeInv { s with heap := heap } (l.erase thr) ∧ heap thr = none ∧
      ∀ t, s.heap thr = some t → ∃ marked, markZombies l.length thr s.heap = some marked ∧
        ∀ {β : Type} (field : Thread → β), (∀ t b, field { t with next := b } = field t) →
          (∀ t b, field { t with tail := b } = field t) → ∀ a, a ≠ thr →
            (heap a).map field = (marked a).map fun u => field (u.wokenAt t.head a) := by
  obtain ⟨hne, hcurrent, t, ht, ⟨father, hfather⟩, hlast⟩ := hthr
  have hmem := h.shape.allocated thr t ht
  obtain ⟨l₁, l₂, hl⟩ := List.append_of_mem hmem
  obtain ⟨heap₁, hmark⟩ := mark_zombies_returns h.shape.queue.allocated h.shape.queue.nodup h.later
    (m := l.length) (p := thr) (Or.inr ⟨l₁, l₂, hl, by rw [hl]; simp; omega⟩)
  have hmarked := hmark l.length le_rfl
  have h₁ : QueueInv heap₁ s.threadReadyQueue l := h.shape.of_marked hmarked
  have hlater₁ : TailsLater heap₁ l :=
    h.later.congr (mark_zombies_field Thread.tail (fun _ _ => rfl) hmarked)
  obtain ⟨t₁, ht₁, hhead₁, htail₁, hfather₁⟩ := marked_thread hmarked ht
  obtain ⟨father', hcreator, -⟩ := marked_thread hmarked hfather
  obtain ⟨heap', hqueue, hremoved, hfield, hleave⟩ :=
    leave_queue_eq h₁ hmem hne ht₁ (by rw [hhead₁]; exact hcreator)
  -- the loop ends after one round: a father has lost its own `tail`
  have hnext : (if t₁.head = thr then 0 else t₁.tail) = 0 := by
    rcases hlast with hisFather | hzero
    · rw [if_pos ((h₁.fathers thr t₁ ht₁).mp (hfather₁.trans hisFather))]
    · rw [htail₁, hzero, ite_self]
  -- one round of the loop removes the thread, and there is no second one
  refine ⟨heap', fun n hn => ?_, ⟨hremoved.queue_inv h₁ hne hqueue,
    hremoved.tails_later hlater₁ h₁, ?_, ?_⟩, hremoved.freed, fun u hu => ⟨heap₁, hmarked, ?_⟩⟩
  · obtain ⟨n, rfl⟩ : ∃ m, n = m + 1 := by
      have := List.length_pos_of_mem hmem
      exact ⟨n - 1, by omega⟩
    simp only [exit, hmark (n + 1) hn, hleave n hn, hnext, remove_threads_zero,
      Option.bind_eq_bind, Option.bind_some]
    rfl
  · have hboot := hremoved.head _ (Ne.symm hne)
    rw [mark_zombies_field Thread.head (fun _ _ => rfl) hmarked] at hboot
    exact hboot.trans h.boot
  · exact (List.Nodup.mem_erase_iff h.shape.queue.nodup).mpr ⟨Ne.symm hcurrent, h.current⟩
  · obtain rfl := Option.some.inj (ht.symm.trans hu)
    rw [← hhead₁]
    exact hfield

/-- When `exit` of a thread other than the first and the current one returns, the thread could be
removed. -/
theorem removable_of_returns (h : LifeInv s l) (hthr : thr ∈ l) (hne : thr ≠ s.threadReadyQueue)
    (hcurrent : thr ≠ s.currentThread) (hreturns : Returns (fun n => exit n thr s) s') :
    Removable s thr := by
  obtain ⟨k, hk⟩ := hreturns
  have hexit := hk (max k l.length + 1) (by omega)
  have hzero : thr ≠ 0 := h.shape.queue.ne_zero thr hthr
  obtain ⟨t, ht⟩ := h.shape.queue.allocated thr hthr
  refine ⟨hne, hcurrent, t, ht, ?_⟩
  obtain ⟨heap₁, hmark, hexit⟩ := Option.bind_eq_some_iff.mp hexit
  obtain ⟨heap₂, hleave, -⟩ := Option.bind_eq_some_iff.mp hexit
  have h₁ : QueueInv heap₁ s.threadReadyQueue l := h.shape.of_marked hmark
  obtain ⟨t₁, ht₁, hhead₁, htail₁, hfather₁⟩ := marked_thread hmark ht
  cases hcreator : s.heap t.head with
  | none =>
      have hgone : heap₁ t₁.head = none := by
        have hsame := mark_zombies_field Thread.head (fun _ _ => rfl) hmark t.head
        rw [hcreator, Option.map_none, Option.map_eq_none_iff] at hsame
        rw [hhead₁, hsame]
      rw [leave_queue_freed_head h₁ hthr hne ht₁ hgone (by omega)] at hleave
      cases hleave
  | some u =>
      refine ⟨⟨u, rfl⟩, ?_⟩
      by_contra hchild
      obtain ⟨hisFather, htail⟩ := not_or.mp hchild
      obtain ⟨u₁, hu₁, -⟩ := marked_thread hmark hcreator
      have hhead : t₁.head ≠ thr := fun heq =>
        hisFather (hfather₁.symm.trans ((h₁.fathers thr t₁ ht₁).mpr heq))
      have hready : t₁.tail ≠ s.threadReadyQueue := by
        intro heq
        have hlast := (h.shape.tails thr t ht).resolve_left htail
        have hboot := h.boot
        rw [← heq, htail₁, hlast.2] at hboot
        exact hzero (Option.some.inj hboot)
      rw [leave_queue_with_child h₁ hthr hne ht₁ (by rw [hhead₁]; exact hu₁) hhead
        (by rw [htail₁]; exact htail) hready (by omega)] at hleave
      cases hleave

/-- When `exit` of a thread returns and leaves the scheduler alive, the thread could be removed. -/
theorem removable_of_alive (h : LifeInv s l) (hthr : thr ∈ l)
    (hreturns : Returns (fun n => exit n thr s) s') (halive : Alive s.threadReadyQueue s') :
    Removable s thr := by
  obtain ⟨k, hk⟩ := id hreturns
  have hexit := hk k le_rfl
  have hfreed : s'.heap thr = none := exit_freed hexit (h.shape.queue.ne_zero thr hthr)
  obtain ⟨-, hcurrent⟩ := exit_ready hexit
  obtain ⟨-, l', hqueue', hboot', hcurrent'⟩ := halive
  -- a thread of the list that is left is not freed
  have hkept : ∀ a ∈ l', a ≠ thr := by
    intro a ha heq
    obtain ⟨u, hu⟩ := hqueue'.allocated a ha
    rw [heq, hfreed] at hu
    cases hu
  exact removable_of_returns h hthr (Ne.symm (hkept _ hboot'))
    (Ne.symm (hcurrent ▸ hkept _ hcurrent')) hreturns

/-- The search for a number ends at a thread of the queue or at 0. -/
theorem get_thread_spec (h : LifeInv s l) (pid : BitVec 64) :
    ∃ p, (∀ n, l.length ≤ n → getThread n pid s = some p) ∧ (p = 0 ∨ p ∈ l) := by
  refine ⟨_, fun n hn => h.shape.queue.search_eq _ hn, ?_⟩
  cases hfind : l.find? fun a => (s.heap a).any fun t => t.pid == pid with
  | none => exact Or.inl rfl
  | some p => exact Or.inr (List.mem_of_find?_eq_some hfind)

/-- `task_switch` continues with a thread of the queue. -/
theorem task_switch_life (h : LifeInv s l) (context : Context) :
    ∃ s', (∀ n, l.length ≤ n → taskSwitch n { s with context := context } = some s') ∧
      s'.threadReadyQueue = s.threadReadyQueue ∧ LifeInv s' l := by
  obtain ⟨t, p, u, ht, -, hmem, -, hcall⟩ :=
    task_switch_spec (s := { s with context := context }) h.shape.queue h.current
  have hkeep : ∀ {β : Type} (field : Thread → β), field (t.saveContext context) = field t → ∀ a,
      (setThread s.heap s.currentThread (t.saveContext context) a).map field =
        (s.heap a).map field :=
    fun field hfield => set_thread_field field ht hfield
  exact ⟨_, hcall, rfl, h.shape.congr (hkeep _ rfl) (hkeep _ rfl) (hkeep _ rfl) (hkeep _ rfl),
    h.later.congr (hkeep _ rfl), (hkeep _ rfl _).trans h.boot, hmem⟩

/-- A new last thread keeps the invariant. -/
theorem LifeInv.inserted (h : LifeInv s l) {v : Nat} {t : Thread}
    (hinserted : Inserted s.heap v t s'.heap)
    (hqueue : QueueInv s'.heap s.threadReadyQueue (l ++ [v]))
    (hready : s'.threadReadyQueue = s.threadReadyQueue)
    (hcurrent : s'.currentThread = s.currentThread) : LifeInv s' (l ++ [v]) where
  shape := by rw [hready]; exact hqueue
  later := hinserted.tails_later h.later h.shape.allocated
  boot := by
    obtain ⟨u, hu⟩ := h.shape.queue.allocated _ h.shape.mem
    rw [hready, hinserted.head _ (hinserted.ne hu)]
    exact h.boot
  current := by
    rw [hcurrent]
    exact List.mem_append_left _ h.current

/-- The result of an event that keeps the invariant. -/
def Lives (f : Nat → Option Tasks) (s : Tasks) : Prop :=
  ∃ s' l', Returns f s' ∧ s'.threadReadyQueue = s.threadReadyQueue ∧ LifeInv s' l'

theorem create_thread_lives (h : LifeInv s l) (i : Image) (hv : s.heap i.r.v = none)
    (hzero : i.r.v ≠ 0) (pv : BitVec 32) (argc : BitVec 64) :
    Lives (fun n => (SchedulerEvent.createThread i pv argc).run n s) s := by
  obtain ⟨heap, hcall, hqueue, hinserted⟩ := create_thread_spec h.shape i.r hv hzero i.entry i.stack
    i.phy i.user pv argc i.arg i.pwd
  refine ⟨{ s with nextPid := s.nextPid + 1, heap := heap }, _, ⟨l.length, fun n hn => ?_⟩, rfl,
    h.inserted hinserted hqueue rfl rfl⟩
  simp only [SchedulerEvent.run, hcall n hn, Option.map_some]

theorem create_thread_child_lives (h : LifeInv s l) (i : Image) (hv : s.heap i.r.v = none)
    (hzero : i.r.v ≠ 0) (pv : BitVec 32) (argc : BitVec 64) {p : Nat} {t : Thread}
    (hp : s.heap p = some t) :
    Lives (fun n => (SchedulerEvent.createThreadChild i pv argc p).run n s) s := by
  obtain ⟨heap, _, hcall, -, hqueue, hinserted⟩ := create_thread_child_spec h.shape i.r hv hzero hp
    i.entry i.stack i.phy i.user pv argc i.arg i.pwd
  refine ⟨{ s with nextPid := s.nextPid + 1, heap := heap }, _, ⟨l.length, fun n hn => ?_⟩, rfl,
    h.inserted hinserted hqueue rfl rfl⟩
  simp only [SchedulerEvent.run, hcall n hn, Option.map_some]

theorem pthread_create_lives (h : LifeInv s l) (i : Image) (hv : s.heap i.r.v = none)
    (hzero : i.r.v ≠ 0) (pv : BitVec 32) {p : Nat} {t : Thread} (hp : s.heap p = some t) :
    Lives (fun n => (SchedulerEvent.pthreadCreate i pv p).run n s) s := by
  obtain ⟨heap, _, hcall, -, hqueue, hinserted⟩ := pthread_create_spec h.shape i.r hv hzero hp
    i.entry i.stack pv
  refine ⟨{ s with nextPid := s.nextPid + 1, heap := heap }, _, ⟨l.length, fun n hn => ?_⟩, rfl,
    h.inserted hinserted hqueue rfl rfl⟩
  simp only [SchedulerEvent.run, hcall n hn, Option.map_some]

/-! ### Messages -/

section Messages

variable {argc : BitVec 64} {image : Option Image} {commun ret : Communication}

/-- An exit message. -/
theorem commun_switch_exit (htype : commun.type = communTypeExit) (n : Nat) :
    communSwitch n argc image commun ret s =
      (getThread n commun.pid s).bind fun thread =>
        (exit n thread s).map fun s => (ret.withText "exit\n", s) := by
  obtain ⟨hreboot, hpoweroff⟩ : communTypeExit ≠ communTypeReboot ∧
      communTypeExit ≠ communTypePoweroff := by decide
  rw [communSwitch, htype, if_neg hreboot, if_neg hpoweroff, if_pos rfl]
  cases getThread n commun.pid s with
  | none => rfl
  | some thread => cases h : exit n thread s <;> simp [h]

/-- A message that creates a child. -/
theorem commun_switch_exec_child (htype : commun.type = communTypeExecChild) (n : Nat) :
    (communSwitch n argc image commun ret s).map Prod.snd =
      (getThread n commun.pid s).bind fun thread =>
        (exectveChild n argc image thread s).map Prod.snd := by
  obtain ⟨hreboot, hpoweroff, hexit, hfoco, hexec⟩ : communTypeExecChild ≠ communTypeReboot ∧
      communTypeExecChild ≠ communTypePoweroff ∧ communTypeExecChild ≠ communTypeExit ∧
      communTypeExecChild ≠ communTypeFoco ∧ communTypeExecChild ≠ communTypeExec := by decide
  rw [communSwitch, htype, if_neg hreboot, if_neg hpoweroff, if_neg hexit, if_neg hfoco,
    if_neg hexec, if_pos rfl]
  cases getThread n commun.pid s with
  | none => rfl
  | some thread =>
      cases h : exectveChild n argc image thread s with
      | none => simp [h]
      | some r =>
          by_cases hpid : r.1 = 0#64 <;> simp [h, hpid]

/-- A message that creates a process. -/
theorem commun_switch_exec (htype : commun.type = communTypeExec) (n : Nat) :
    (communSwitch n argc image commun ret s).map Prod.snd =
      ((exectve n 0#64 image { s with threadId := commun.apid }).map Prod.snd).map fun s =>
        { s with threadId := 0#64 } := by
  obtain ⟨hreboot, hpoweroff, hexit, hfoco⟩ : communTypeExec ≠ communTypeReboot ∧
      communTypeExec ≠ communTypePoweroff ∧ communTypeExec ≠ communTypeExit ∧
      communTypeExec ≠ communTypeFoco := by decide
  rw [communSwitch, htype, if_neg hreboot, if_neg hpoweroff, if_neg hexit, if_neg hfoco, if_pos rfl]
  cases exectve n 0#64 image { s with threadId := commun.apid } <;> simp

theorem exectve_life (h : LifeInv s l) (argc : BitVec 64)
    (hfresh : ∀ i, image = some i → s.heap i.r.v = none ∧ i.r.v ≠ 0) :
    ∃ s' l', (∀ n, l.length ≤ n → (exectve n argc image s).map Prod.snd = some s') ∧
      s'.threadReadyQueue = s.threadReadyQueue ∧ LifeInv s' l' := by
  cases image with
  | none => exact ⟨s, l, fun _ _ => rfl, rfl, h⟩
  | some i =>
      obtain ⟨hv, hzero⟩ := hfresh i rfl
      obtain ⟨heap, hcall, hqueue, hinserted⟩ := create_thread_spec h.shape i.r hv hzero i.entry
        i.stack i.phy i.user 0x11#32 argc i.arg i.pwd
      refine ⟨{ s with nextPid := s.nextPid + 1, heap := heap }, _, fun n hn => ?_, rfl,
        h.inserted hinserted hqueue rfl rfl⟩
      simp only [exectve, hcall n hn, Option.bind_eq_bind, Option.bind_some, hinserted.new]
      rfl

theorem exectve_child_life (h : LifeInv s l) (argc : BitVec 64)
    (hfresh : ∀ i, image = some i → s.heap i.r.v = none ∧ i.r.v ≠ 0) {p : Nat}
    (hp : image.isSome → ∃ t, s.heap p = some t) :
    ∃ s' l', (∀ n, l.length ≤ n → (exectveChild n argc image p s).map Prod.snd = some s') ∧
      s'.threadReadyQueue = s.threadReadyQueue ∧ LifeInv s' l' := by
  cases image with
  | none => exact ⟨s, l, fun _ _ => rfl, rfl, h⟩
  | some i =>
      obtain ⟨hv, hzero⟩ := hfresh i rfl
      obtain ⟨t, ht⟩ := hp rfl
      obtain ⟨heap, _, hcall, -, hqueue, hinserted⟩ := create_thread_child_spec h.shape i.r hv hzero
        ht i.entry i.stack i.phy i.user 0x1#32 argc i.arg i.pwd
      refine ⟨{ s with nextPid := s.nextPid + 1, heap := heap }, _, fun n hn => ?_, rfl,
        h.inserted hinserted hqueue rfl rfl⟩
      simp only [exectveChild, hcall n hn, Option.bind_eq_bind, Option.bind_some, hinserted.new]
      rfl

/-- A message that meets the condition keeps the invariant. -/
theorem message_lives (h : LifeInv s l)
    (hfresh : ∀ i, image = some i → s.heap i.r.v = none ∧ i.r.v ≠ 0)
    (hexit : commun.type = communTypeExit → ∃ p, Finds s commun.pid p ∧ Removable s p)
    (hchild : commun.type = communTypeExecChild → image.isSome → ¬ Finds s commun.pid 0) :
    Lives (fun n => (SchedulerEvent.message argc image commun ret).run n s) s := by
  have hsame : ∀ {f : Nat → Option Tasks}, (∀ n, l.length ≤ n → f n = some s) → Lives f s :=
    fun hf => ⟨s, l, ⟨l.length, hf⟩, rfl, h⟩
  obtain ⟨p, hget, hp⟩ := get_thread_spec h commun.pid
  have hfinds : Finds s commun.pid p := ⟨l.length, hget⟩
  by_cases htype : commun.type = communTypeExit
  · obtain ⟨q, hq, hremovable⟩ := hexit htype
    obtain rfl := hq.unique hfinds
    obtain ⟨heap, hcall, hlife, -⟩ := exit_removable h hremovable
    refine ⟨{ s with heap := heap }, _, ⟨l.length, fun n hn => ?_⟩, rfl, hlife⟩
    simp only [SchedulerEvent.run, commun_switch_exit htype, hget n hn, Option.bind_some,
      hcall n hn, Option.map_some]
  -- a child is made for the thread that was found, if the image loads
  by_cases hexec : commun.type = communTypeExecChild
  · have hthread : image.isSome → ∃ t, s.heap p = some t := fun himage => by
      refine h.shape.queue.allocated p (hp.resolve_left fun hzero => ?_)
      exact hchild hexec himage (hzero ▸ hfinds)
    obtain ⟨s', l', hcall, hready, hlife⟩ := exectve_child_life h argc hfresh hthread
    refine ⟨s', l', ⟨l.length, fun n hn => ?_⟩, hready, hlife⟩
    simp only [SchedulerEvent.run, commun_switch_exec_child hexec, hget n hn, Option.bind_some,
      hcall n hn]
  -- the other messages leave the threads alone, or create a process
  by_cases hreboot : commun.type = communTypeReboot
  · refine hsame fun n _ => ?_
    rw [SchedulerEvent.run, communSwitch, if_pos hreboot]
    rfl
  by_cases hpoweroff : commun.type = communTypePoweroff
  · refine hsame fun n _ => ?_
    rw [SchedulerEvent.run, communSwitch, if_neg hreboot, if_pos hpoweroff]
    rfl
  by_cases hfoco : commun.type = communTypeFoco
  · refine hsame fun n hn => ?_
    have hsearch : foco n commun.apid s = _ := h.shape.queue.search_eq _ hn
    rw [SchedulerEvent.run, communSwitch, if_neg hreboot, if_neg hpoweroff, if_neg htype,
      if_pos hfoco, hsearch]
    rfl
  by_cases hexecve : commun.type = communTypeExec
  · have hset : LifeInv { s with threadId := commun.apid } l :=
      ⟨h.shape, h.later, h.boot, h.current⟩
    obtain ⟨s', l', hcall, hready, hlife⟩ := exectve_life hset 0#64 hfresh
    refine ⟨{ s' with threadId := 0#64 }, l', ⟨l.length, fun n hn => ?_⟩, hready,
      ⟨hlife.shape, hlife.later, hlife.boot, hlife.current⟩⟩
    simp only [SchedulerEvent.run, commun_switch_exec hexecve, hcall n hn, Option.map_some]
  · refine hsame fun n _ => ?_
    rw [SchedulerEvent.run, communSwitch, if_neg hreboot, if_neg hpoweroff, if_neg htype,
      if_neg hfoco, if_neg hexecve, if_neg hexec]
    rfl

end Messages

/-! ### Runs -/

/-- An event that meets the condition keeps the invariant. -/
theorem event_lives (h : LifeInv s l) {e : SchedulerEvent} (hfresh : e.Fresh s)
    (hgood : e.Harmless s) : Lives (fun n => e.run n s) s := by
  cases e with
  | switch context =>
      obtain ⟨s', hcall, hready, hlife⟩ := task_switch_life h context
      exact ⟨s', l, ⟨l.length, hcall⟩, hready, hlife⟩
  | message argc image commun ret => exact message_lives h hfresh hgood.1 hgood.2
  | createThread i pv argc =>
      obtain ⟨hv, hzero⟩ := hfresh i rfl
      exact create_thread_lives h i hv hzero pv argc
  | createThreadChild i pv argc thread =>
      obtain ⟨hv, hzero⟩ := hfresh i rfl
      obtain ⟨t, ht⟩ := hgood
      exact create_thread_child_lives h i hv hzero pv argc ht
  | pthreadCreate i pv thread =>
      obtain ⟨hv, hzero⟩ := hfresh i rfl
      obtain ⟨t, ht⟩ := hgood
      exact pthread_create_lives h i hv hzero pv ht

/-- An exit message after which the scheduler is alive names a thread that can be removed. -/
theorem exit_harmless (h : LifeInv s l) {argc : BitVec 64} {image : Option Image}
    {commun ret : Communication} (htype : commun.type = communTypeExit)
    (hreturns : Returns (fun n => (SchedulerEvent.message argc image commun ret).run n s) s')
    (halive : Alive s.threadReadyQueue s') : ∃ p, Finds s commun.pid p ∧ Removable s p := by
  obtain ⟨p, hget, hp⟩ := get_thread_spec h commun.pid
  obtain ⟨k, hk⟩ := hreturns
  have hexit : ∀ n, max k l.length ≤ n → exit n p s = some s' := by
    intro n hn
    have hrun := hk n (by omega)
    simp only [SchedulerEvent.run, commun_switch_exit htype, hget n (by omega), Option.bind_some,
      Option.map_map, Option.map_eq_some_iff] at hrun
    obtain ⟨s'', hcall, rfl⟩ := hrun
    exact hcall
  refine ⟨p, ⟨l.length, hget⟩, ?_⟩
  rcases hp with rfl | hmem
  · have hnull := hexit _ le_rfl
    rw [exit_null h.null] at hnull
    cases hnull
  · exact removable_of_alive h hmem ⟨_, hexit⟩ halive

/-- A message that creates a child for no thread touches the null pointer. -/
theorem exec_child_harmless (h : LifeInv s l) {argc : BitVec 64} {image : Option Image}
    {commun ret : Communication} (htype : commun.type = communTypeExecChild)
    (himage : image.isSome)
    (hreturns : Returns (fun n => (SchedulerEvent.message argc image commun ret).run n s) s') :
    ¬ Finds s commun.pid 0 := by
  rintro ⟨k, hfinds⟩
  obtain ⟨m, hm⟩ := hreturns
  obtain ⟨i, rfl⟩ := Option.isSome_iff_exists.mp himage
  have hnone : ∀ n, exectveChild n argc (some i) 0 s = none := by
    intro n
    simp [exectveChild, createThreadChild, h.null]
  have hrun := hm (max k m) (by omega)
  have hget : getThread (max k m) commun.pid s = some 0 := hfinds _ (by omega)
  simp only [SchedulerEvent.run, commun_switch_exec_child htype, hget, Option.bind_some, hnone,
    Option.map_none] at hrun
  cases hrun

/-- The next event keeps the scheduler alive exactly when it meets the condition. -/
theorem survives_iff (h : LifeInv s l) {e : SchedulerEvent} (hfresh : e.Fresh s) :
    Survives s e ↔ e.Harmless s := by
  constructor
  · rintro ⟨s', hreturns, halive, -⟩
    cases e with
    | switch context => trivial
    | createThread i pv argc => trivial
    | message argc image commun ret =>
        exact ⟨fun htype => exit_harmless h htype hreturns halive,
          fun htype himage => exec_child_harmless h htype himage hreturns⟩
    | createThreadChild i pv argc thread =>
        obtain ⟨k, hk⟩ := hreturns
        cases ht : s.heap thread with
        | none =>
            have hrun := hk k le_rfl
            simp [SchedulerEvent.run, createThreadChild, ht] at hrun
        | some t => exact ⟨t, ht⟩
    | pthreadCreate i pv thread =>
        obtain ⟨k, hk⟩ := hreturns
        cases ht : s.heap thread with
        | none =>
            have hrun := hk k le_rfl
            simp [SchedulerEvent.run, pthreadCreate, ht] at hrun
        | some t => exact ⟨t, ht⟩
  · intro hgood
    obtain ⟨s', l', hreturns, hready, hlife⟩ := event_lives h hfresh hgood
    refine ⟨s', hreturns, hready ▸ hlife.alive, ?_⟩
    rintro argc image commun ret rfl htype hunknown
    -- a number that no thread has is not removable
    obtain ⟨p, hfinds, hremovable⟩ := hgood.1 htype
    obtain rfl := hfinds.unique hunknown
    obtain ⟨t, ht, -⟩ := hremovable.thread
    rw [h.null] at ht
    cases ht

theorem thread_setup_life (r : Resources) (hzero : r.v ≠ 0) (pml4e : BitVec 64) (s₀ : Tasks) :
    LifeInv (threadSetup r pml4e s₀) [r.v] := by
  have htree := thread_setup_inv r hzero pml4e s₀
  refine ⟨htree.queue_inv, fun a t ht => .inl ?_, htree.boot, List.mem_singleton.mpr rfl⟩
  obtain rfl := List.mem_singleton.mp (htree.allocated a t ht)
  have hself : (threadSetup r pml4e s₀).heap r.v = some (kernelThread r pml4e) :=
    set_thread_self (fun _ => none) r.v (kernelThread r pml4e)
  obtain rfl := Option.some.inj (hself.symm.trans ht)
  rfl

theorem scheduler_run_inv {r : Resources} {pml4e : BitVec 64} {s₀ : Tasks} (hzero : r.v ≠ 0)
    (hrun : SchedulerRun r pml4e s₀ s) : s.threadReadyQueue = r.v ∧ ∃ l, LifeInv s l := by
  refine Run.invariant (fun s => s.threadReadyQueue = r.v ∧ ∃ l, LifeInv s l) hrun
    ⟨rfl, _, thread_setup_life r hzero pml4e s₀⟩ ?_
  rintro s e s' ⟨hready, l, h⟩ hgood ⟨hfresh, hreturns⟩
  obtain ⟨s'', l', hreturns', hready', hlife⟩ := event_lives h hfresh hgood
  obtain rfl := hreturns.unique hreturns'
  exact ⟨hready'.trans hready, l', hlife⟩

/-- In every state of a run of messages, switches and creations that meet the condition, the ready
queue is a finite list that starts at the kernel thread and holds the current thread. The next event
keeps this exactly when it meets the condition. -/
theorem exit_messages_alive (r : Resources) (pml4e : BitVec 64) (s₀ s : Tasks) (hzero : r.v ≠ 0)
    (hrun : SchedulerRun r pml4e s₀ s) :
    Alive r.v s ∧ ∀ e : SchedulerEvent, e.Fresh s → (Survives s e ↔ e.Harmless s) := by
  obtain ⟨hready, l, h⟩ := scheduler_run_inv hzero hrun
  exact ⟨hready ▸ h.alive, fun e hfresh => survives_iff h hfresh⟩

/-- A message with a type and a number. -/
def messageOf (type pid : BitVec 64) : Communication := ⟨type, pid, 0#64, fun _ => 0#8⟩

/-- A process is created and exits. -/
theorem exit_messages_alive_process : ∃ s, SchedulerRun (emptyResources 1) 0#64 zeroTasks s ∧
    Queue s.heap 1 [1, 2] ∧
    Survives s (.message 0#64 none (messageOf communTypeExit 1#64) (messageOf 0#64 0#64)) := by
  have hsetup := thread_setup_life (emptyResources 1) Nat.one_ne_zero 0#64 zeroTasks
  generalize hs : threadSetup (emptyResources 1) 0#64 zeroTasks = s at hsetup
  have hpids : s.threadReadyQueue = 1 ∧ s.currentThread = 1 ∧ s.nextPid = 1#64 ∧
      (s.heap 1).map Thread.pid = some 0#64 := by
    rw [← hs]
    exact ⟨rfl, rfl, rfl, rfl⟩
  obtain ⟨hready, hcurrent, hnext, hkernel⟩ := hpids
  have hfree : s.heap 2 = none := hsetup.shape.free (by decide)
  let i := emptyImage 2
  obtain ⟨heap, hcall, hqueue, hinserted⟩ := create_thread_spec hsetup.shape i.r hfree (by decide)
    i.entry i.stack i.phy i.user 0x11#32 0#64 i.arg i.pwd
  let s' : Tasks := { s with nextPid := s.nextPid + 1, heap := heap }
  have hrun : SchedulerRun (emptyResources 1) 0#64 zeroTasks s' := by
    rw [SchedulerRun, hs]
    refine Run.refl.snoc (.createThread i 0x11#32 0#64) trivial
      ⟨fun i hi => ?_, 1, fun n hn => ?_⟩
    · cases hi
      exact ⟨hfree, by decide⟩
    · simp only [SchedulerEvent.run, hcall n hn, Option.map_some]
      rfl
  have hlist : Queue heap 1 [1, 2] := by
    have hlist := hqueue.queue
    rw [hready] at hlist
    exact hlist
  obtain ⟨t, ht, hpid⟩ := Option.map_eq_some_iff.mp
    ((hinserted.pid 1 (by decide)).trans hkernel)
  have hnew : heap 2 = some (fatherThread i.r i.entry i.stack i.phy i.user 0x11#32 0#64 i.arg i.pwd
    s) := hinserted.new
  -- the second thread has the number 1
  have hfinds : Finds s' 1#64 2 := by
    refine ⟨2, fun n hn => ?_⟩
    have hsearch : getThread n 1#64 s' = _ := hqueue.queue.search_eq _ hn
    have hfather : (fatherThread i.r i.entry i.stack i.phy i.user 0x11#32 0#64 i.arg i.pwd s).pid =
      1#64 := hnext
    have hkernelPid : (t.pid == 1#64) = false := by rw [hpid]; rfl
    refine hsearch.trans (congrArg some ?_)
    show (List.find? _ [1, 2]).getD 0 = 2
    simp only [List.find?_cons, ht, hnew, Option.any_some, hkernelPid, hfather, beq_self_eq_true,
      Option.getD_some]
  have hgood : SchedulerEvent.Harmless s'
      (.message 0#64 none (messageOf communTypeExit 1#64) (messageOf 0#64 0#64)) := by
    refine ⟨fun _ => ⟨2, hfinds, ?_, ?_, _, hnew, ⟨_, hnew⟩, Or.inr rfl⟩,
      fun htype => absurd htype (by decide)⟩
    · rw [show s'.threadReadyQueue = 1 from hready]
      decide
    · rw [show s'.currentThread = 1 from hcurrent]
      decide
  exact ⟨s', hrun, hlist,
    ((exit_messages_alive _ _ _ _ Nat.one_ne_zero hrun).2 _ fun _ hi => by cases hi).mpr hgood⟩

/-- A message for a number that no thread has touches the null pointer, and one for the number 0
frees the kernel thread. -/
theorem exit_messages_fail :
    let s := threadSetup (emptyResources 1) 0#64 zeroTasks
    (∀ n, communSwitch (n + 1) 0#64 none (messageOf communTypeExit 99#64) (messageOf 0#64 0#64) s =
      none) ∧
    ¬ Survives s (.message 0#64 none (messageOf communTypeExit 99#64) (messageOf 0#64 0#64)) ∧
    ¬ Survives s (.message 0#64 none (messageOf communTypeExit 0#64) (messageOf 0#64 0#64)) := by
  have h := thread_setup_life (emptyResources 1) Nat.one_ne_zero 0#64 zeroTasks
  have hunknown : ∀ n, getThread (n + 1) 99#64 (threadSetup (emptyResources 1) 0#64 zeroTasks) =
      some 0 := fun n => h.shape.queue.search_eq _ (Nat.le_add_left 1 n)
  have hkernel : ∀ n, getThread (n + 1) 0#64 (threadSetup (emptyResources 1) 0#64 zeroTasks) =
      some 1 := fun n => h.shape.queue.search_eq _ (Nat.le_add_left 1 n)
  refine ⟨fun n => ?_, fun hsurvives => ?_, fun hsurvives => ?_⟩
  · rw [commun_switch_exit rfl, show (messageOf communTypeExit 99#64).pid = 99#64 from rfl,
      hunknown, Option.bind_some, exit_null h.null, Option.map_none]
  · obtain ⟨p, ⟨k, hfinds⟩, hremovable⟩ :=
      ((survives_iff h fun _ hi => by cases hi).mp hsurvives).1 rfl
    obtain rfl := Option.some.inj ((hfinds (k + 1) (by omega)).symm.trans (hunknown k))
    obtain ⟨t, ht, -⟩ := hremovable.thread
    rw [h.null] at ht
    cases ht
  · obtain ⟨p, ⟨k, hfinds⟩, hremovable⟩ :=
      ((survives_iff h fun _ hi => by cases hi).mp hsurvives).1 rfl
    obtain rfl := Option.some.inj ((hfinds (k + 1) (by omega)).symm.trans (hkernel k))
    exact hremovable.first rfl

end Sirius.Process
