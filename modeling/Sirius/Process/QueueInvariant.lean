import Sirius.Process.Exit

/-!
# The shape of the ready queue

`QueueInv` is what the functions that create a thread and `exit` keep of the ready queue and of the
family pointers, as long as `exit` is called for a thread that `Removable` describes. It says
nothing about `head`: a father that exits leaves children whose creator is freed.
-/

namespace Sirius.Process

open Library

/-- `c` was created by `p`. -/
def Child (heap : Nat → Option Thread) (p c : Nat) : Prop :=
  c ≠ p ∧ (heap c).map Thread.head = some p

/-- The shape of the queue and the family pointers. -/
structure QueueInv (heap : Nat → Option Thread) (ready : Nat) (l : List Nat) : Prop where
  queue : Queue heap ready l
  mem : ready ∈ l
  allocated : ∀ a t, heap a = some t → a ∈ l
  tails : ∀ a t, heap a = some t → t.tail = 0 ∨ Child heap a t.tail
  fathers : ∀ a t, heap a = some t → (t.father = true ↔ t.head = a)

namespace QueueInv

variable {heap heap' : Nat → Option Thread} {ready : Nat} {l : List Nat}

theorem tail_ne_self (h : QueueInv heap ready l) {a : Nat} {t : Thread} (ht : heap a = some t) :
    t.tail ≠ a := by
  have hmem := h.queue.ne_zero _ (h.allocated a t ht)
  rcases h.tails a t ht with hzero | hchild
  · omega
  · exact hchild.1

theorem free (h : QueueInv heap ready l) {a : Nat} (ha : a ∉ l) : heap a = none := by
  cases hcell : heap a with
  | none => rfl
  | some t => exact absurd (h.allocated a t hcell) ha

/-- The shape depends on the links, the creators, the `tail` pointers and the flags of fathers. -/
theorem congr (h : QueueInv heap ready l)
    (hnext : ∀ a, (heap' a).map Thread.next = (heap a).map Thread.next)
    (hhead : ∀ a, (heap' a).map Thread.head = (heap a).map Thread.head)
    (htail : ∀ a, (heap' a).map Thread.tail = (heap a).map Thread.tail)
    (hfather : ∀ a, (heap' a).map Thread.father = (heap a).map Thread.father) :
    QueueInv heap' ready l := by
  -- the thread an address held before, with the same pointers
  have hbefore : ∀ a t', heap' a = some t' → ∃ t, heap a = some t ∧ t.head = t'.head ∧
      t.tail = t'.tail ∧ t.father = t'.father := by
    intro a t' ht'
    have hh := hhead a
    have ht := htail a
    have hf := hfather a
    rw [ht', Option.map_some] at hh ht hf
    obtain ⟨t, hsome, heq⟩ := Option.map_eq_some_iff.mp hh.symm
    rw [hsome, Option.map_some] at ht hf
    exact ⟨t, hsome, heq, (Option.some.inj ht).symm, (Option.some.inj hf).symm⟩
  refine ⟨h.queue.congr fun a _ => hnext a, h.mem, fun a t' ht' => ?_, fun a t' ht' => ?_,
    fun a t' ht' => ?_⟩
  · obtain ⟨t, ht, -⟩ := hbefore a t' ht'
    exact h.allocated a t ht
  · obtain ⟨t, ht, -, heq, -⟩ := hbefore a t' ht'
    rw [← heq]
    exact (h.tails a t ht).imp_right fun hchild => ⟨hchild.1, (hhead _).trans hchild.2⟩
  · obtain ⟨t, ht, heq, -, hfath⟩ := hbefore a t' ht'
    rw [← hfath, ← heq]
    exact h.fathers a t ht

/-- Marking zombies keeps the shape. -/
theorem of_marked (h : QueueInv heap ready l) {n p : Nat}
    (hmark : markZombies n p heap = some heap') : QueueInv heap' ready l :=
  h.congr (mark_zombies_field Thread.next (fun _ _ => rfl) hmark)
    (mark_zombies_field Thread.head (fun _ _ => rfl) hmark)
    (mark_zombies_field Thread.tail (fun _ _ => rfl) hmark)
    (mark_zombies_field Thread.father (fun _ _ => rfl) hmark)

end QueueInv

/-! ### One call of `exit` -/

/-- `thr` is gone; the other threads keep their creators and flags and keep or lose their `tail`.
Nothing is left of the `tail` of the creator. -/
structure Removed (heap : Nat → Option Thread) (thr : Nat) (heap' : Nat → Option Thread) :
    Prop where
  freed : heap' thr = none
  head : ∀ a, a ≠ thr → (heap' a).map Thread.head = (heap a).map Thread.head
  father : ∀ a, a ≠ thr → (heap' a).map Thread.father = (heap a).map Thread.father
  tail : ∀ a t', a ≠ thr → heap' a = some t' →
    t'.tail = 0 ∨ (heap a).map Thread.tail = some t'.tail
  creator : ∀ t, heap thr = some t → t.head ≠ thr → (heap' t.head).map Thread.tail = some 0

/-- The thread that an address held before, with the same creator and flags. -/
theorem Removed.before {heap heap' : Nat → Option Thread} {thr a : Nat} {t' : Thread}
    (h : Removed heap thr heap') (ht' : heap' a = some t') :
    a ≠ thr ∧ ∃ t, heap a = some t ∧ t.head = t'.head ∧ t.father = t'.father := by
  have hother : a ≠ thr := by
    intro heq
    rw [heq, h.freed] at ht'
    cases ht'
  have hhead := h.head a hother
  have hfather := h.father a hother
  rw [ht', Option.map_some] at hhead hfather
  obtain ⟨t, ht, heq⟩ := Option.map_eq_some_iff.mp hhead.symm
  rw [ht, Option.map_some] at hfather
  exact ⟨hother, t, ht, heq, (Option.some.inj hfather).symm⟩

section Exit

variable {heap : Nat → Option Thread} {ready thr : Nat} {l : List Nat}

theorem clear_tail_spec (h : QueueInv heap ready l) {t : Thread} (ht : heap thr = some t) :
    ∃ heap', (∀ n, l.length ≤ n → clearTail n ready thr heap = some heap') ∧
      SameFamily heap heap' ∧ heap' thr = some t ∧
      ∀ {β : Type} (field : Thread → β), (∀ t b, field { t with tail := b } = field t) →
        ∀ a, (heap' a).map field = (heap a).map field := by
  cases hfather : t.father with
  | true =>
      refine ⟨heap, fun n _ => ?_, SameFamily.refl, ht, fun _ _ _ => rfl⟩
      simp [clearTail, ht, hfather]
  | false =>
      have hsearch := fun n hn => h.queue.search_eq (fun t => t.tail == thr) (n := n) hn
      cases hfind : l.find? fun a => (heap a).any fun t => t.tail == thr with
      | none =>
          refine ⟨heap, fun n hn => ?_, SameFamily.refl, ht, fun _ _ _ => rfl⟩
          simp [clearTail, ht, searchQueue, hsearch n hn, hfind]
      | some q =>
          have hq := h.queue.ne_zero q (List.mem_of_find?_eq_some hfind)
          obtain ⟨u, hu⟩ := h.queue.allocated q (List.mem_of_find?_eq_some hfind)
          have htail := List.find?_some hfind
          rw [hu, Option.any_some, beq_iff_eq] at htail
          have hne : thr ≠ q := by
            intro heq
            rw [heq] at htail
            exact h.tail_ne_self hu htail
          refine ⟨setThread heap q { u with tail := 0 }, fun n hn => ?_,
            SameFamily.set hu rfl rfl (.inl rfl), ?_,
            fun field hfield => set_thread_field field hu (hfield u 0)⟩
          · simp [clearTail, ht, hfather, searchQueue, hsearch n hn, hfind, hq, hu]
          · rw [set_thread_other _ hne, ht]

/-- One round of the last loop: the thread is unlinked, its creator is reset and it is freed. -/
theorem remove_thread_eq {l₁ l₂ : List Nat} {q : Nat}
    (h : Queue heap ready (l₁ ++ q :: thr :: l₂)) {t : Thread} (ht : heap thr = some t) :
    ∃ heap', Queue heap' ready (l₁ ++ q :: l₂) ∧ SameFamily heap heap' ∧ heap' thr = some t ∧
      (∀ {β : Type} (field : Thread → β), (∀ t b, field { t with next := b } = field t) →
        ∀ a, (heap' a).map field = (heap a).map field) ∧
      ∀ n, l₁.length < n → removeThread n ready thr heap =
        (resetFather thr heap').bind fun heap'' =>
          (heap'' thr).bind fun t' => some (t'.tail, Function.update heap'' thr none) := by
  have hnodup := h.nodup
  have hq : q ∈ l₁ ++ q :: thr :: l₂ := by simp
  obtain ⟨prev, hprev⟩ := h.allocated q hq
  have hlink : prev.next = thr := (h.behind hprev).1
  have hne : thr ≠ q := by
    intro heq
    simp [List.nodup_append, heq] at hnodup
  have hkeep : ∀ a ∈ l₁ ++ l₂, a ≠ q := by
    intro a ha heq
    rw [heq] at ha
    simp only [List.nodup_append, List.nodup_cons, List.mem_cons, not_or] at hnodup
    rcases List.mem_append.mp ha with hmem | hmem
    · exact hnodup.2.2 q hmem q (by simp) rfl
    · exact hnodup.2.1.1.2 hmem
  have hrest : Queue heap t.next l₂ := by
    have hsplit : l₁ ++ q :: thr :: l₂ = (l₁ ++ [q]) ++ thr :: l₂ := by simp
    rw [hsplit] at h
    exact h.behind ht
  refine ⟨setThread heap q { prev with next := t.next }, ?_, SameFamily.set hprev rfl rfl (.inr rfl),
    ?_, fun field hfield => set_thread_field field hprev (hfield prev t.next), fun n hn => ?_⟩
  · refine h.splice (fun a ha => ?_) (by rw [set_thread_self, Option.map_some]) ?_
    · rw [set_thread_other _ (hkeep a (List.mem_append_left _ ha))]
    · refine hrest.congr fun a ha => ?_
      rw [set_thread_other _ (hkeep a (List.mem_append_right _ ha))]
  · rw [set_thread_other _ hne, ht]
  · have hnot : thr ∉ l₁ ++ [q] := by
      intro hmem
      rcases List.mem_append.mp hmem with hmem | hmem
      · exact (List.nodup_append.mp hnodup).2.2 thr hmem thr (by simp) rfl
      · exact hne (List.mem_singleton.mp hmem)
    have hsearch := h.search_link hnot (by rw [hprev, Option.map_some, hlink]) hn
    have hzero : q ≠ 0 := h.ne_zero q hq
    simp only [removeThread, searchQueue, hsearch, unlink, if_neg hzero, hprev, ht,
      Option.bind_eq_bind, Option.bind_some]
    rfl

/-- The thread `u` at `a` when a child of `p` has left: its creator does not wait any more. -/
def Thread.wokenAt (u : Thread) (p a : Nat) : Thread :=
  if a = p then { u with status := u.status &&& ~~~threadWait } else u

/-- The part of `exit` that changes the list, up to the second round of its loop. -/
theorem leave_queue_eq (h : QueueInv heap ready l) (hthr : thr ∈ l) (hne : thr ≠ ready)
    {t father₀ : Thread} (ht : heap thr = some t) (hfather₀ : heap t.head = some father₀) :
    ∃ heap', Queue heap' ready (l.erase thr) ∧ Removed heap thr heap' ∧
      (∀ {β : Type} (field : Thread → β), (∀ t b, field { t with next := b } = field t) →
        (∀ t b, field { t with tail := b } = field t) → ∀ a, a ≠ thr →
          (heap' a).map field = (heap a).map fun u => field (u.wokenAt t.head a)) ∧
      ∀ n, l.length ≤ n + 1 → leaveQueue (n + 1) ready thr heap =
        removeThreads (n + 1) ready n (if t.head = thr then 0 else t.tail) heap' := by
  obtain ⟨heap₁, hclear, hfamily₁, hthr₁, hfield₁⟩ := clear_tail_spec h ht
  obtain ⟨l₁, q, l₂, hl, herase⟩ := h.queue.split hthr hne
  have hqueue₁ : Queue heap₁ ready (l₁ ++ q :: thr :: l₂) :=
    hl ▸ h.queue.congr fun a _ => hfield₁ Thread.next (fun _ _ => rfl) a
  obtain ⟨heap₂, hqueue₂, hfamily₂, hthr₂, hfield₂, hremove⟩ := remove_thread_eq hqueue₁ hthr₁
  have hfamily := hfamily₁.trans hfamily₂
  obtain ⟨father, hfather, -, -⟩ := hfamily.allocated hfather₀
  let heap₃ := setThread heap₂ t.head
    { father with status := father.status &&& ~~~threadWait, tail := 0 }
  have hfamily₃ : SameFamily heap heap₃ :=
    hfamily.trans (SameFamily.set hfather rfl rfl (.inl rfl))
  have hreset : resetFather thr heap₂ = some heap₃ := by
    simp only [resetFather, hthr₂, hfather, Option.bind_eq_bind, Option.bind_some]
    rfl
  have hnext₃ : ∀ a, (heap₃ a).map Thread.next = (heap₂ a).map Thread.next :=
    set_thread_field Thread.next hfather rfl
  have hqueue₃ : Queue heap₃ ready (l₁ ++ q :: l₂) := hqueue₂.congr fun a _ => hnext₃ a
  have hself : (heap₃ t.head).map Thread.tail = some 0 := by
    rw [show heap₃ t.head = _ from set_thread_self .., Option.map_some]
  -- what the loop reads as the next thread
  have htail : (heap₃ thr).map Thread.tail = some (if t.head = thr then 0 else t.tail) := by
    by_cases heq : t.head = thr
    · rw [if_pos heq, ← hself, heq]
    · rw [if_neg heq, show heap₃ thr = heap₂ thr from set_thread_other _ (Ne.symm heq), hthr₂,
        Option.map_some]
  obtain ⟨t', ht', hnextThread⟩ := Option.map_eq_some_iff.mp htail
  have hnot : thr ∉ l.erase thr := fun hmem =>
    (List.Nodup.mem_erase_iff h.queue.nodup).mp hmem |>.1 rfl
  have hother : ∀ a, a ≠ thr → Function.update heap₃ thr none a = heap₃ a :=
    fun a ha => Function.update_of_ne ha ..
  refine ⟨Function.update heap₃ thr none, ?_, ⟨Function.update_self .., fun a ha => ?_,
    fun a ha => ?_, fun a t' ha hsome => ?_, fun u hu hhead => ?_⟩,
    fun field hlink htails a ha => ?_, fun n hn => ?_⟩
  · rw [herase] at hnot ⊢
    refine hqueue₃.congr fun a ha => ?_
    rw [hother a fun heq => hnot (heq ▸ ha)]
  · rw [hother a ha, hfamily₃.head a]
  · rw [hother a ha, hfamily₃.father a]
  · rw [hother a ha] at hsome
    exact hfamily₃.tail a t' hsome
  · obtain rfl := Option.some.inj (ht.symm.trans hu)
    rw [hother _ hhead, hself]
  · rw [hother a ha]
    by_cases heq : a = t.head
    · -- the creator is the only thread whose status changes
      let woken := fun u : Thread => { u with status := u.status &&& ~~~threadWait }
      have hstatus := (hfield₂ (fun u => field (woken u)) (fun u b => hlink (woken u) b) t.head).trans
        (hfield₁ (fun u => field (woken u)) (fun u b => htails (woken u) b) t.head)
      rw [hfather, Option.map_some] at hstatus
      have hsame : (fun u : Thread => field (u.wokenAt t.head t.head)) = fun u => field (woken u) :=
        funext fun u => by rw [Thread.wokenAt, if_pos rfl]
      rw [heq, hsame, ← hstatus, show heap₃ t.head = _ from set_thread_self .., Option.map_some]
      exact congrArg some (htails (woken father) 0)
    · rw [show heap₃ a = heap₂ a from set_thread_other _ heq, hfield₂ field hlink,
        hfield₁ field htails]
      simp [Thread.wokenAt, heq]
  · have hzero : thr ≠ 0 := h.queue.ne_zero thr hthr
    have hlength : l₁.length < n + 1 := by
      rw [hl] at hn
      simp at hn
      omega
    rw [leaveQueue, hclear (n + 1) hn]
    simp only [Option.bind_eq_bind, Option.bind_some]
    rw [removeThreads, if_neg hzero, hremove (n + 1) hlength, hreset, Option.bind_some, ht',
      Option.bind_some, hnextThread]

/-- A thread whose creator is freed: the loop touches the freed record. -/
theorem leave_queue_freed_head (h : QueueInv heap ready l) (hthr : thr ∈ l) (hne : thr ≠ ready)
    {t : Thread} (ht : heap thr = some t) (hfreed : heap t.head = none) {n : Nat}
    (hn : l.length ≤ n + 1) : leaveQueue (n + 1) ready thr heap = none := by
  obtain ⟨heap₁, hclear, hfamily₁, hthr₁, hfield₁⟩ := clear_tail_spec h ht
  obtain ⟨l₁, q, l₂, hl, -⟩ := h.queue.split hthr hne
  have hqueue₁ : Queue heap₁ ready (l₁ ++ q :: thr :: l₂) :=
    hl ▸ h.queue.congr fun a _ => hfield₁ Thread.next (fun _ _ => rfl) a
  obtain ⟨heap₂, -, hfamily₂, hthr₂, -, hremove⟩ := remove_thread_eq hqueue₁ hthr₁
  have hgone : heap₂ t.head = none := by
    have hhead := (hfamily₁.trans hfamily₂).head t.head
    rw [hfreed, Option.map_none, Option.map_eq_none_iff] at hhead
    exact hhead
  have hreset : resetFather thr heap₂ = none := by
    simp [resetFather, hthr₂, hgone]
  have hzero : thr ≠ 0 := h.queue.ne_zero thr hthr
  have hlength := congrArg List.length hl
  rw [List.length_append, List.length_cons] at hlength
  rw [leaveQueue, hclear (n + 1) hn]
  simp only [Option.bind_eq_bind, Option.bind_some]
  rw [removeThreads, if_neg hzero, hremove (n + 1) (by omega), hreset]
  rfl

/-- A `tail` that is left does not point to the removed thread. -/
theorem Removed.tail_kept {heap' : Nat → Option Thread} (hremoved : Removed heap thr heap')
    (h : QueueInv heap ready l) {a : Nat} {t' : Thread} (ht' : heap' a = some t') :
    t'.tail = 0 ∨ t'.tail ≠ thr ∧ ∃ t, heap a = some t ∧ t.tail = t'.tail := by
  obtain ⟨hother, t, ht, -⟩ := hremoved.before ht'
  rcases hremoved.tail a t' hother ht' with hzero | hkept
  · exact .inl hzero
  · rw [ht, Option.map_some] at hkept
    have heq := Option.some.inj hkept
    by_cases hself : t'.tail = thr
    · rcases h.tails a t ht with hzero | hchild
      · exact .inl (heq ▸ hzero)
      · -- the creator of `thr` has lost its `tail`
        rw [heq, hself] at hchild
        obtain ⟨u, hu, hhead⟩ := Option.map_eq_some_iff.mp hchild.2
        have hreset := hremoved.creator u hu (by rw [hhead]; exact hother)
        rw [hhead, ht', Option.map_some] at hreset
        exact .inl (Option.some.inj hreset)
    · exact .inr ⟨hself, t, ht, heq⟩

/-- Removing a thread keeps the shape. -/
theorem Removed.queue_inv {heap' : Nat → Option Thread} (hremoved : Removed heap thr heap')
    (h : QueueInv heap ready l) (hne : thr ≠ ready) (hqueue : Queue heap' ready (l.erase thr)) :
    QueueInv heap' ready (l.erase thr) := by
  have hmem : ∀ a, a ∈ l.erase thr ↔ a ≠ thr ∧ a ∈ l := fun a =>
    List.Nodup.mem_erase_iff h.queue.nodup
  refine ⟨hqueue, (hmem _).mpr ⟨Ne.symm hne, h.mem⟩, fun a t' ht' => ?_, fun a t' ht' => ?_,
    fun a t' ht' => ?_⟩
  · obtain ⟨hother, t, ht, -⟩ := hremoved.before ht'
    exact (hmem a).mpr ⟨hother, h.allocated a t ht⟩
  · rcases hremoved.tail_kept h ht' with hzero | ⟨hself, t, ht, heq⟩
    · exact .inl hzero
    · rw [← heq] at hself ⊢
      exact (h.tails a t ht).imp_right fun hchild =>
        ⟨hchild.1, (hremoved.head _ hself).trans hchild.2⟩
  · obtain ⟨-, t, ht, hhead, hfather⟩ := hremoved.before ht'
    rw [← hhead, ← hfather]
    exact h.fathers a t ht

/-- A thread that is no father, with a child: the loop goes on with the child, whose creator is the
record that was freed. -/
theorem leave_queue_with_child (h : QueueInv heap ready l) (hthr : thr ∈ l) (hne : thr ≠ ready)
    {t father₀ : Thread} (ht : heap thr = some t) (hfather₀ : heap t.head = some father₀)
    (hhead : t.head ≠ thr) (htail : t.tail ≠ 0) (hready : t.tail ≠ ready) {n : Nat}
    (hn : l.length ≤ n + 1) : leaveQueue (n + 1) ready thr heap = none := by
  obtain ⟨heap', hqueue, hremoved, -, hleave⟩ := leave_queue_eq h hthr hne ht hfather₀
  rw [hleave n hn, if_neg hhead]
  have hlast := (h.tails thr t ht).resolve_left htail
  have hd : t.tail ∈ l.erase thr := by
    obtain ⟨u, hu, -⟩ := Option.map_eq_some_iff.mp hlast.2
    exact (List.Nodup.mem_erase_iff h.queue.nodup).mpr ⟨hlast.1, h.allocated _ u hu⟩
  obtain ⟨u, hu⟩ := hqueue.allocated _ hd
  have hu' : u.head = thr := by
    have hcreator := (hremoved.head _ hlast.1).trans hlast.2
    rw [hu, Option.map_some] at hcreator
    exact Option.some.inj hcreator
  obtain ⟨l₁, q, l₂, hl, -⟩ := hqueue.split hd hready
  rw [hl] at hqueue
  obtain ⟨heap'', -, hfamily, hkept, -, hremove⟩ := remove_thread_eq hqueue hu
  have hfreed : heap'' thr = none := by
    have hgone := hfamily.head thr
    rw [hremoved.freed, Option.map_none, Option.map_eq_none_iff] at hgone
    exact hgone
  have hreset : resetFather t.tail heap'' = none := by
    simp [resetFather, hkept, hu', hfreed]
  have hlength := congrArg List.length hl
  rw [List.length_erase_of_mem hthr, List.length_append] at hlength
  cases n with
  | zero => rw [removeThreads, if_neg htail]
  | succ n =>
      rw [removeThreads, if_neg htail, hremove _ (by omega), hreset]
      rfl

end Exit

/-! ### Creation -/

/-- The thread `t` is new at `v`. The other threads keep their numbers, creators and flags; `tail`
is kept, or points to the new thread at its creator. -/
structure Inserted (heap : Nat → Option Thread) (v : Nat) (t : Thread)
    (heap' : Nat → Option Thread) : Prop where
  free : heap v = none
  new : heap' v = some t
  last : t.tail = 0
  pid : ∀ a, a ≠ v → (heap' a).map Thread.pid = (heap a).map Thread.pid
  head : ∀ a, a ≠ v → (heap' a).map Thread.head = (heap a).map Thread.head
  father : ∀ a, a ≠ v → (heap' a).map Thread.father = (heap a).map Thread.father
  tail : ∀ a t', a ≠ v → heap' a = some t' →
    (heap a).map Thread.tail = some t'.tail ∨ t'.tail = v ∧ t.head = a

namespace Inserted

variable {heap heap' : Nat → Option Thread} {ready v : Nat} {t : Thread} {l : List Nat}

theorem ne (h : Inserted heap v t heap') {a : Nat} {u : Thread} (hu : heap a = some u) :
    a ≠ v := by
  intro heq
  rw [heq, h.free] at hu
  cases hu

/-- Every thread is the new one or was there before, with the same creator and flags. -/
theorem before (h : Inserted heap v t heap') {a : Nat} {t' : Thread} (ht' : heap' a = some t') :
    (a = v ∧ t' = t) ∨
      (a ≠ v ∧ ∃ u, heap a = some u ∧ u.head = t'.head ∧ u.father = t'.father) := by
  by_cases ha : a = v
  · rw [ha, h.new] at ht'
    exact .inl ⟨ha, (Option.some.inj ht').symm⟩
  · have hh := h.head a ha
    have hf := h.father a ha
    rw [ht', Option.map_some] at hh hf
    obtain ⟨u, hu, heq⟩ := Option.map_eq_some_iff.mp hh.symm
    rw [hu, Option.map_some] at hf
    exact .inr ⟨ha, u, hu, heq, (Option.some.inj hf).symm⟩

/-- A new last thread keeps the shape. -/
theorem queue_inv (hinserted : Inserted heap v t heap') (h : QueueInv heap ready l)
    (hqueue : Queue heap' ready (l ++ [v])) (hfather : t.father = true ↔ t.head = v) :
    QueueInv heap' ready (l ++ [v]) := by
  refine ⟨hqueue, List.mem_append_left _ h.mem, fun a t' ht' => ?_, fun a t' ht' => ?_,
    fun a t' ht' => ?_⟩
  · rcases hinserted.before ht' with ⟨rfl, -⟩ | ⟨-, u, hu, -⟩
    · exact List.mem_append_right _ (List.mem_singleton.mpr rfl)
    · exact List.mem_append_left _ (h.allocated a u hu)
  · rcases hinserted.before ht' with ⟨-, rfl⟩ | ⟨ha, u, hu, -⟩
    · exact .inl hinserted.last
    · rcases hinserted.tail a t' ha ht' with hkept | ⟨hlast, hcreator⟩
      · rw [hu, Option.map_some] at hkept
        rw [← Option.some.inj hkept]
        refine (h.tails a u hu).imp_right fun hchild => ⟨hchild.1, ?_⟩
        obtain ⟨w, hw, -⟩ := Option.map_eq_some_iff.mp hchild.2
        rw [hinserted.head _ (hinserted.ne hw), hchild.2]
      · rw [hlast]
        exact .inr ⟨Ne.symm ha, by rw [hinserted.new, Option.map_some, hcreator]⟩
  · rcases hinserted.before ht' with ⟨rfl, rfl⟩ | ⟨-, u, hu, hsame, hflag⟩
    · exact hfather
    · exact hflag ▸ hsame ▸ h.fathers a u hu

end Inserted

section Creation

variable {s : Tasks} {l : List Nat}

/-- `create_thread` returns and puts a father at the end of the queue. -/
theorem create_thread_spec (h : QueueInv s.heap s.threadReadyQueue l) (r : Resources)
    (hv : s.heap r.v = none) (hzero : r.v ≠ 0) (main rsp cr3 rbx : BitVec 64) (pv : BitVec 32)
    (argc argv pwd : BitVec 64) :
    ∃ heap, (∀ n, l.length ≤ n → createThread n r main rsp cr3 rbx pv argc argv pwd s =
        some (r.v, { s with nextPid := s.nextPid + 1, heap := heap })) ∧
      QueueInv heap s.threadReadyQueue (l ++ [r.v]) ∧
      Inserted s.heap r.v (fatherThread r main rsp cr3 rbx pv argc argv pwd s) heap := by
  let t := fatherThread r main rsp cr3 rbx pv argc argv pwd s
  have hfather : t.father = true := by
    simp only [t, fatherThread, Thread.father, Thread.arguments, newThread]
    split_ifs <;> rfl
  obtain ⟨heap, happend, hqueue, hnew, hfield⟩ :=
    append_thread_spec (s := { s with nextPid := s.nextPid + 1 }) h.queue
      (List.ne_nil_of_mem h.mem) hv hzero (show t.next = 0 from rfl)
  have hself : t.head = r.v := rfl
  have hinserted : Inserted s.heap r.v t heap := by
    refine ⟨hv, hnew, rfl, hfield _ fun _ _ => rfl, hfield _ fun _ _ => rfl, hfield _ fun _ _ => rfl,
      fun a t' ha ht' => .inl ?_⟩
    rw [← hfield Thread.tail (fun _ _ => rfl) a ha, show heap a = some t' from ht',
      Option.map_some]
  refine ⟨heap, fun n hn => ?_, hinserted.queue_inv h hqueue (by simp [hfather, hself]),
    hinserted⟩
  simp only [createThread]
  rw [show appendThread n r.v (fatherThread r main rsp cr3 rbx pv argc argv pwd s) _ = _ from
    happend n hn]
  rfl

/-- `create_thread_child` and `pthread_create` return and put a child of `p` at the end of the
queue. -/
theorem append_child_spec (h : QueueInv s.heap s.threadReadyQueue l) (r : Resources)
    (hv : s.heap r.v = none) (hzero : r.v ≠ 0) {t thread : Thread} {p : Nat}
    (hp : s.heap p = some thread) (hnext : t.next = 0) (hhead : t.head = p) (htail : t.tail = 0)
    (hfather : t.father = false) :
    ∃ heap, (∀ n, l.length ≤ n → appendChild n r t p s =
        some (r.v, { s with nextPid := s.nextPid + 1, heap := heap })) ∧
      QueueInv heap s.threadReadyQueue (l ++ [r.v]) ∧ Inserted s.heap r.v t heap := by
  have hne : p ≠ r.v := by
    intro heq
    rw [heq, hv] at hp
    cases hp
  -- the creator is told the number of its child, the child is appended, then linked as `tail`
  let s₁ : Tasks := { s with
    nextPid := s.nextPid + 1
    heap := setThread s.heap p { thread with waitPid := t.pid } }
  have hkept : ∀ {β : Type} (field : Thread → β), (∀ u w, field { u with waitPid := w } = field u) →
      ∀ a, (s₁.heap a).map field = (s.heap a).map field :=
    fun field hfield => set_thread_field field hp (hfield thread _)
  have hqueue₁ : Queue s₁.heap s₁.threadReadyQueue l :=
    h.queue.congr fun a _ => hkept Thread.next (fun _ _ => rfl) a
  have hv₁ : s₁.heap r.v = none := (set_thread_other _ (Ne.symm hne)).trans hv
  obtain ⟨heap, happend, hqueue, hnew, hfield⟩ :=
    append_thread_spec hqueue₁ (List.ne_nil_of_mem h.mem) hv₁ hzero hnext
  have hp₁ : s₁.heap p = some { thread with waitPid := t.pid } := set_thread_self ..
  obtain ⟨last, hlast⟩ : ∃ last, heap p = some last := by
    have hsome := hfield Thread.head (fun _ _ => rfl) p hne
    rw [hp₁, Option.map_some] at hsome
    obtain ⟨last, hlast, -⟩ := Option.map_eq_some_iff.mp hsome
    exact ⟨last, hlast⟩
  let heap' := setThread heap p { last with tail := r.v }
  have hnew' : heap' r.v = some t := (set_thread_other _ (Ne.symm hne)).trans hnew
  -- the three writes change `wait_pid`, `next` and `tail` only
  have hsame : ∀ {β : Type} (field : Thread → β), (∀ u w, field { u with waitPid := w } = field u) →
      (∀ u b, field { u with next := b } = field u) → (∀ u b, field { u with tail := b } = field u) →
      ∀ a, a ≠ r.v → (heap' a).map field = (s.heap a).map field := by
    intro β field hwait hlink htail a ha
    exact (set_thread_field field hlast (htail last _) a).trans
      ((hfield field hlink a ha).trans (hkept field hwait a))
  have hlinks : ∀ a, (heap' a).map Thread.next = (heap a).map Thread.next :=
    set_thread_field Thread.next hlast rfl
  have hself : heap' p = some { last with tail := r.v } := set_thread_self ..
  have hinserted : Inserted s.heap r.v t heap' := by
    refine ⟨hv, hnew', htail, hsame Thread.pid (fun _ _ => rfl) (fun _ _ => rfl) fun _ _ => rfl,
      hsame Thread.head (fun _ _ => rfl) (fun _ _ => rfl) fun _ _ => rfl,
      hsame Thread.father (fun _ _ => rfl) (fun _ _ => rfl) fun _ _ => rfl, fun a t' ha ht' => ?_⟩
    by_cases hap : a = p
    · rw [hap, hself] at ht'
      rw [← Option.some.inj ht']
      exact .inr ⟨rfl, hhead.trans hap.symm⟩
    · have hother : heap' a = heap a := set_thread_other _ hap
      have htails := hfield Thread.tail (fun _ _ => rfl) a ha
      rw [hkept Thread.tail (fun _ _ => rfl) a, ← hother, ht', Option.map_some] at htails
      exact .inl htails.symm
  refine ⟨heap', fun n hn => ?_, hinserted.queue_inv h (hqueue.congr fun a _ => hlinks a)
    (by simp [hhead, hfather, hne]), hinserted⟩
  simp only [appendChild, hp, Option.bind_eq_bind, Option.bind_some]
  rw [show appendThread n r.v t _ = _ from happend n hn]
  simp only [Option.bind_some, hlast]
  rfl

/-- `create_thread_child` on a thread of the queue. -/
theorem create_thread_child_spec (h : QueueInv s.heap s.threadReadyQueue l) (r : Resources)
    (hv : s.heap r.v = none) (hzero : r.v ≠ 0) {p : Nat} {thread : Thread}
    (hp : s.heap p = some thread) (main rsp cr3 rbx : BitVec 64) (pv : BitVec 32)
    (argc argv pwd : BitVec 64) :
    ∃ heap t, (∀ n, l.length ≤ n → createThreadChild n r main rsp cr3 rbx pv argc argv pwd p s =
        some (r.v, { s with nextPid := s.nextPid + 1, heap := heap })) ∧ t.head = p ∧
      QueueInv heap s.threadReadyQueue (l ++ [r.v]) ∧ Inserted s.heap r.v t heap := by
  let t := newThread s.nextPid r main rsp pv
  let prv := if pv &&& 0x80#32 = 0x80#32 then t.prv ||| 0x80#64 else t.prv
  let child := childThread r { t with cr3 := cr3, prv := prv } rbx argc argv pwd p thread
  have hfather : child.father = false := by
    simp only [child, childThread, Thread.father, Thread.arguments, prv, t, newThread]
    split_ifs <;> rfl
  obtain ⟨heap, happend, hrest⟩ := append_child_spec h r hv hzero hp
    (show child.next = 0 from rfl) (show child.head = p from rfl) (show child.tail = 0 from rfl)
    hfather
  refine ⟨heap, child, fun n hn => ?_, rfl, hrest⟩
  simp only [createThreadChild, hp, Option.bind_eq_bind, Option.bind_some]
  exact happend n hn

/-- `pthread_create` on a thread of the queue. -/
theorem pthread_create_spec (h : QueueInv s.heap s.threadReadyQueue l) (r : Resources)
    (hv : s.heap r.v = none) (hzero : r.v ≠ 0) {p : Nat} {thread : Thread}
    (hp : s.heap p = some thread) (main rsp : BitVec 64) (pv : BitVec 32) :
    ∃ heap t, (∀ n, l.length ≤ n → pthreadCreate n r main rsp pv p s =
        some (r.v, { s with nextPid := s.nextPid + 1, heap := heap })) ∧ t.head = p ∧
      QueueInv heap s.threadReadyQueue (l ++ [r.v]) ∧ Inserted s.heap r.v t heap := by
  let t := { newThread s.nextPid r main rsp pv with status := threadZumbi, cr3 := thread.cr3 }
  let child := childThread r t 0#64 0#64 0#64 0#64 p thread
  have hfather : child.father = false := by
    simp only [child, childThread, Thread.father, Thread.arguments, t, newThread]
    split_ifs <;> rfl
  obtain ⟨heap, happend, hrest⟩ := append_child_spec h r hv hzero hp
    (show child.next = 0 from rfl) (show child.head = p from rfl) (show child.tail = 0 from rfl)
    hfather
  refine ⟨heap, child, fun n hn => ?_, rfl, hrest⟩
  simp only [pthreadCreate, hp, Option.bind_eq_bind, Option.bind_some]
  exact happend n hn

end Creation

end Sirius.Process
