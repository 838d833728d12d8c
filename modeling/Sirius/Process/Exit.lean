import Sirius.Process.Thread

/-!
# Leaving the ready queue

`exit` of `kernel/exit.c`, reduced to what it does with the `THREAD` records: it marks the thread
and the threads along its `tail` pointers as zombies, and then unlinks and frees them one after the
other. The streams, windows and pages it releases in between are not part of the records. A step
on an address that holds no `THREAD`, because it was freed or is the null pointer, is `none`.
-/

namespace Sirius.Process

open Library

/-- The thread was made by `create_thread`. -/
def Thread.father (t : Thread) : Bool := t.prv &&& 0x20#64 ≠ 0#64

/-- The first loop of `exit`. -/
def markZombies : (n tmp : Nat) → (Nat → Option Thread) → Option (Nat → Option Thread)
  | 0, tmp, heap => if tmp = 0 then some heap else none
  | n + 1, tmp, heap =>
      if tmp = 0 then some heap
      else match heap tmp with
        | none => none
        | some t =>
            markZombies n t.tail (setThread heap tmp { t with status := t.status ||| threadZumbi })

/-- A child is no longer the `tail` of its creator. -/
def clearTail (n ready tmp : Nat) (heap : Nat → Option Thread) : Option (Nat → Option Thread) := do
  let t ← heap tmp
  if t.father then pure heap
  else
    let tail ← searchQueue heap (fun t => t.tail == tmp) n ready
    if tail = 0 then pure heap
    else
      let t ← heap tail
      pure (setThread heap tail { t with tail := 0 })

/-- The creator of `tmp` does not wait any more and loses its `tail`. -/
def resetFather (tmp : Nat) (heap : Nat → Option Thread) : Option (Nat → Option Thread) := do
  let t ← heap tmp
  let father ← heap t.head
  pure (setThread heap t.head
    { father with status := father.status &&& ~~~threadWait, tail := 0 })

/-- Take `tmp`, which follows `list`, out of the queue; 0 stands for a thread not found there. -/
def unlink (list tmp : Nat) (heap : Nat → Option Thread) : Option (Nat → Option Thread) :=
  if list = 0 then some heap
  else do
    let prev ← heap list
    let t ← heap tmp
    resetFather tmp (setThread heap list { prev with next := t.next })

/-- The body of the last loop of `exit`: remove `tmp` and free it. Returns the next thread. -/
def removeThread (n ready tmp : Nat) (heap : Nat → Option Thread) :
    Option (Nat × (Nat → Option Thread)) := do
  let list ← searchQueue heap (fun t => t.next == tmp) n ready
  let heap ← unlink list tmp heap
  let t ← heap tmp
  pure (t.tail, Function.update heap tmp none)

/-- The last loop of `exit`, with `n` steps for its own loops. -/
def removeThreads (n ready : Nat) :
    (m tmp : Nat) → (Nat → Option Thread) → Option (Nat → Option Thread)
  | 0, tmp, heap => if tmp = 0 then some heap else none
  | m + 1, tmp, heap =>
      if tmp = 0 then some heap
      else match removeThread n ready tmp heap with
        | none => none
        | some (next, heap) => removeThreads n ready m next heap

/-- The part of `exit` that changes the list. -/
def leaveQueue (n ready thr : Nat) (heap : Nat → Option Thread) : Option (Nat → Option Thread) := do
  let heap ← clearTail n ready thr heap
  removeThreads n ready n thr heap

/-- `exit` -/
def exit (n thr : Nat) (s : Tasks) : Option Tasks := do
  let heap ← markZombies n thr s.heap
  let heap ← leaveQueue n s.threadReadyQueue thr heap
  pure { s with heap := heap }

@[simp] theorem mark_zombies_zero (n : Nat) (heap : Nat → Option Thread) :
    markZombies n 0 heap = some heap := by
  cases n <;> rfl

@[simp] theorem remove_threads_zero (n ready m : Nat) (heap : Nat → Option Thread) :
    removeThreads n ready m 0 heap = some heap := by
  cases m <;> rfl

/-! ### What the parts change -/

/-- From `heap` to `heap'` the threads keep their creators and flags, and `tail` pointers are kept
or cleared. -/
structure SameFamily (heap heap' : Nat → Option Thread) : Prop where
  head : ∀ a, (heap' a).map Thread.head = (heap a).map Thread.head
  father : ∀ a, (heap' a).map Thread.father = (heap a).map Thread.father
  tail : ∀ a t', heap' a = some t' → t'.tail = 0 ∨ (heap a).map Thread.tail = some t'.tail

namespace SameFamily

variable {heap heap' heap'' : Nat → Option Thread}

theorem refl : SameFamily heap heap :=
  ⟨fun _ => rfl, fun _ => rfl, fun a t ht => .inr (by rw [ht, Option.map_some])⟩

theorem trans (h : SameFamily heap heap') (h' : SameFamily heap' heap'') :
    SameFamily heap heap'' := by
  refine ⟨fun a => (h'.head a).trans (h.head a), fun a => (h'.father a).trans (h.father a), ?_⟩
  intro a t'' ht''
  rcases h'.tail a t'' ht'' with hzero | hsame
  · exact .inl hzero
  · obtain ⟨t', ht', heq⟩ := Option.map_eq_some_iff.mp hsame
    rw [← heq]
    exact h.tail a t' ht'

theorem set {p : Nat} {t u : Thread} (hp : heap p = some t) (hhead : u.head = t.head)
    (hprv : u.prv = t.prv) (htail : u.tail = 0 ∨ u.tail = t.tail) :
    SameFamily heap (setThread heap p u) := by
  have hfather : u.father = t.father := by rw [Thread.father, Thread.father, hprv]
  refine ⟨set_thread_field _ hp hhead, set_thread_field _ hp hfather, fun a t' ht' => ?_⟩
  by_cases heq : a = p
  · rw [heq, set_thread_self] at ht'
    obtain rfl := Option.some.inj ht'
    rw [heq, hp, Option.map_some]
    exact htail.imp_right fun htail => by rw [htail]
  · rw [set_thread_other u heq] at ht'
    exact .inr (by rw [ht', Option.map_some])

/-- The relation covers which addresses hold a thread. -/
theorem allocated (h : SameFamily heap heap') {a : Nat} {t : Thread} (ht : heap a = some t) :
    ∃ t', heap' a = some t' ∧ t'.head = t.head ∧ t'.father = t.father := by
  have hhead := h.head a
  have hfather := h.father a
  rw [ht, Option.map_some] at hhead hfather
  obtain ⟨t', ht', hsame⟩ := Option.map_eq_some_iff.mp hhead
  rw [ht', Option.map_some] at hfather
  exact ⟨t', ht', hsame, Option.some.inj hfather⟩

end SameFamily

/-- Marking zombies keeps what a mark keeps. -/
theorem mark_zombies_keeps {β : Type} (field : Thread → β)
    (hfield : ∀ t, field { t with status := t.status ||| threadZumbi } = field t) {n p : Nat}
    {heap heap' : Nat → Option Thread} (h : markZombies n p heap = some heap') (a : Nat) :
    (heap' a).map field = (heap a).map field := by
  induction n generalizing p heap with
  | zero =>
      rw [markZombies] at h
      split at h
      · rw [Option.some.inj h]
      · cases h
  | succ n ih =>
      rw [markZombies] at h
      split at h
      · rw [Option.some.inj h]
      · cases hp : heap p with
        | none =>
            rw [hp] at h
            cases h
        | some t =>
            rw [hp] at h
            rw [ih h, set_thread_field field hp (hfield t)]

/-- Marking zombies changes nothing but `status`. -/
theorem mark_zombies_field {β : Type} (field : Thread → β)
    (hfield : ∀ t status, field { t with status := status } = field t) {n p : Nat}
    {heap heap' : Nat → Option Thread} (h : markZombies n p heap = some heap') (a : Nat) :
    (heap' a).map field = (heap a).map field :=
  mark_zombies_keeps field (fun t => hfield t _) h a

end Sirius.Process
