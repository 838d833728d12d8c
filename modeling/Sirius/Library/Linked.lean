import Mathlib.Data.List.Nodup
import Mathlib.Logic.Function.Basic
import Mathlib.Tactic

/-!
# Finite chains of a successor function

`Linked next stop p l` says that following `next` from `p` visits exactly the elements of `l`, in
order, and then meets `stop`. It reads the shape of a hand-linked list and of a chain in an
allocation table alike. A chain is determined by its start (`Linked.unique`), never repeats an
element (`Linked.nodup`), and depends only on the successors of its own elements
(`Linked.congr`).
-/

namespace Sirius.Library

variable {α : Type*}

/-- Following `next` from `p` visits `l` and ends in `stop`. -/
def Linked (next : α → α) (stop : α) : α → List α → Prop
  | p, [] => p = stop
  | p, q :: l => p = q ∧ q ≠ stop ∧ Linked next stop (next q) l

namespace Linked

variable {next next' : α → α} {stop p q : α} {l l₁ l₂ : List α}

@[simp] theorem nil_iff : Linked next stop p [] ↔ p = stop := Iff.rfl

@[simp] theorem cons_iff :
    Linked next stop p (q :: l) ↔ p = q ∧ q ≠ stop ∧ Linked next stop (next q) l := Iff.rfl

/-- The end mark is not an element of a chain. -/
theorem ne_stop (h : Linked next stop p l) : ∀ a ∈ l, a ≠ stop := by
  induction l generalizing p with
  | nil => simp
  | cons q l ih =>
      obtain ⟨-, hq, hl⟩ := h
      intro a ha
      rcases List.mem_cons.mp ha with rfl | ha
      · exact hq
      · exact ih hl a ha

/-- The successor of an element is the next element or the end mark. -/
theorem next_mem {a : α} (h : Linked next stop p l) (ha : a ∈ l) : next a = stop ∨ next a ∈ l := by
  induction l generalizing p with
  | nil => exact absurd ha (List.not_mem_nil)
  | cons q l ih =>
      obtain ⟨-, -, hl⟩ := h
      rcases List.mem_cons.mp ha with rfl | ha
      · cases l with
        | nil => exact Or.inl hl
        | cons r l => exact Or.inr (by rw [hl.1]; simp)
      · exact (ih hl ha).imp_right (List.mem_cons_of_mem q)

/-- Two chains from one start are equal. -/
theorem unique (h₁ : Linked next stop p l₁) (h₂ : Linked next stop p l₂) : l₁ = l₂ := by
  induction l₁ generalizing p l₂ with
  | nil =>
      cases l₂ with
      | nil => rfl
      | cons q l₂ => exact absurd (h₂.1.symm.trans h₁) h₂.2.1
  | cons q l₁ ih =>
      obtain ⟨rfl, hp, hl₁⟩ := h₁
      cases l₂ with
      | nil => exact absurd h₂ hp
      | cons r l₂ =>
          obtain ⟨rfl, -, hl₂⟩ := h₂
          rw [ih hl₁ hl₂]

/-- Every suffix of a chain is the chain of its first element. -/
theorem of_append (h : Linked next stop p (l₁ ++ q :: l₂)) : Linked next stop q (q :: l₂) := by
  induction l₁ generalizing p with
  | nil => exact ⟨rfl, h.2⟩
  | cons r l₁ ih => exact ih h.2.2

/-- A finite chain does not repeat an element. -/
theorem nodup (h : Linked next stop p l) : l.Nodup := by
  induction l generalizing p with
  | nil => exact List.nodup_nil
  | cons q l ih =>
      refine List.nodup_cons.mpr ⟨fun hmem => ?_, ih h.2.2⟩
      obtain ⟨l₁, l₂, rfl⟩ := List.append_of_mem hmem
      have hstart : Linked next stop q (q :: (l₁ ++ q :: l₂)) := ⟨rfl, h.2⟩
      have hagain : Linked next stop q (q :: l₂) := of_append h.2.2
      have hlen := congrArg List.length (unique hstart hagain)
      simp at hlen
      omega

/-- A chain of numbers below `n` has at most `n` elements. -/
theorem length_le {next : Nat → Nat} {stop p n : Nat} {l : List Nat} (h : Linked next stop p l)
    (hrange : ∀ b ∈ l, b < n) : l.length ≤ n := by
  have hsub : l ⊆ List.range n := fun b hb => List.mem_range.mpr (hrange b hb)
  have hle := (List.subperm_of_subset h.nodup hsub).length_le
  rwa [List.length_range] at hle

/-- A chain depends only on the successors of its elements. -/
theorem congr (h : Linked next stop p l) (hnext : ∀ a ∈ l, next' a = next a) :
    Linked next' stop p l := by
  induction l generalizing p with
  | nil => exact h
  | cons q l ih =>
      obtain ⟨rfl, hp, hl⟩ := h
      refine ⟨rfl, hp, ?_⟩
      rw [hnext _ (by simp)]
      exact ih hl (fun a ha => hnext a (by simp [ha]))

/-- A chain grows by one element `b` when its last element is linked to `b`. -/
theorem snoc {a b : α} (h : Linked next stop p (l ++ [a])) (hnext : ∀ c ∈ l, next' c = next c)
    (ha : next' a = b) (hb : next' b = stop) (hstop : b ≠ stop) :
    Linked next' stop p (l ++ [a] ++ [b]) := by
  induction l generalizing p with
  | nil =>
      obtain ⟨rfl, hp, _⟩ := h
      exact ⟨rfl, hp, ha, hstop, hb⟩
  | cons q l ih =>
      obtain ⟨rfl, hp, hl⟩ := h
      refine ⟨rfl, hp, ?_⟩
      rw [hnext _ (by simp)]
      exact ih hl fun c hc => hnext c (by simp [hc])

end Linked

end Sirius.Library
