import Sirius.Library.Linked
import Mathlib.Data.List.Basic

/-!
# Null-terminated lists of heap cells

A heap maps addresses to cells; a freed or never allocated address holds none. `Cells next heap p l`
says that the list that starts at `p` visits the allocated cells of `l` and ends in the null
pointer. `search` is the loop that walks such a list up to the first cell with a property: it
fails where the program would touch a cell that is not allocated. Splicing (`Cells.splice`) covers
both appending a cell and unlinking one.
-/

namespace Sirius.Library

variable {κ : Type*} (next : κ → Nat)

/-- The list from `p` on visits `l`, whose cells are all allocated. -/
def Cells (heap : Nat → Option κ) : Nat → List Nat → Prop
  | p, [] => p = 0
  | p, q :: l => p = q ∧ q ≠ 0 ∧ ∃ c, heap q = some c ∧ Cells heap (next c) l

/-- The first cell with the property from `p` on, 0 if there is none. `none` is a step on a cell
that is not allocated, or more than `n` steps. -/
def search (heap : Nat → Option κ) (good : κ → Bool) : (n p : Nat) → Option Nat
  | 0, p => if p = 0 then some 0 else none
  | n + 1, p =>
      if p = 0 then some 0
      else match heap p with
        | none => none
        | some c => if good c then some p else search heap good n (next c)

/-- The search ends at a cell with the property, or at the null pointer. -/
theorem search_good {heap : Nat → Option κ} {good : κ → Bool} {n p q : Nat}
    (h : search next heap good n p = some q) : q = 0 ∨ (heap q).any good = true := by
  induction n generalizing p with
  | zero =>
      rw [search] at h
      split at h
      · exact .inl (Option.some.inj h).symm
      · cases h
  | succ n ih =>
      rw [search] at h
      split at h
      · exact .inl (Option.some.inj h).symm
      · cases hc : heap p with
        | none =>
            rw [hc] at h
            cases h
        | some c =>
            rw [hc] at h
            dsimp only at h
            split at h
            · next hgood =>
                obtain rfl := Option.some.inj h
                exact .inr (by rw [hc]; exact hgood)
            · exact ih h

namespace Cells

variable {next} {heap heap' : Nat → Option κ} {p q b : Nat} {l l₁ l₂ : List Nat}

@[simp] theorem nil_iff : Cells next heap p [] ↔ p = 0 := Iff.rfl

@[simp] theorem cons_iff :
    Cells next heap p (q :: l) ↔
      p = q ∧ q ≠ 0 ∧ ∃ c, heap q = some c ∧ Cells next heap (next c) l := Iff.rfl

/-- The list as a chain of the links, where an address that is not allocated links to 0. -/
theorem linked (h : Cells next heap p l) :
    Linked (fun a => ((heap a).map next).getD 0) 0 p l := by
  induction l generalizing p with
  | nil => exact h
  | cons q l ih =>
      obtain ⟨rfl, hp, c, hc, hl⟩ := h
      refine ⟨rfl, hp, ?_⟩
      simpa [hc] using ih hl

theorem nodup (h : Cells next heap p l) : l.Nodup := h.linked.nodup

theorem unique (h₁ : Cells next heap p l₁) (h₂ : Cells next heap p l₂) : l₁ = l₂ :=
  h₁.linked.unique h₂.linked

/-- Every cell of the list is allocated. -/
theorem allocated (h : Cells next heap p l) : ∀ a ∈ l, ∃ c, heap a = some c := by
  induction l generalizing p with
  | nil => simp
  | cons q l ih =>
      obtain ⟨rfl, -, c, hc, hl⟩ := h
      intro a ha
      cases List.mem_cons.mp ha with
      | inl heq => exact ⟨c, heq ▸ hc⟩
      | inr hmem => exact ih hl a hmem

theorem ne_zero (h : Cells next heap p l) : ∀ a ∈ l, a ≠ 0 := h.linked.ne_stop

/-- The part of a list from one of its cells on. -/
theorem of_append (h : Cells next heap p (l₁ ++ q :: l₂)) : Cells next heap q (q :: l₂) := by
  induction l₁ generalizing p with
  | nil => exact ⟨rfl, h.2⟩
  | cons r l₁ ih =>
      obtain ⟨-, -, c, -, hl⟩ := h
      exact ih hl

/-- The part of a list behind one of its cells. -/
theorem behind (h : Cells next heap p (l₁ ++ q :: l₂)) {c : κ} (hc : heap q = some c) :
    Cells next heap (next c) l₂ := by
  obtain ⟨-, -, c', hc', hl⟩ := h.of_append
  obtain rfl := Option.some.inj (hc.symm.trans hc')
  exact hl

/-- A list depends only on the links of its own cells. -/
theorem congr (h : Cells next heap p l)
    (hsame : ∀ a ∈ l, (heap' a).map next = (heap a).map next) : Cells next heap' p l := by
  induction l generalizing p with
  | nil => exact h
  | cons q l ih =>
      obtain ⟨rfl, hp, c, hc, hl⟩ := h
      have hnext := hsame p (by simp)
      rw [hc, Option.map_some] at hnext
      obtain ⟨c', hc', hlink⟩ := Option.map_eq_some_iff.mp hnext
      refine ⟨rfl, hp, c', hc', ?_⟩
      rw [hlink]
      exact ih hl fun a ha => hsame a (by simp [ha])

/-- Relinking one cell replaces the part of the list behind it. -/
theorem splice (h : Cells next heap p (l₁ ++ q :: l))
    (hsame : ∀ a ∈ l₁, (heap' a).map next = (heap a).map next)
    (hq : (heap' q).map next = some b) (hb : Cells next heap' b l₂) :
    Cells next heap' p (l₁ ++ q :: l₂) := by
  induction l₁ generalizing p with
  | nil =>
      obtain ⟨rfl, hp, -⟩ := h
      obtain ⟨c, hc, rfl⟩ := Option.map_eq_some_iff.mp hq
      exact ⟨rfl, hp, c, hc, hb⟩
  | cons r l₁ ih =>
      obtain ⟨rfl, hp, c, hc, hl⟩ := h
      have hnext := hsame p (by simp)
      rw [hc, Option.map_some] at hnext
      obtain ⟨c', hc', hlink⟩ := Option.map_eq_some_iff.mp hnext
      refine ⟨rfl, hp, c', hc', ?_⟩
      rw [hlink]
      exact ih hl fun a ha => hsame a (by simp [ha])

/-- Taking the cell `b` behind `r` out of the list, whatever happens to `b`. -/
theorem unlink {r : Nat} {d : κ} (h : Cells next heap p (l₁ ++ r :: b :: l₂))
    (hd : heap b = some d) (hsame : ∀ a, a ≠ r → a ≠ b → heap' a = heap a)
    (hr : (heap' r).map next = some (next d)) : Cells next heap' p (l₁ ++ r :: l₂) := by
  have hnodup := List.nodup_append.mp h.nodup
  have hbehind := (List.nodup_cons.mp hnodup.2.1)
  have hlast := (List.nodup_cons.mp hbehind.2)
  have hfirst : ∀ a ∈ l₁, heap' a = heap a := fun a ha =>
    hsame a (hnodup.2.2 a ha r (by simp)) (hnodup.2.2 a ha b (by simp))
  have hrest : ∀ a ∈ l₂, heap' a = heap a := by
    intro a ha
    refine hsame a ?_ ?_
    · rintro rfl
      exact hbehind.1 (List.mem_cons_of_mem _ ha)
    · rintro rfl
      exact hlast.1 ha
  have h' : Cells next heap p ((l₁ ++ [r]) ++ b :: l₂) := by simpa using h
  exact h.splice (fun a ha => by rw [hfirst a ha]) hr
    ((h'.behind hd).congr fun a ha => by rw [hrest a ha])

/-- No cell of a list links to a cell that is not in it. -/
theorem link_ne (h : Cells next heap p l) (hb : b ∉ l) (hzero : b ≠ 0) :
    ∀ a ∈ l, (heap a).map next ≠ some b := by
  intro a ha heq
  have hnext := h.linked.next_mem ha
  rw [heq] at hnext
  exact hnext.elim hzero hb

/-- A cell other than the first one follows some cell of the list. -/
theorem split (h : Cells next heap p l) (hq : q ∈ l) (hne : q ≠ p) :
    ∃ l₁ r l₂, l = l₁ ++ r :: q :: l₂ ∧ l.erase q = l₁ ++ r :: l₂ := by
  obtain ⟨l₁, l₂, rfl⟩ := List.append_of_mem hq
  have hnot : q ∉ l₁ := fun hmem => (List.nodup_append.mp h.nodup).2.2 q hmem q (by simp) rfl
  have hsome : l₁ ≠ [] := by
    intro hnil
    subst hnil
    exact hne h.1.symm
  obtain ⟨l₀, r, rfl⟩ := (List.eq_nil_or_concat' l₁).resolve_left hsome
  refine ⟨l₀, r, l₂, by simp, ?_⟩
  rw [List.erase_append_right _ hnot, List.erase_cons_head, List.append_assoc]
  rfl

/-- The first cell of a list that is not empty. -/
theorem head_mem {q : Nat} (h : Cells next heap p l) (hq : q ∈ l) : p ∈ l := by
  cases l with
  | nil => exact absurd hq List.not_mem_nil
  | cons r l => exact h.1 ▸ List.mem_cons_self

/-- The search returns the first cell of the list with the property. -/
theorem search_eq (h : Cells next heap p l) (good : κ → Bool) {n : Nat} (hn : l.length ≤ n) :
    search next heap good n p = some ((l.find? fun a => (heap a).any good).getD 0) := by
  induction l generalizing p n with
  | nil =>
      obtain rfl := h
      cases n <;> rfl
  | cons q l ih =>
      obtain ⟨rfl, hp, c, hc, hl⟩ := h
      cases n with
      | zero => simp at hn
      | succ n =>
          rw [search, if_neg hp, hc]
          by_cases hgood : good c = true
          · simp [hc, hgood]
          · simpa [hc, hgood] using ih hl (by simpa using hn)

/-- The search for the cell that links to `b`: behind the cells before it, no link leads to
`b`. -/
theorem search_link (h : Cells next heap p (l₁ ++ q :: l)) (hb : b ∉ l₁ ++ [q])
    (hq : (heap q).map next = some b) {n : Nat} (hn : l₁.length < n) :
    search next heap (fun c => next c == b) n p = some q := by
  induction l₁ generalizing p n with
  | nil =>
      obtain ⟨rfl, hp, c, hc, -⟩ := h
      obtain ⟨n, rfl⟩ : ∃ m, n = m + 1 := ⟨n - 1, by omega⟩
      rw [hc, Option.map_some] at hq
      rw [search, if_neg hp, hc]
      simp [Option.some.inj hq]
  | cons r l₁ ih =>
      obtain ⟨rfl, hp, c, hc, hl⟩ := h
      obtain ⟨n, rfl⟩ : ∃ m, n = m + 1 := ⟨n - 1, by omega⟩
      have hne : next c ≠ b := by
        intro heq
        cases l₁ with
        | nil => exact hb (by simp [← heq, hl.1])
        | cons y l₁ => exact hb (by simp [← heq, hl.1])
      rw [search, if_neg hp, hc]
      simp only [beq_iff_eq, hne, if_false]
      exact ih hl (fun hmem => hb (List.mem_cons_of_mem _ hmem)) (by simpa using hn)

end Cells

end Sirius.Library
