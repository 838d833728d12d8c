import Mathlib.Logic.Relation
import Mathlib.Tactic

/-!
# Walks over the places of a buffer

A parser that goes through a buffer of variable-length records walks from place to place; `next`
is where it goes on, and it always goes forward. `KeepsLast` is the state of a variable that the
parser overwrites at every place of a kind, `Chosen` compares such a variable with a
specification.
-/

namespace Sirius.Library

/-- The places of the walk that starts at 0. -/
def Visits (next : Nat → Option Nat) : Nat → Prop :=
  Relation.ReflTransGen (fun p q => next p = some q) 0

/-- The walk goes forward. -/
def GoesForward (next : Nat → Option Nat) : Prop := ∀ p q, next p = some q → p < q

/-- The first place of a kind on the walk. -/
structure FirstVisit (next : Nat → Option Nat) (kind : Nat → Prop) (p : Nat) : Prop where
  visited : Visits next p
  ofKind : kind p
  first : ∀ q < p, Visits next q → ¬ kind q

/-- The last place of a kind on the walk. -/
structure LastVisit (next : Nat → Option Nat) (kind : Nat → Prop) (p : Nat) : Prop where
  visited : Visits next p
  ofKind : kind p
  last : ∀ q, p < q → Visits next q → ¬ kind q

/-- The variable after the walk has come to `i`: it has the value of the last place of the kind
before `i`, or its old one. -/
def KeepsLast {β : Type*} (next : Nat → Option Nat) (kind : Nat → Prop) (value : Nat → β)
    (i : Nat) (old v : β) : Prop :=
  (∃ p, Visits next p ∧ kind p ∧ p < i ∧ v = value p ∧
      ∀ q, p < q → q < i → Visits next q → ¬ kind q) ∨
    ((∀ q < i, Visits next q → ¬ kind q) ∧ v = old)

/-- The variable is set to the value that has the property, otherwise it has its old value. -/
def Chosen {β : Type*} (property : β → Prop) (old v : β) : Prop :=
  (∀ x, property x → v = x) ∧ ((∀ x, ¬ property x) → v = old)

variable {β : Type*} {next : Nat → Option Nat} {kind : Nat → Prop} {value : Nat → β}
  {i j p q r : Nat} {old v : β} {P Q : β → Prop}

namespace Visits

theorem start : Visits next 0 := Relation.ReflTransGen.refl

theorem step (h : Visits next p) (hnext : next p = some q) : Visits next q :=
  Relation.ReflTransGen.tail h hnext

/-- A stretch in which the walk goes on by one place. -/
theorem run (h : Visits next i) (hij : i ≤ j) (hnext : ∀ p, i ≤ p → p < j → next p = some (p + 1)) :
    Visits next j := by
  induction j, hij using Nat.le_induction with
  | base => exact h
  | succ j hij ih =>
      exact (ih fun p hp hpj => hnext p hp (hpj.trans (Nat.lt_succ_self j))).step
        (hnext j hij (Nat.lt_succ_self j))

theorem forward (hforward : GoesForward next)
    (h : Relation.ReflTransGen (fun p q => next p = some q) p q) : p ≤ q := by
  induction h with
  | refl => exact Nat.le_refl p
  | tail _ hnext ih => exact ih.trans (hforward _ _ hnext).le

/-- No place of the walk is between a place and the next one. -/
theorem gap (hforward : GoesForward next) (hp : Visits next p) (hnext : next p = some q)
    (hr : Visits next r) : r ≤ p ∨ q ≤ r := by
  have hunique : Relator.RightUnique fun p q => next p = some q := fun p q r hq hr =>
    Option.some.inj (hq.symm.trans hr)
  rcases Relation.ReflTransGen.total_of_right_unique hunique hp hr with hreach | hreach
  · rcases Relation.ReflTransGen.cases_head hreach with rfl | ⟨s, hs, hreach⟩
    · exact .inl (Nat.le_refl p)
    · cases hnext.symm.trans hs
      exact .inr (forward hforward hreach)
  · exact .inl (forward hforward hreach)

/-- The walk does not go on behind its end. -/
theorem le_end (hforward : GoesForward next) (hp : Visits next p) (hnext : next p = none)
    (hr : Visits next r) : r ≤ p := by
  have hunique : Relator.RightUnique fun p q => next p = some q := fun p q r hq hr =>
    Option.some.inj (hq.symm.trans hr)
  rcases Relation.ReflTransGen.total_of_right_unique hunique hp hr with hreach | hreach
  · rcases Relation.ReflTransGen.cases_head hreach with rfl | ⟨s, hs, -⟩
    · exact Nat.le_refl p
    · cases hnext.symm.trans hs
  · exact forward hforward hreach

end Visits

theorem LastVisit.unique (hp : LastVisit next kind p) (hq : LastVisit next kind q) : p = q :=
  Nat.le_antisymm (Nat.le_of_not_lt fun h => hq.last p h hp.visited hp.ofKind)
    (Nat.le_of_not_lt fun h => hp.last q h hq.visited hq.ofKind)

namespace KeepsLast

theorem start (old : β) : KeepsLast next kind value 0 old old :=
  .inr ⟨fun q hq => absurd hq (Nat.not_lt_zero q), rfl⟩

/-- At a place of the kind the variable gets the value of that place. -/
theorem hit (hforward : GoesForward next) (hi : Visits next i) (hkind : kind i)
    (hnext : next i = some j) : KeepsLast next kind value j old (value i) :=
  .inl ⟨i, hi, hkind, hforward i j hnext, rfl, fun q hq hqj hvisit => by
    rcases hi.gap hforward hnext hvisit with hle | hle <;> omega⟩

/-- At another place the variable stays as it is. -/
theorem skip (hforward : GoesForward next) (hi : Visits next i) (hkind : ¬ kind i)
    (hnext : next i = some j) (h : KeepsLast next kind value i old v) :
    KeepsLast next kind value j old v := by
  have hij := hforward i j hnext
  have hcases : ∀ q < j, Visits next q → q < i ∨ q = i := fun q hq hvisit => by
    rcases hi.gap hforward hnext hvisit with hle | hle <;> omega
  rcases h with ⟨p, hp, hkindp, hpi, hv, hlast⟩ | ⟨hnone, hv⟩
  · refine .inl ⟨p, hp, hkindp, hpi.trans hij, hv, fun q hpq hqj hvisit => ?_⟩
    rcases hcases q hqj hvisit with hqi | rfl
    · exact hlast q hpq hqi hvisit
    · exact hkind
  · refine .inr ⟨fun q hqj hvisit => ?_, hv⟩
    rcases hcases q hqj hvisit with hqi | rfl
    · exact hnone q hqi hvisit
    · exact hkind

/-- At the end of the walk. -/
theorem chosen (h : KeepsLast next kind value i old v)
    (hend : ∀ q, Visits next q → kind q → q < i) :
    Chosen (fun x => ∃ p, LastVisit next kind p ∧ value p = x) old v := by
  rcases h with ⟨p, hp, hkind, -, rfl, hlast⟩ | ⟨hnone, hv⟩
  · have hvisit : LastVisit next kind p :=
      ⟨hp, hkind, fun q hpq hq hkindq => hlast q hpq (hend q hq hkindq) hq hkindq⟩
    refine ⟨?_, fun h => absurd ⟨p, hvisit, rfl⟩ (h _)⟩
    rintro x ⟨q, hq, rfl⟩
    rw [hvisit.unique hq]
  · refine ⟨?_, fun _ => hv⟩
    rintro x ⟨q, hq, rfl⟩
    exact absurd hq.ofKind (hnone q (hend q hq.visited hq.ofKind) hq.visited)

end KeepsLast

namespace Chosen

theorem congr (hiff : ∀ x, P x ↔ Q x) (h : Chosen P old v) : Chosen Q old v :=
  ⟨fun x hx => h.1 x ((hiff x).mpr hx), fun hnone => h.2 fun x hx => hnone x ((hiff x).mp hx)⟩

/-- A property that holds of the chosen value for every old value holds where the other one
does. -/
theorem imp_of_both [Nontrivial β] (h : ∀ old, ∃ v, Chosen P old v ∧ Chosen Q old v) {x : β}
    (hx : P x) : Q x := by
  obtain ⟨old, hold⟩ := exists_ne x
  obtain ⟨v, hP, hQ⟩ := h old
  have hv := hP.1 x hx
  by_contra hQx
  by_cases hany : ∃ y, Q y
  · obtain ⟨y, hy⟩ := hany
    exact hQx ((hv.symm.trans (hQ.1 y hy)) ▸ hy)
  · exact hold ((hQ.2 (not_exists.mp hany)).symm.trans hv)

/-- Two properties that choose the same value for every old value are equivalent. -/
theorem iff_of_both [Nontrivial β] (h : ∀ old, ∃ v, Chosen P old v ∧ Chosen Q old v) (x : β) :
    P x ↔ Q x :=
  ⟨imp_of_both h, imp_of_both fun old => (h old).imp fun _ hv => hv.symm⟩

end Chosen

end Sirius.Library
