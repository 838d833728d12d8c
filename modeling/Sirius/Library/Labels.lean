import Mathlib.Tactic
import Sirius.Library.Bytes

/-!
# Length-prefixed labels

A list of labels is written as the length and the bytes of each label, ended by a zero byte. A
reader takes lengths below 64 only; `decode_encode_labels` is the round trip.
-/

namespace Sirius.Library

/-- The labels one after another, each behind its length. -/
def labelBytes (labels : List (List Byte)) : List Byte :=
  labels.flatMap fun label => BitVec.ofNat 8 label.length :: label

/-- The labels of a whole name. -/
def encodeLabels (labels : List (List Byte)) : List Byte := labelBytes labels ++ [0#8]

/-- The labels up to the zero byte, and what is behind it. -/
def decodeLabels : (fuel : Nat) → List Byte → Option (List (List Byte) × List Byte)
  | 0, _ => none
  | _ + 1, [] => none
  | fuel + 1, n :: rest =>
      if n = 0#8 then some ([], rest)
      else if n.toNat < 64 ∧ n.toNat ≤ rest.length then
        (decodeLabels fuel (rest.drop n.toNat)).map fun decoded =>
          (rest.take n.toNat :: decoded.1, decoded.2)
      else none

/-- A label can be written and read back. -/
def IsLabel (label : List Byte) : Prop := label ≠ [] ∧ label.length ≤ 63

instance (label : List Byte) : Decidable (IsLabel label) := inferInstanceAs (Decidable (_ ∧ _))

variable {label : List Byte} {labels : List (List Byte)}

theorem label_length_to_nat (h : IsLabel label) :
    (BitVec.ofNat 8 label.length).toNat = label.length := by
  have := h.2
  rw [BitVec.toNat_ofNat]
  omega

theorem encode_labels_cons (label : List Byte) (labels : List (List Byte)) :
    encodeLabels (label :: labels) =
      BitVec.ofNat 8 label.length :: label ++ encodeLabels labels := by
  simp [encodeLabels, labelBytes]

/-- Reading back what was written. -/
theorem decode_encode_labels {fuel : Nat} (rest : List Byte) (h : ∀ label ∈ labels, IsLabel label)
    (hfuel : labels.length < fuel) :
    decodeLabels fuel (encodeLabels labels ++ rest) = some (labels, rest) := by
  obtain ⟨fuel, rfl⟩ := Nat.exists_eq_add_one_of_ne_zero (Nat.ne_of_gt (Nat.zero_lt_of_lt hfuel))
  induction labels generalizing fuel with
  | nil => rfl
  | cons label labels ih =>
      have hlabel := h label List.mem_cons_self
      have hlength := label_length_to_nat hlabel
      have hzero : BitVec.ofNat 8 label.length ≠ 0#8 := fun hzero => by
        rw [hzero] at hlength
        exact hlabel.1 (List.length_eq_zero_iff.mp hlength.symm)
      obtain ⟨fuel, rfl⟩ := Nat.exists_eq_add_one_of_ne_zero (n := fuel) fun hfuel' => by
        subst hfuel'
        exact absurd hfuel (by simp)
      have hrest := ih (fun l hl => h l (List.mem_cons_of_mem _ hl)) fuel
        (by simpa using hfuel)
      rw [encode_labels_cons, decodeLabels.eq_def]
      simp only [List.cons_append, List.append_assoc, hlength]
      have hroom : label.length < 64 ∧
          label.length ≤ (label ++ (encodeLabels labels ++ rest)).length :=
        ⟨Nat.lt_succ_of_le hlabel.2, by simp⟩
      rw [if_neg hzero, if_pos hroom, List.drop_left, List.take_left, hrest]
      rfl

end Sirius.Library
