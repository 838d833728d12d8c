import Mathlib.Data.List.GetD
import Sirius.Library.Bytes

/-!
# Strings in memory

A C string is the list of the bytes before its terminating null byte. `HoldsString m a s` says that
the memory `m` holds the string `s` at the address `a`.
-/

namespace Sirius.Library

/-- The memory holds the string, with its null byte. -/
def HoldsString (m : Bytes) (a : Nat) (s : List Byte) : Prop :=
  ∀ i ≤ s.length, m (a + i) = s.getD i 0#8

variable {m m' : Bytes} {a b i : Nat} {s t : List Byte}

namespace HoldsString

theorem byte (h : HoldsString m a s) (hi : i < s.length) : m (a + i) = s[i] := by
  rw [h i hi.le, List.getD_eq_getElem _ _ hi]

theorem terminated (h : HoldsString m a s) : m (a + s.length) = 0#8 := by
  rw [h _ le_rfl, List.getD_eq_default _ _ le_rfl]

/-- A string is determined by its bytes. -/
theorem congr (h : HoldsString m a s) (hsame : ∀ i ≤ s.length, m' (b + i) = m (a + i)) :
    HoldsString m' b s := fun i hi => (hsame i hi).trans (h i hi)

/-- The first byte, and the string behind it. -/
theorem cons_iff {c : Byte} :
    HoldsString m a (c :: s) ↔ m a = c ∧ HoldsString m (a + 1) s := by
  constructor
  · intro h
    refine ⟨h 0 (Nat.zero_le _), fun i hi => ?_⟩
    rw [Nat.add_assoc, Nat.add_comm 1 i]
    exact h (i + 1) (Nat.succ_le_succ hi)
  · rintro ⟨hc, hs⟩ i hi
    cases i with
    | zero => exact hc
    | succ i =>
        have hbyte := hs i (Nat.le_of_succ_le_succ hi)
        rwa [Nat.add_assoc, Nat.add_comm 1 i] at hbyte

theorem nil_iff : HoldsString m a [] ↔ m a = 0#8 := by
  constructor
  · exact fun h => h 0 le_rfl
  · intro h i hi
    rwa [Nat.le_zero.mp hi]

/-- The part of a string behind some of its bytes. -/
theorem behind (h : HoldsString m a (s ++ t)) : HoldsString m (a + s.length) t := by
  induction s generalizing a with
  | nil => exact h
  | cons c s ih =>
      rw [List.length_cons, Nat.add_comm s.length 1, ← Nat.add_assoc]
      exact ih (cons_iff.mp h).2

/-- The bytes in front of a part of a string. -/
theorem front (h : HoldsString m a (s ++ t)) (hi : i < s.length) : m (a + i) = s[i] := by
  rw [h.byte (by rw [List.length_append]; omega), List.getElem_append_left hi]

/-- A string from its parts. -/
theorem append (hs : ∀ k (hk : k < s.length), m (a + k) = s[k])
    (ht : HoldsString m (a + s.length) t) : HoldsString m a (s ++ t) := by
  induction s generalizing a with
  | nil => exact ht
  | cons c s ih =>
      rw [List.length_cons, Nat.add_comm s.length 1, ← Nat.add_assoc] at ht
      refine cons_iff.mpr ⟨hs 0 (Nat.succ_pos _), ih (fun k hk => ?_) ht⟩
      rw [Nat.add_assoc, Nat.add_comm 1 k]
      exact hs (k + 1) (Nat.succ_lt_succ hk)

/-- A string from its bytes and its null byte. -/
theorem of_bytes (hs : ∀ k (hk : k < s.length), m (a + k) = s[k]) (hend : m (a + s.length) = 0#8) :
    HoldsString m a s := by
  have hwhole := append hs (nil_iff.mpr hend)
  rwa [List.append_nil] at hwhole

/-- A null byte behind a part of a string ends the string there. -/
theorem cut (h : HoldsString m a (s ++ t)) :
    HoldsString (Function.update m (a + s.length) 0#8) a s := by
  refine of_bytes (fun k hk => ?_) (Function.update_self ..)
  rw [Function.update_of_ne (by omega), h.front hk]

/-- Two strings without a null byte at the same address are equal. -/
theorem unique (hs : HoldsString m a s) (ht : HoldsString m a t) (hs₀ : 0#8 ∉ s) (ht₀ : 0#8 ∉ t) :
    s = t := by
  induction s generalizing a t with
  | nil =>
      cases t with
      | nil => rfl
      | cons d t =>
          have hd : d = 0#8 := (cons_iff.mp ht).1.symm.trans (nil_iff.mp hs)
          exact absurd (hd ▸ List.mem_cons_self) ht₀
  | cons c s ih =>
      cases t with
      | nil =>
          have hc : c = 0#8 := (cons_iff.mp hs).1.symm.trans (nil_iff.mp ht)
          exact absurd (hc ▸ List.mem_cons_self) hs₀
      | cons d t =>
          obtain ⟨hc, hs⟩ := cons_iff.mp hs
          obtain ⟨hd, ht⟩ := cons_iff.mp ht
          rw [ih hs ht (fun hmem => hs₀ (List.mem_cons_of_mem _ hmem))
            fun hmem => ht₀ (List.mem_cons_of_mem _ hmem), ← hc, ← hd]

end HoldsString

end Sirius.Library
