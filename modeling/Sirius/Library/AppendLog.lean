import Mathlib.Data.Finset.Card
import Mathlib.Data.Finset.Dedup
import Mathlib.Data.List.Basic

/-!
# A log that is only appended to

A log of records. A record for which `once` holds is entered only when it is not in the log yet; all
others are entered every time. `boundedLog` is the log in a table of `cap` places, which loses what
comes when it is full. The first record that satisfies a predicate stays the first one for ever, so
a search in the table finds the first of its kind, if it came early enough.
-/

namespace Sirius.Library

variable {α : Type*} [DecidableEq α] (once : α → Bool)

/-- The log after one more record. -/
def logRecord (log : List α) (a : α) : List α :=
  if once a ∧ a ∈ log then log else log ++ [a]

/-- The log of some records. -/
def logAll (records : List α) : List α := records.foldl (logRecord once) []

/-- The log in a table of `cap` places. -/
def boundedRecord (cap : Nat) (log : List α) (a : α) : List α :=
  if (once a ∧ a ∈ log) ∨ cap ≤ log.length then log else log ++ [a]

def boundedLog (cap : Nat) (records : List α) : List α :=
  records.foldl (boundedRecord once cap) []

variable {once} {records pre post : List α} {a c : α} {cap : Nat} {p : α → Bool}

theorem log_all_snoc (records : List α) (a : α) :
    logAll once (records ++ [a]) = logRecord once (logAll once records) a :=
  List.foldl_concat ..

theorem bounded_log_snoc (cap : Nat) (records : List α) (a : α) :
    boundedLog once cap (records ++ [a]) = boundedRecord once cap (boundedLog once cap records) a :=
  List.foldl_concat ..

theorem log_record_extends (log : List α) (a : α) : log <+: logRecord once log a := by
  unfold logRecord
  split
  · exact List.prefix_refl _
  · exact List.prefix_append ..

theorem log_all_extends (pre post : List α) : logAll once pre <+: logAll once (pre ++ post) := by
  induction post using List.reverseRecOn with
  | nil => rw [List.append_nil]
  | append_singleton post a ih =>
      rw [← List.append_assoc, log_all_snoc]
      exact ih.trans (log_record_extends _ a)

theorem mem_log_all : a ∈ logAll once records ↔ a ∈ records := by
  induction records using List.reverseRecOn with
  | nil => rfl
  | append_singleton records c ih =>
      rw [log_all_snoc, logRecord, List.mem_append, List.mem_singleton, ← ih]
      split
      · rename_i hc
        constructor
        · exact Or.inl
        · rintro (h | rfl)
          · exact h
          · exact hc.2
      · rw [List.mem_append, List.mem_singleton]

/-- The records with `once` count once, the others every time. -/
def recordCount (once : α → Bool) (records : List α) : Nat :=
  (records.filter once).toFinset.card + (records.filter fun a => !once a).length

theorem length_log_all (records : List α) :
    (logAll once records).length = recordCount once records := by
  induction records using List.reverseRecOn with
  | nil => rfl
  | append_singleton records a ih =>
      rw [log_all_snoc, logRecord, recordCount, List.filter_append, List.filter_append]
      unfold recordCount at ih
      by_cases ha : once a = true
      · have hrest : [a].filter (fun a => !once a) = [] := by simp [ha]
        have hone : [a].filter once = [a] := by simp [ha]
        have hset : (records.filter once ++ [a]).toFinset =
            insert a (records.filter once).toFinset := by
          ext x
          simp only [List.mem_toFinset, List.mem_append, List.mem_singleton, Finset.mem_insert]
          exact or_comm
        rw [hrest, hone, hset, List.append_nil]
        by_cases hmem : a ∈ logAll once records
        · have hold : a ∈ (records.filter once).toFinset := by
            rw [List.mem_toFinset, List.mem_filter]
            exact ⟨mem_log_all.mp hmem, ha⟩
          rw [if_pos ⟨ha, hmem⟩, Finset.insert_eq_of_mem hold, ih]
        · have hnew : a ∉ (records.filter once).toFinset := by
            rw [List.mem_toFinset, List.mem_filter]
            exact fun h => hmem (mem_log_all.mpr h.1)
          rw [if_neg fun h => hmem h.2, Finset.card_insert_of_notMem hnew, List.length_append, ih,
            List.length_singleton]
          omega
      · have hrest : [a].filter (fun a => !once a) = [a] := by simp [ha]
        have hnone : [a].filter once = [] := by simp [ha]
        rw [hrest, hnone, if_neg fun h => ha h.1, List.append_nil, List.length_append,
          List.length_append, ih, List.length_singleton, Nat.add_assoc]

/-- The table holds the first `cap` records of the log. -/
theorem bounded_log_eq (cap : Nat) (records : List α) :
    boundedLog once cap records = (logAll once records).take cap := by
  induction records using List.reverseRecOn with
  | nil => exact List.take_nil.symm
  | append_singleton records a ih =>
      rw [bounded_log_snoc, log_all_snoc, ih, boundedRecord, logRecord, List.length_take]
      by_cases hfull : cap ≤ (logAll once records).length
      · rw [if_pos (Or.inr (by omega))]
        split
        · rfl
        · rw [List.take_append_of_le_length hfull]
      · have hall : (logAll once records).take cap = logAll once records :=
          List.take_of_length_le (by omega)
        rw [hall]
        by_cases hmem : once a ∧ a ∈ logAll once records
        · rw [if_pos (Or.inl hmem), if_pos hmem, hall]
        · rw [if_neg (not_or.mpr ⟨hmem, by omega⟩), if_neg hmem, List.take_of_length_le]
          rw [List.length_append, List.length_singleton]
          omega

/-- A search in the table finds the first record of its kind, if fewer than `cap` records were
entered before it. -/
theorem find_bounded_log (hpre : ∀ d ∈ pre, p d = false) (hc : p c = true) :
    (boundedLog once cap (pre ++ c :: post)).find? p =
      if recordCount once pre < cap then some c else none := by
  rw [bounded_log_eq, ← length_log_all]
  have hnone : ∀ d ∈ logAll once pre, ¬ p d = true := by
    intro d hd
    rw [hpre d (mem_log_all.mp hd)]
    exact Bool.false_ne_true
  have hentered : logAll once (pre ++ [c]) = logAll once pre ++ [c] := by
    rw [log_all_snoc, logRecord, if_neg fun h => ?_]
    exact hnone c h.2 hc
  have hprefix := @log_all_extends α _ once (pre ++ [c]) post
  rw [hentered, List.append_assoc, List.singleton_append] at hprefix
  obtain ⟨rest, hlog⟩ := hprefix
  rw [← hlog]
  split
  · rename_i hroom
    obtain ⟨n, hn⟩ : ∃ n, cap = (logAll once pre).length + (n + 1) := 
      ⟨cap - (logAll once pre).length - 1, by omega⟩
    rw [hn, List.append_assoc, List.take_length_add_append, List.singleton_append, List.take_succ_cons,
      List.find?_append, List.find?_eq_none.mpr hnone, Option.none_or, List.find?_cons_of_pos hc]
  · rename_i hfull
    rw [List.append_assoc, List.take_append_of_le_length (Nat.not_lt.mp hfull)]
    exact List.find?_eq_none.mpr fun d hd => hnone d (List.mem_of_mem_take hd)

end Sirius.Library
