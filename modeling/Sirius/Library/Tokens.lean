import Mathlib.Data.List.TakeWhile
import Mathlib.Tactic

/-!
# Tokens

The tokens of a list are its maximal runs of elements that are no delimiters. `Token p l` is the
first look at a list: its leading delimiters, and behind them nothing, a last token, or a token
and the delimiter that ends it.
-/

namespace Sirius.Library

variable {α : Type*} {p : α → Bool} {l lead tok rest : List α} {d : α}

/-- The maximal runs of non-delimiters. -/
def tokens (p : α → Bool) (l : List α) : List (List α) := (l.splitOnP p).filter (!·.isEmpty)

/-- All elements are delimiters. -/
def AllDelims (p : α → Bool) (l : List α) : Prop := ∀ x ∈ l, p x = true

/-- No element is a delimiter. -/
def NoDelims (p : α → Bool) (l : List α) : Prop := ∀ x ∈ l, p x = false

/-- What a list begins with. -/
inductive FirstToken (p : α → Bool) : List α → Prop
  | none {lead : List α} : AllDelims p lead → FirstToken p lead
  | last {lead tok : List α} : AllDelims p lead → NoDelims p tok → tok ≠ [] →
      FirstToken p (lead ++ tok)
  | more {lead tok rest : List α} {d : α} : AllDelims p lead → NoDelims p tok → tok ≠ [] →
      p d = true → FirstToken p (lead ++ tok ++ d :: rest)

theorem tokens_cons_delim (hd : p d = true) : tokens p (d :: l) = tokens p l := by
  rw [tokens, List.splitOnP_cons_eq_if_modifyHead, if_pos hd]
  rfl

theorem tokens_lead (hlead : AllDelims p lead) : tokens p (lead ++ l) = tokens p l := by
  induction lead with
  | nil => rfl
  | cons d lead ih =>
      rw [List.cons_append, tokens_cons_delim (hlead d List.mem_cons_self)]
      exact ih fun x hx => hlead x (List.mem_cons_of_mem d hx)

theorem tokens_none (hlead : AllDelims p lead) : tokens p lead = [] := by
  have h := tokens_lead (l := []) hlead
  rw [List.append_nil] at h
  rw [h, tokens, List.splitOnP_nil]
  rfl

theorem tokens_last (hlead : AllDelims p lead) (htok : NoDelims p tok) (hne : tok ≠ []) :
    tokens p (lead ++ tok) = [tok] := by
  rw [tokens_lead hlead, tokens, List.splitOnP_eq_singleton htok]
  exact List.filter_eq_self.mpr fun t ht => by
    rw [List.mem_singleton.mp ht]
    simpa using hne

theorem tokens_more (hlead : AllDelims p lead) (htok : NoDelims p tok) (hne : tok ≠ [])
    (hd : p d = true) : tokens p (lead ++ tok ++ d :: rest) = tok :: tokens p rest := by
  rw [List.append_assoc, tokens_lead hlead, tokens,
    List.splitOnP_append_cons_of_forall_mem htok d hd, List.filter_cons_of_pos]
  · rfl
  · simpa using hne

/-- Every list begins in one of the three ways. -/
theorem first_token (p : α → Bool) (l : List α) : FirstToken p l := by
  have hlead : AllDelims p (l.takeWhile p) := fun x hx => List.mem_takeWhile_imp hx
  have hl := List.takeWhile_append_dropWhile (p := p) (l := l)
  generalize hbehind : l.dropWhile p = behind at hl
  cases behind with
  | nil =>
      rw [List.append_nil] at hl
      rw [← hl]
      exact .none hlead
  | cons c behind =>
      have hc : p c = false := by
        have hhead := List.head_dropWhile_not p (l := l) (by rw [hbehind]; exact List.cons_ne_nil _ _)
        simpa only [hbehind, List.head_cons] using hhead
      have htok : NoDelims p ((c :: behind).takeWhile (!p ·)) := fun x hx => by
        simpa using List.mem_takeWhile_imp hx
      have hne : (c :: behind).takeWhile (!p ·) ≠ [] := by
        rw [List.takeWhile_cons_of_pos (by rw [hc]; rfl)]
        exact List.cons_ne_nil _ _
      have htail := List.takeWhile_append_dropWhile (p := (!p ·)) (l := c :: behind)
      generalize hend : (c :: behind).dropWhile (!p ·) = ending at htail
      cases ending with
      | nil =>
          rw [List.append_nil] at htail
          rw [← hl, ← htail]
          exact .last hlead htok hne
      | cons d rest =>
          have hd : p d = true := by
            have hhead := List.head_dropWhile_not (!p ·) (l := c :: behind)
              (by rw [hend]; exact List.cons_ne_nil _ _)
            simpa only [hend, List.head_cons, Bool.not_eq_false'] using hhead
          rw [← hl, ← htail, ← List.append_assoc]
          exact .more hlead htok hne hd

end Sirius.Library
