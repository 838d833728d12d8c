import Mathlib.Data.List.Basic
import Mathlib.Tactic

/-!
# Words of a text

The words of a text are its maximal runs without a separator. `layout` reads a text as the number
of separators in front of the first word and the words, each with the number of separators behind
it; `render` is the text of such a description. The two are inverse to each other, and the words of
a text are those of its layout.
-/

namespace Sirius.Library

variable {α : Type*} (sep : α)

/-! ### Words with the separators behind them -/

/-- A word with the number of separators behind it. -/
abbrev SpacedWord (α : Type*) := List α × Nat

/-- The text of some words and the separators behind them. -/
def renderWords : List (SpacedWord α) → List α
  | [] => []
  | (w, k) :: l => w ++ (List.replicate k sep ++ renderWords l)

/-- The text with `n` separators in front of the first word. -/
def render (n : Nat) (l : List (SpacedWord α)) : List α := List.replicate n sep ++ renderWords sep l

/-- Every word has a letter and no separator, and only the last one may have no separator behind
it. -/
def WellSpaced : List (SpacedWord α) → Prop
  | [] => True
  | (w, k) :: l => w ≠ [] ∧ sep ∉ w ∧ (k = 0 → l = []) ∧ WellSpaced l

/-- Words with one separator between them. -/
def joined : List (List α) → List (SpacedWord α)
  | [] => []
  | [w] => [(w, 0)]
  | w :: ws => (w, 1) :: joined ws

section Text

variable {sep} {s w : List α} {l : List (SpacedWord α)} {n k : Nat} {c : α} {ws : List (List α)}

@[simp] theorem render_words_nil : renderWords sep [] = [] := rfl

@[simp] theorem render_words_cons :
    renderWords sep ((w, k) :: l) = w ++ render sep k l := rfl

@[simp] theorem render_zero : render sep 0 l = renderWords sep l := rfl

theorem render_succ : render sep (n + 1) l = sep :: render sep n l := rfl

theorem render_nil : render sep n [] = List.replicate n sep := List.append_nil _

theorem joined_cons (hne : ws ≠ []) (w : List α) : joined (w :: ws) = (w, 1) :: joined ws := by
  cases ws with
  | nil => exact absurd rfl hne
  | cons v ws => rfl

theorem well_spaced_joined (h : ∀ w ∈ ws, w ≠ [] ∧ sep ∉ w) : WellSpaced sep (joined ws) := by
  induction ws with
  | nil => trivial
  | cons w ws ih =>
      obtain ⟨hne, hw⟩ := h w List.mem_cons_self
      by_cases hnil : ws = []
      · rw [hnil]
        exact ⟨hne, hw, fun _ => rfl, trivial⟩
      · rw [joined_cons hnil]
        exact ⟨hne, hw, fun hzero => absurd hzero one_ne_zero,
          ih fun v hv => h v (List.mem_cons_of_mem _ hv)⟩

theorem joined_words (ws : List (List α)) : (joined ws).map Prod.fst = ws := by
  induction ws with
  | nil => rfl
  | cons w ws ih =>
      by_cases hnil : ws = []
      · rw [hnil]
        rfl
      · rw [joined_cons hnil, List.map_cons, ih]

theorem joined_gap {f : SpacedWord α} (h : f ∈ joined ws) : f.1 ∈ ws ∧ f.2 ≤ 1 := by
  induction ws with
  | nil => exact absurd h List.not_mem_nil
  | cons w ws ih =>
      by_cases hnil : ws = []
      · rw [hnil] at h
        rw [List.mem_singleton.mp h]
        exact ⟨List.mem_cons_self, Nat.zero_le 1⟩
      · rw [joined_cons hnil] at h
        rcases List.mem_cons.mp h with rfl | h
        · exact ⟨List.mem_cons_self, le_rfl⟩
        · exact ⟨List.mem_cons_of_mem _ (ih h).1, (ih h).2⟩

/-- The text of joined words. -/
theorem render_joined_cons (hne : ws ≠ []) (w : List α) :
    renderWords sep (joined (w :: ws)) = w ++ sep :: renderWords sep (joined ws) := by
  rw [joined_cons hne, render_words_cons, render_succ, render_zero]

end Text

/-! ### Layout -/

variable [DecidableEq α]

/-- The words of a text. -/
def words (s : List α) : List (List α) := (s.splitOn sep).filter (!·.isEmpty)

/-- The separators in front of the first word, and the words with the separators behind them. -/
def layout : List α → Nat × List (SpacedWord α)
  | [] => (0, [])
  | c :: s =>
      if c = sep then ((layout s).1 + 1, (layout s).2)
      else match layout s with
        | (0, (w, k) :: l) => (0, (c :: w, k) :: l)
        | (n, l) => (0, ([c], n) :: l)

variable {sep} {s w : List α} {l : List (SpacedWord α)} {n k : Nat} {c : α} {ws : List (List α)}

/-- A letter in front of a text. -/
theorem layout_cons_letter (hc : c ≠ sep) :
    layout sep (c :: s) = match layout sep s with
      | (0, (w, k) :: l) => (0, (c :: w, k) :: l)
      | (n, l) => (0, ([c], n) :: l) := by
  rw [layout, if_neg hc]

theorem layout_cons_sep : layout sep (sep :: s) = ((layout sep s).1 + 1, (layout sep s).2) := by
  rw [layout, if_pos rfl]

/-- A text that starts with a letter starts with a word. -/
theorem layout_letter (hc : c ≠ sep) :
    (layout sep (c :: s)).1 = 0 ∧ (layout sep (c :: s)).2 ≠ [] := by
  rw [layout_cons_letter hc]
  split
  · exact ⟨rfl, List.cons_ne_nil _ _⟩
  · exact ⟨rfl, List.cons_ne_nil _ _⟩

/-- The layout of a text has its text and is well spaced. -/
theorem layout_spec (sep : α) (s : List α) :
    render sep (layout sep s).1 (layout sep s).2 = s ∧ WellSpaced sep (layout sep s).2 := by
  induction s with
  | nil => exact ⟨rfl, trivial⟩
  | cons c s ih =>
      by_cases hc : c = sep
      · subst hc
        rw [layout_cons_sep, render_succ, ih.1]
        exact ⟨rfl, ih.2⟩
      · rw [layout_cons_letter hc]
        obtain ⟨htext, hspaced⟩ := ih
        rcases hlayout : layout sep s with ⟨_ | n, _ | ⟨⟨w, k⟩, l⟩⟩
        · rw [hlayout] at htext
          have hnil : s = [] := htext.symm
          simp [WellSpaced, hnil, Ne.symm hc, render_nil]
        · -- the letter belongs to the first word
          rw [hlayout] at htext hspaced
          obtain ⟨-, hsep, hlast, hrest⟩ := hspaced
          refine ⟨congrArg (c :: ·) htext, List.cons_ne_nil _ _, ?_, hlast, hrest⟩
          rw [List.mem_cons, not_or]
          exact ⟨Ne.symm hc, hsep⟩
        · rw [hlayout] at htext
          refine ⟨congrArg (c :: ·) htext, List.cons_ne_nil _ _, ?_, fun _ => rfl, trivial⟩
          simpa using Ne.symm hc
        · rw [hlayout] at htext hspaced
          refine ⟨congrArg (c :: ·) htext, List.cons_ne_nil _ _, ?_, fun hzero => ?_, hspaced⟩
          · simpa using Ne.symm hc
          · exact absurd hzero (Nat.succ_ne_zero n)

theorem render_layout (sep : α) (s : List α) :
    render sep (layout sep s).1 (layout sep s).2 = s := (layout_spec sep s).1

theorem well_spaced_layout (sep : α) (s : List α) : WellSpaced sep (layout sep s).2 :=
  (layout_spec sep s).2

/-- A word and the separators behind it, in front of a text with a known layout. -/
theorem layout_word (hne : w ≠ []) (hw : sep ∉ w) (hs : layout sep s = (n, l))
    (hlast : n = 0 → l = []) : layout sep (w ++ s) = (0, (w, n) :: l) := by
  induction w with
  | nil => exact absurd rfl hne
  | cons c w ih =>
      rw [List.mem_cons, not_or] at hw
      rw [List.cons_append, layout_cons_letter (Ne.symm hw.1)]
      cases w with
      | nil =>
          rw [List.nil_append, hs]
          cases n with
          | zero =>
              rw [hlast rfl]
              rfl
          | succ n => rfl
      | cons d w =>
          rw [ih (List.cons_ne_nil _ _) hw.2]
          rfl

/-- The layout of a text that was rendered. -/
theorem layout_render (h : WellSpaced sep l) : layout sep (render sep n l) = (n, l) := by
  induction l generalizing n with
  | nil =>
      induction n with
      | zero => rfl
      | succ n ih => rw [render_succ, layout_cons_sep, ih]
  | cons f l ih =>
      obtain ⟨w, k⟩ := f
      obtain ⟨hne, hw, hlast, hrest⟩ := h
      induction n with
      | zero => exact layout_word hne hw (ih hrest) hlast
      | succ n ihn => rw [render_succ, layout_cons_sep, ihn]

/-! ### Words -/

theorem words_cons_sep : words sep (sep :: s) = words sep s := by
  have hsplit := List.splitOn_append_cons_self (a := sep) [] s
  rw [List.nil_append] at hsplit
  simp [words, hsplit]

theorem words_render_zero (n : Nat) (s : List α) :
    words sep (List.replicate n sep ++ s) = words sep s := by
  induction n with
  | zero => rfl
  | succ n ih => rw [List.replicate_succ, List.cons_append, words_cons_sep, ih]

/-- A word and a separator in front of a text. -/
theorem words_word (hne : w ≠ []) (hw : sep ∉ w) (s : List α) :
    words sep (w ++ sep :: s) = w :: words sep s := by
  rw [words, List.splitOn_append_cons_self_of_not_mem hw, List.filter_cons_of_pos (by simpa)]
  rfl

theorem words_single (hne : w ≠ []) (hw : sep ∉ w) : words sep w = [w] := by
  rw [words, List.splitOn_eq_singleton hw, List.filter_cons_of_pos (by simpa), List.filter_nil]

/-- The words of a text that was rendered. -/
theorem words_render (h : WellSpaced sep l) : words sep (render sep n l) = l.map Prod.fst := by
  induction l generalizing n with
  | nil => exact words_render_zero n []
  | cons f l ih =>
      obtain ⟨w, k⟩ := f
      obtain ⟨hne, hw, hlast, hrest⟩ := h
      rw [render, words_render_zero, render_words_cons, List.map_cons, ← ih hrest (n := k - 1)]
      cases k with
      | zero =>
          rw [hlast rfl, render_zero, render_words_nil, List.append_nil, words_single hne hw]
          rfl
      | succ k => rw [render_succ, words_word hne hw, Nat.add_sub_cancel]

/-- The words of a text are those of its layout. -/
theorem words_layout (sep : α) (s : List α) : words sep s = (layout sep s).2.map Prod.fst := by
  conv_lhs => rw [← render_layout sep s]
  exact words_render (well_spaced_layout sep s)

/-- A word has a letter and no separator. -/
theorem mem_words (h : w ∈ words sep s) : w ≠ [] ∧ sep ∉ w := by
  have hspaced : ∀ l : List (SpacedWord α), WellSpaced sep l → w ∈ l.map Prod.fst →
      w ≠ [] ∧ sep ∉ w := by
    intro l
    induction l with
    | nil => exact fun _ hmem => absurd hmem List.not_mem_nil
    | cons f l ih =>
        rintro ⟨hne, hw, -, hrest⟩ hmem
        rcases List.mem_cons.mp hmem with rfl | hmem
        · exact ⟨hne, hw⟩
        · exact ih hrest hmem
  rw [words_layout] at h
  exact hspaced _ (well_spaced_layout sep s) h

end Sirius.Library
