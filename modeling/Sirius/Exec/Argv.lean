import Sirius.Cfs.Names
import Sirius.Exec.Elf
import Sirius.Library.Words

/-!
# Splitting the arguments of a program

`kernel/argv.c`. `cpy` copies a word and the spaces behind it, which it turns into null bytes, and
returns how many bytes these were; `format_argv` advances by this number both in the text and in the
memory for the words. A call of `cpy` handles at most 256 bytes and skips no spaces in front of a
word, so spaces at the start of the text, and those that a call did not get to, become an empty
word. `Split` is the condition under which this does not happen.
-/

namespace Sirius.Exec

open Library Cfs

/-- The loop of `cpy` for `n` more bytes from byte `i` on. -/
def cpyLoop (src : Bytes) (s : Nat) : (n i : Nat) → (flag : Bool) → (dst : Bytes) → Nat × Bytes
  | 0, i, _, dst => (i, dst)
  | n + 1, i, flag, dst =>
      let val := src (s + i)
      if val ≠ space then
        if flag then (i, dst)
        else
          let dst := Function.update dst i val
          if val = 0#8 then (i, dst) else cpyLoop src s n (i + 1) flag dst
      else cpyLoop src s n (i + 1) true (Function.update dst i 0#8)

/-- `cpy`: the result and `dst`. The source is at the address `s`. -/
def cpy (dst src : Bytes) (s : Nat) : Nat × Bytes :=
  if src s = 0#8 then (0, dst) else cpyLoop src s 256 0 false dst

/-- The loop of `format_argv` for `n` more words from word `i` on. -/
def formatLoop (src : Bytes) (argv : Nat) :
    (n i mem srcTmp : Nat) → (tmp memory : Bytes) → Nat × Bytes
  | 0, i, _, _, _, memory => (i, memory)
  | n + 1, i, mem, srcTmp, tmp, memory =>
      let memory := writeLong memory (argv + 8 * i) mem
      let (r, tmp) := cpy tmp src srcTmp
      if r = 0 then (i, memory)
      else
        let memory := strcpy memory mem (cString tmp 256 0)
        formatLoop src argv n (i + 1) (mem + r) (srcTmp + r) tmp memory

/-- `format_argv` for the text at `s`: the number of words and the memory that holds `argv`. `tmp`
is the array on the stack. -/
def formatArgv (argv : Nat) (src : Bytes) (s : Nat) (tmp memory : Bytes) : Nat × Bytes :=
  formatLoop src argv 32 0 (argv + 8 * 32) s tmp memory

/-! ### Memory -/

variable {m m' src dst tmp memory : Bytes} {a b i j n s v argv mem : Nat} {flag : Bool}
  {w t : List Byte} {ws : List (List Byte)}

theorem write_long_outside (h : i < a ∨ a + 8 ≤ i) : writeLong m a v i = m i := by
  rw [writeLong, write_word_outside (by omega), write_word_outside (by omega)]

theorem read_long_congr (h : ∀ k < 8, m (a + k) = m' (a + k)) : readLong m a = readLong m' a := by
  have hlow : readWord m a = readWord m' a := read_word_congr fun k hk => h k (by omega)
  have hhigh : readWord m (a + 4) = readWord m' (a + 4) := by
    refine read_word_congr fun k hk => ?_
    rw [Nat.add_assoc]
    exact h (4 + k) (by omega)
  rw [readLong, readLong, hlow, hhigh]

/-- Reading back a pointer. -/
theorem read_write_long_same (h : v < 2 ^ 64) : readLong (writeLong m a v) a = v := by
  rw [readLong, writeLong, read_write_word_other (by omega), read_write_word_same (by omega),
    read_write_word_same (by omega)]
  omega

/-! ### One word -/

/-- The loop over the letters of a word. -/
theorem cpy_loop_word (hw : ∀ k (hk : k < w.length), src (s + (i + k)) = w[k])
    (hspace : space ∉ w) (hnull : 0#8 ∉ w) (n : Nat) (dst : Bytes) :
    ∃ dst', cpyLoop src s (w.length + n) i false dst = cpyLoop src s n (i + w.length) false dst' ∧
      (∀ k (hk : k < w.length), dst' (i + k) = w[k]) ∧ ∀ x < i, dst' x = dst x := by
  induction w generalizing i dst with
  | nil => exact ⟨dst, by rw [List.length_nil, Nat.zero_add, Nat.add_zero], by simp, fun _ _ => rfl⟩
  | cons c w ih =>
      rw [List.mem_cons, not_or] at hspace hnull
      have hc : src (s + i) = c := hw 0 (by simp)
      have hnext : ∀ k (hk : k < w.length), src (s + (i + 1 + k)) = w[k] := by
        intro k hk
        rw [Nat.add_assoc, Nat.add_comm 1 k]
        exact hw (k + 1) (by simp [hk])
      obtain ⟨dst', hloop, hword, hfront⟩ :=
        ih hnext hspace.2 hnull.2 (Function.update dst i c)
      refine ⟨dst', ?_, fun k hk => ?_, fun x hx => ?_⟩
      · rw [List.length_cons, Nat.succ_add, cpyLoop]
        simp only [hc, ne_eq, Ne.symm hspace.1, not_false_eq_true, if_true, Bool.false_eq_true,
          if_false, Ne.symm hnull.1]
        rw [hloop, Nat.add_assoc, Nat.add_comm 1]
      · cases k with
        | zero =>
            rw [Nat.add_zero, hfront i (Nat.lt_succ_self i), Function.update_self]
            rfl
        | succ k =>
            rw [← Nat.add_assoc, Nat.add_right_comm]
            exact hword k (by simpa using hk)
      · rw [hfront x (by omega), Function.update_of_ne (by omega)]

/-- The loop over the spaces behind a word. -/
theorem cpy_loop_spaces {k : Nat} (hk : ∀ j < k, src (s + (i + j)) = space) (n : Nat) (flag : Bool)
    (dst : Bytes) :
    ∃ dst', cpyLoop src s (k + n) i flag dst =
        cpyLoop src s n (i + k) (flag || decide (0 < k)) dst' ∧
      (∀ j < k, dst' (i + j) = 0#8) ∧ ∀ x < i, dst' x = dst x := by
  induction k generalizing i flag dst with
  | zero => exact ⟨dst, by simp, by simp, fun _ _ => rfl⟩
  | succ k ih =>
      have hnext : ∀ j < k, src (s + (i + 1 + j)) = space := by
        intro j hj
        rw [Nat.add_assoc, Nat.add_comm 1 j]
        exact hk (j + 1) (by omega)
      obtain ⟨dst', hloop, hnulls, hfront⟩ := ih hnext true (Function.update dst i 0#8)
      refine ⟨dst', ?_, fun j hj => ?_, fun x hx => ?_⟩
      · have hfirst : src (s + i) = space := hk 0 (by omega)
        rw [Nat.succ_add, cpyLoop]
        simp only [hfirst, ne_eq, not_true_eq_false, if_false]
        rw [hloop, Nat.add_assoc, Nat.add_comm 1]
        simp
      · cases j with
        | zero => rw [Nat.add_zero, hfront i (Nat.lt_succ_self i), Function.update_self]
        | succ j =>
            rw [← Nat.add_assoc, Nat.add_right_comm]
            exact hnulls j (by omega)
      · rw [hfront x (by omega), Function.update_of_ne (by omega)]

/-- The loop over the spaces behind a word, up to the next letter or the end of the call. -/
theorem cpy_loop_gap {k : Nat} (hpos : 0 < k) (hn : 0 < n)
    (hk : ∀ j < k, src (s + (i + j)) = space) (hend : src (s + (i + k)) ≠ space) (flag : Bool)
    (dst : Bytes) :
    ∃ dst', cpyLoop src s n i flag dst = (i + min k n, dst') ∧ dst' i = 0#8 ∧
      ∀ x < i, dst' x = dst x := by
  have hspaces : ∀ j < min k n, src (s + (i + j)) = space := fun j hj => hk j (by omega)
  obtain ⟨dst', hloop, hnulls, hfront⟩ := cpy_loop_spaces hspaces (n - min k n) flag dst
  have hmin : 0 < min k n := by omega
  rw [show min k n + (n - min k n) = n by omega, decide_eq_true hmin, Bool.or_true] at hloop
  refine ⟨dst', hloop.trans ?_, hnulls 0 hmin, hfront⟩
  by_cases hle : n ≤ k
  · rw [show n - min k n = 0 by omega, cpyLoop]
  · -- the byte behind the spaces ends the loop
    obtain ⟨d, hd⟩ : ∃ d, n - min k n = d + 1 := ⟨n - min k n - 1, by omega⟩
    rw [show min k n = k by omega] at hd ⊢
    rw [hd, cpyLoop]
    simp only [ne_eq, hend, not_false_eq_true, if_true]

/-- The byte behind a text, or its first one. -/
theorem string_head_ne (h : HoldsString src a t) (hhead : t.head? ≠ some space) :
    src a ≠ space := by
  cases t with
  | nil =>
      rw [HoldsString.nil_iff.mp h]
      decide
  | cons c t =>
      rw [(HoldsString.cons_iff.mp h).1]
      exact fun heq => hhead (congrArg some heq)

/-- The spaces in front of a text. -/
theorem string_spaces {k : Nat} (h : HoldsString src a (List.replicate k space ++ t)) :
    (∀ j < k, src (a + j) = space) ∧ HoldsString src (a + k) t := by
  have hlength : (List.replicate k space).length = k := List.length_replicate
  refine ⟨fun j hj => ?_, ?_⟩
  · rw [h.front (by omega), List.getElem_replicate]
  · have hrest := h.behind
    rwa [hlength] at hrest

/-- `cpy` at a word with `k` spaces behind it. -/
theorem cpy_word {k : Nat} (h : HoldsString src s (w ++ (List.replicate k space ++ t)))
    (hne : w ≠ []) (hspace : space ∉ w) (hnull : 0#8 ∉ w) (hlen : w.length ≤ 255)
    (hlast : k = 0 → t = []) (hhead : t.head? ≠ some space) (dst : Bytes) :
    ∃ tmp, cpy dst src s = (min (w.length + k) 256, tmp) ∧ HoldsString tmp 0 w := by
  have hletter : src s ≠ 0#8 := by
    have hfirst := h.front (List.length_pos_iff.mpr hne)
    rw [Nat.add_zero] at hfirst
    rw [hfirst]
    exact fun heq => hnull (heq ▸ List.getElem_mem _)
  obtain ⟨hspaces, hrest⟩ := string_spaces h.behind
  have hletters : ∀ k (hk : k < w.length), src (s + (0 + k)) = w[k] := by
    intro k hk
    rw [Nat.zero_add]
    exact h.front hk
  obtain ⟨dst₁, hloop, hword, -⟩ := cpy_loop_word hletters hspace hnull (256 - w.length) dst
  rw [Nat.zero_add, show w.length + (256 - w.length) = 256 by omega] at hloop
  -- the word is in place, and the byte behind it will be null
  have hholds : ∀ tmp : Bytes, tmp w.length = 0#8 → (∀ x < w.length, tmp x = dst₁ x) →
      HoldsString tmp 0 w := by
    intro tmp hnull hsame
    refine .of_bytes (fun j hj => ?_) ?_
    · have hbyte := hword j hj
      rw [Nat.zero_add] at hbyte ⊢
      rw [hsame j hj, hbyte]
    · rwa [Nat.zero_add]
  rw [cpy, if_neg hletter, hloop]
  cases k with
  | zero =>
      obtain rfl := hlast rfl
      have hend : src (s + w.length) = 0#8 := HoldsString.nil_iff.mp hrest
      have hne' : (0#8 : Byte) ≠ space := by decide
      refine ⟨Function.update dst₁ w.length 0#8, ?_, hholds _ (Function.update_self ..)
        fun x hx => Function.update_of_ne (by omega) ..⟩
      obtain ⟨d, hd⟩ : ∃ d, 256 - w.length = d + 1 := ⟨255 - w.length, by omega⟩
      rw [hd, cpyLoop]
      simp only [hend, ne_eq, hne', not_false_eq_true, if_true, Bool.false_eq_true, if_false,
        Prod.mk.injEq, and_true]
      omega
  | succ k =>
      have hgap : ∀ j < k + 1, src (s + (w.length + j)) = space := by
        intro j hj
        rw [← Nat.add_assoc]
        exact hspaces j hj
      have hend : src (s + (w.length + (k + 1))) ≠ space := by
        rw [← Nat.add_assoc]
        exact string_head_ne hrest hhead
      obtain ⟨tmp, hcopy, hnull, hfront⟩ := cpy_loop_gap (Nat.succ_pos k)
        (show 0 < 256 - w.length by omega) hgap hend false dst₁
      refine ⟨tmp, ?_, hholds tmp hnull hfront⟩
      rw [hcopy]
      simp only [Prod.mk.injEq, and_true]
      omega

/-- `cpy` at spaces: an empty word. -/
theorem cpy_spaces {k : Nat} (hk : 0 < k) (h : HoldsString src s (List.replicate k space ++ t))
    (hhead : t.head? ≠ some space) (dst : Bytes) :
    ∃ tmp, cpy dst src s = (min k 256, tmp) ∧ HoldsString tmp 0 [] := by
  obtain ⟨hspaces, hrest⟩ := string_spaces h
  have hfirst : src s = space := hspaces 0 hk
  have hne : src s ≠ 0#8 := by
    rw [hfirst]
    decide
  have hgap : ∀ j < k, src (s + (0 + j)) = space := by
    intro j hj
    rw [Nat.zero_add]
    exact hspaces j hj
  have hend : src (s + (0 + k)) ≠ space := by
    rw [Nat.zero_add]
    exact string_head_ne hrest hhead
  obtain ⟨tmp, hcopy, hnull, -⟩ := cpy_loop_gap hk (show 0 < 256 by decide) hgap hend false dst
  refine ⟨tmp, ?_, HoldsString.nil_iff.mpr hnull⟩
  rw [cpy, if_neg hne, hcopy, Nat.zero_add]

/-! ### All words -/

/-- The pointers from number `i` on point to the strings `ws`, which lie one behind the other from
`low` on. -/
structure Stored (memory : Bytes) (argv i low : Nat) (ws : List (List Byte)) : Prop where
  string : ∀ j w, ws[j]? = some w → HoldsString memory (readLong memory (argv + 8 * (i + j))) w
  above : ∀ j < ws.length, low ≤ readLong memory (argv + 8 * (i + j))
  apart : ∀ j k w, ws[j]? = some w → j < k → k < ws.length →
    readLong memory (argv + 8 * (i + j)) + w.length + 1 ≤ readLong memory (argv + 8 * (i + k))

/-- The memory at `argv` holds the strings `ws`: the table of 32 pointers, and behind it the
strings, which do not overlap. -/
abbrev HoldsArgv (memory : Bytes) (argv : Nat) (ws : List (List Byte)) : Prop :=
  Stored memory argv 0 (argv + 8 * 32) ws

/-- A string in front of others. -/
theorem Stored.cons {low r : Nat} (hpointer : readLong memory (argv + 8 * i) = low)
    (hw : HoldsString memory low w) (hr : w.length + 1 ≤ r ∨ ws = [])
    (h : Stored memory argv (i + 1) (low + r) ws) : Stored memory argv i low (w :: ws) := by
  have hshift : ∀ j, argv + 8 * (i + (j + 1)) = argv + 8 * (i + 1 + j) := fun j => by omega
  refine ⟨fun j v hv => ?_, fun j hj => ?_, fun j k v hv hjk hk => ?_⟩
  · cases j with
    | zero =>
        obtain rfl := Option.some.inj hv
        rwa [Nat.add_zero, hpointer]
    | succ j =>
        rw [hshift]
        exact h.string j v (by simpa using hv)
  · cases j with
    | zero => rw [Nat.add_zero, hpointer]
    | succ j =>
        rw [hshift]
        exact (Nat.le_add_right low r).trans (h.above j (by simpa using hj))
  · obtain ⟨k, rfl⟩ : ∃ m, k = m + 1 := ⟨k - 1, by omega⟩
    have hk' : k < ws.length := by simpa using hk
    rw [hshift]
    cases j with
    | zero =>
        obtain rfl := Option.some.inj hv
        rw [show readLong memory (argv + 8 * (i + 0)) = low from hpointer]
        rcases hr with hr | hnil
        · have habove := h.above k hk'
          omega
        · rw [hnil] at hk'
          exact absurd hk' (Nat.not_lt_zero k)
    | succ j =>
        rw [hshift]
        exact h.apart j k v (by simpa using hv) (by omega) hk'

/-- The loop of `format_argv` from word `i` on stores the strings `ws`, and writes to the rest of
the table and behind `mem` only. -/
def FormatsTo (src : Bytes) (argv n i mem s : Nat) (tmp memory : Bytes)
    (ws : List (List Byte)) : Prop :=
  ∃ result, formatLoop src argv n i mem s tmp memory = (i + ws.length, result) ∧
    Stored result argv i mem ws ∧
    ∀ x, x < argv + 8 * i ∨ argv + 8 * 32 ≤ x → x < mem ∨ ws = [] → result x = memory x

/-- At the end of the text. -/
theorem formats_to_nil (hend : src s = 0#8) (hi : i + n = 32) :
    FormatsTo src argv n i mem s tmp memory [] := by
  have hstored : ∀ m, Stored m argv i mem [] := fun m =>
    ⟨fun j w hw => by simp at hw, fun j hj => absurd hj (Nat.not_lt_zero j),
      fun j k w hw => by simp at hw⟩
  cases n with
  | zero => exact ⟨memory, rfl, hstored _, fun x _ _ => rfl⟩
  | succ n =>
      refine ⟨writeLong memory (argv + 8 * i) mem, ?_, hstored _, fun x hx _ => ?_⟩
      · simp only [formatLoop, cpy, hend, if_true]
        rfl
      · exact write_long_outside (by omega)

/-- One round of the loop. -/
theorem FormatsTo.cons {r : Nat} {tmp' : Bytes} (hcpy : cpy tmp src s = (r, tmp'))
    (hw : HoldsString tmp' 0 w) (hnull : 0#8 ∉ w) (hlen : w.length ≤ 255) (hpos : 0 < r)
    (hr : w.length + 1 ≤ r ∨ ws = []) (hi : i + (n + 1) = 32) (hmem : argv + 8 * 32 ≤ mem)
    (hroom : mem < 2 ^ 64)
    (hrest : ∀ memory, FormatsTo src argv n (i + 1) (mem + r) (s + r) tmp' memory ws) :
    FormatsTo src argv (n + 1) i mem s tmp memory (w :: ws) := by
  have hstring : cString tmp' 256 0 = w := c_string_eq hw hnull (by omega)
  obtain ⟨result, hloop, hstored, hframe⟩ :=
    hrest (strcpy (writeLong memory (argv + 8 * i) mem) mem w)
  have hzero : r ≠ 0 := by omega
  have hkept : ∀ x, x < mem + r ∨ ws = [] → argv + 8 * 32 ≤ x →
      result x = strcpy (writeLong memory (argv + 8 * i) mem) mem w x :=
    fun x hx htable => hframe x (.inr htable) hx
  refine ⟨result, ?_, Stored.cons ?_ ?_ hr hstored, fun x htable hx => ?_⟩
  · rw [formatLoop]
    simp only [hcpy, hzero, if_false, hstring, hloop, List.length_cons]
    rw [Nat.add_right_comm, Nat.add_assoc]
  · -- the pointer is written before the string, and the loop goes on behind both
    have hread := read_write_long_same (m := memory) (a := argv + 8 * i) hroom
    rw [← hread]
    refine read_long_congr fun k hk => ?_
    rw [hframe _ (.inl (by omega)) (.inl (by omega)), strcpy_outside (by omega)]
  · refine (strcpy_holds (writeLong memory (argv + 8 * i) mem) mem w).congr fun k hk => ?_
    exact hkept _ (hr.imp_left fun hr => by omega) (by omega)
  · have hlow : x < mem := hx.resolve_right (List.cons_ne_nil w ws)
    rw [hframe x (by omega) (.inl (by omega)), strcpy_outside (.inl hlow),
      write_long_outside (by omega)]

/-- `n` calls of `cpy` split the text at its spaces: it does not start with a space, and each word
but the last one that is looked at fits into one call together with the spaces behind it. -/
def Splits (n : Nat) (t : List Byte) : Prop :=
  (0 < n → (layout space t).1 = 0) ∧
    ∀ i f, i + 1 < n → (layout space t).2[i]? = some f → f.1.length + f.2 ≤ 256

/-- Behind the spaces in front of a text comes a word. -/
theorem render_words_head {l : List (SpacedWord Byte)} (h : WellSpaced space l) :
    (renderWords space l).head? ≠ some space := by
  cases l with
  | nil => simp
  | cons f l =>
      obtain ⟨w, k⟩ := f
      obtain ⟨hne, hw, -⟩ := h
      cases w with
      | nil => exact absurd rfl hne
      | cons c w =>
          rw [List.mem_cons, not_or] at hw
          simpa using Ne.symm hw.1

/-- The first call of `cpy` leaves the spaces that did not fit. -/
theorem splits_cons {g : Nat} {l : List (SpacedWord Byte)} (hl : WellSpaced space ((w, g) :: l)) :
    Splits (n + 1) (renderWords space ((w, g) :: l)) ↔
      Splits n (render space (w.length + g - 256) l) := by
  rw [← render_zero]
  simp only [Splits, layout_render hl, layout_render hl.2.2.2]
  constructor
  · rintro ⟨-, hfit⟩
    refine ⟨fun hn => ?_, fun i f hi hf => hfit (i + 1) f (by omega) hf⟩
    have hfirst := hfit 0 (w, g) (by omega) rfl
    dsimp only at hfirst
    omega
  · rintro ⟨hzero, hfit⟩
    refine ⟨fun _ => trivial, fun i f hi hf => ?_⟩
    cases i with
    | zero =>
        obtain rfl := Option.some.inj hf
        have hrest := hzero (by omega)
        dsimp only
        omega
    | succ i => exact hfit i f (by omega) hf

/-- What is left of a text behind the first spaces. -/
theorem string_behind_spaces {k r : Nat} {l : List (SpacedWord Byte)} (hr : r ≤ k)
    (h : HoldsString src a (render space k l)) : HoldsString src (a + r) (render space (k - r) l) := by
  have hsplit : render space k l = List.replicate r space ++ render space (k - r) l := by
    rw [render, render, ← List.append_assoc, List.replicate_append_replicate,
      Nat.add_sub_cancel' hr]
  rw [hsplit] at h
  exact (string_spaces h).2

/-- The loop of `format_argv` stores the words of the text, up to `n` of them, if the text splits,
and otherwise some empty word. The induction is on the words that are left; the text at the current
position is any text with short words. -/
theorem format_loop_spec (n : Nat) : ∀ (i mem s : Nat) (tmp : Bytes) (k : Nat)
    (l : List (SpacedWord Byte)), WellSpaced space l → HoldsString src s (render space k l) →
    (∀ f ∈ l, 0#8 ∉ f.1 ∧ f.1.length ≤ 255) → i + n = 32 → argv + 8 * 32 ≤ mem →
    mem + 256 * n ≤ 2 ^ 64 →
    ∃ ws, (∀ memory, FormatsTo src argv n i mem s tmp memory ws) ∧ (∀ w ∈ ws, 0#8 ∉ w) ∧
      (Splits n (render space k l) → ws = (l.map Prod.fst).take n) ∧
      (¬ Splits n (render space k l) → [] ∈ ws) := by
  induction n with
  | zero =>
      intro i mem s tmp k l _ _ _ hi _ _
      refine ⟨[], fun memory => ⟨memory, rfl, ?_, fun _ _ _ => rfl⟩, by simp, fun _ => rfl,
        fun hnot => ?_⟩
      · exact ⟨fun j w hw => by simp at hw, fun j hj => absurd hj (Nat.not_lt_zero j),
          fun j k w hw => by simp at hw⟩
      · exact absurd ⟨fun h => absurd h (lt_irrefl 0), fun i f h => absurd h (Nat.not_lt_zero _)⟩ hnot
  | succ n ih =>
      intro i mem s tmp k l hl hsrc hshort hi hmem hroom
      have hhead := render_words_head hl
      have hmem' : ∀ r, r ≤ 256 → argv + 8 * 32 ≤ mem + r ∧ mem + r + 256 * n ≤ 2 ^ 64 :=
        fun r hr => ⟨Nat.le_add_right_of_le hmem, by
          rw [Nat.mul_succ] at hroom
          omega⟩
      cases k with
      | succ k =>
          -- spaces in front of the next word make an empty word
          obtain ⟨tmp', hcpy, hempty⟩ := cpy_spaces (Nat.succ_pos k) hsrc hhead tmp
          obtain ⟨ws, hrest, hnulls, -⟩ := ih (i + 1) (mem + min (k + 1) 256)
            (s + min (k + 1) 256) tmp' _ l hl
            (string_behind_spaces (Nat.min_le_left ..) hsrc) hshort (by omega)
            (hmem' _ (Nat.min_le_right ..)).1 (hmem' _ (Nat.min_le_right ..)).2
          refine ⟨[] :: ws, fun memory => FormatsTo.cons hcpy hempty List.not_mem_nil (by simp)
            (by omega) (.inl (by simp)) hi hmem (by omega) hrest, ?_, fun hsplits => ?_,
            fun _ => List.mem_cons_self⟩
          · simpa using hnulls
          · have hzero := hsplits.1 (Nat.succ_pos n)
            rw [layout_render hl] at hzero
            exact absurd hzero (Nat.succ_ne_zero k)
      | zero =>
          cases l with
          | nil =>
              have hend : src s = 0#8 := HoldsString.nil_iff.mp hsrc
              refine ⟨[], fun memory => formats_to_nil hend hi, by simp, fun _ => rfl, fun hnot => ?_⟩
              exact absurd ⟨fun _ => rfl, fun i f _ hf => by simp [layout] at hf⟩ hnot
          | cons f l =>
              obtain ⟨w, g⟩ := f
              obtain ⟨hne, hw, hlast, hrest⟩ := hl
              obtain ⟨hnull, hlen⟩ := hshort (w, g) List.mem_cons_self
              dsimp only at hnull hlen
              rw [render_zero, render_words_cons] at hsrc
              have hgap : g = 0 → renderWords space l = [] := fun hg => by rw [hlast hg]; rfl
              obtain ⟨tmp', hcpy, hword⟩ := cpy_word hsrc hne hw hnull hlen hgap
                (render_words_head hrest) tmp
              have hnext : HoldsString src (s + min (w.length + g) 256)
                  (render space (w.length + g - 256) l) := by
                have hbehind := string_behind_spaces (r := min (w.length + g) 256 - w.length)
                  (by omega) hsrc.behind
                rwa [show s + w.length + (min (w.length + g) 256 - w.length) =
                    s + min (w.length + g) 256 by omega,
                  show g - (min (w.length + g) 256 - w.length) = w.length + g - 256 by omega]
                  at hbehind
              obtain ⟨ws, hformats, hnulls, hgood, hbad⟩ := ih (i + 1) (mem + min (w.length + g) 256)
                (s + min (w.length + g) 256) tmp' _ l hrest hnext
                (fun f hf => hshort f (List.mem_cons_of_mem _ hf)) (by omega)
                (hmem' _ (Nat.min_le_right ..)).1 (hmem' _ (Nat.min_le_right ..)).2
              have hpos : 0 < w.length := List.length_pos_iff.mpr hne
              -- without a space behind the word the text ends there
              have hroom' : w.length + 1 ≤ min (w.length + g) 256 ∨ ws = [] := by
                cases g with
                | succ g => exact .inl (by omega)
                | zero =>
                    obtain rfl := hlast rfl
                    refine .inr ?_
                    rw [hgood ?_, List.map_nil, List.take_nil]
                    rw [show w.length + 0 - 256 = 0 by omega]
                    exact ⟨fun _ => rfl, fun i f _ hf => by simp [layout] at hf⟩
              rw [render_zero, splits_cons ⟨hne, hw, hlast, hrest⟩]
              refine ⟨w :: ws, fun memory => FormatsTo.cons hcpy hword hnull hlen (by omega) hroom' hi
                hmem (by omega) hformats, ?_, fun hsplits => ?_, fun hnot =>
                  List.mem_cons_of_mem _ (hbad hnot)⟩
              · rw [List.forall_mem_cons]
                exact ⟨hnull, hnulls⟩
              · rw [hgood hsplits, List.map_cons, List.take_succ_cons]

/-- The strings at `argv` are determined by the memory. -/
theorem holds_argv_unique {ws' : List (List Byte)} (h : HoldsArgv memory argv ws)
    (h' : HoldsArgv memory argv ws') (hlength : ws.length = ws'.length) (hnull : ∀ w ∈ ws, 0#8 ∉ w)
    (hnull' : ∀ w ∈ ws', 0#8 ∉ w) : ws = ws' := by
  refine List.ext_getElem hlength fun i hi hi' => ?_
  exact (h.string i _ (List.getElem?_eq_getElem hi)).unique
    (h'.string i _ (List.getElem?_eq_getElem hi')) (hnull _ (List.getElem_mem hi))
    (hnull' _ (List.getElem_mem hi'))

/-- The words of a text without a null byte have none. -/
theorem words_null (ht : 0#8 ∉ t) : ∀ w ∈ words space t, 0#8 ∉ w := by
  have hrender : ∀ (l : List (SpacedWord Byte)) (k : Nat), 0#8 ∉ render space k l →
      ∀ w ∈ l.map Prod.fst, 0#8 ∉ w := by
    intro l
    induction l with
    | nil => exact fun _ _ w hw => absurd hw List.not_mem_nil
    | cons f l ih =>
        intro k hnull w hw
        rw [render, List.mem_append, not_or, render_words_cons, List.mem_append, not_or] at hnull
        rcases List.mem_cons.mp hw with rfl | hw
        · exact hnull.2.1
        · exact ih f.2 hnull.2.2 w hw
  rw [words_layout]
  exact hrender _ _ ((render_layout space t).symm ▸ ht)

/-- What `format_argv` stores for any text with short words: the first 32 words if the text splits,
and otherwise some empty word. -/
theorem format_argv_spec (hsrc : HoldsString src s t) (hnull : 0#8 ∉ t)
    (hshort : ∀ w ∈ words space t, w.length ≤ 255) (hroom : argv + 8 * 32 + 256 * 32 ≤ 2 ^ 64)
    (tmp memory : Bytes) :
    ∃ ws, (formatArgv argv src s tmp memory).1 = ws.length ∧
      HoldsArgv (formatArgv argv src s tmp memory).2 argv ws ∧ (∀ w ∈ ws, 0#8 ∉ w) ∧
      (Splits 32 t → ws = (words space t).take 32) ∧ (¬ Splits 32 t → [] ∈ ws) := by
  have hnulls := words_null hnull
  have hspaced := well_spaced_layout space t
  rw [words_layout] at hnulls hshort ⊢
  have htext := render_layout space t
  obtain ⟨ws, hformats, hws, hgood, hbad⟩ := format_loop_spec 32 0 (argv + 8 * 32) s tmp
    (layout space t).1 (layout space t).2 hspaced (htext.symm ▸ hsrc)
    (fun f hf => ⟨hnulls _ (List.mem_map_of_mem hf), hshort _ (List.mem_map_of_mem hf)⟩) rfl le_rfl
    hroom
  obtain ⟨result, hloop, hstored, -⟩ := hformats memory
  rw [htext] at hgood hbad
  rw [Nat.zero_add] at hloop
  rw [formatArgv, hloop]
  exact ⟨ws, rfl, hstored, hws, hgood, hbad⟩

/-- `format_argv` finds the first 32 words of a text, in order, each with its null byte and none
over another one or the table, exactly when the text splits. -/
theorem format_argv_splits (src : Bytes) (s : Nat) (t : List Byte) (argv : Nat) (tmp memory : Bytes)
    (hsrc : HoldsString src s t) (hnull : 0#8 ∉ t) (hshort : ∀ w ∈ words space t, w.length ≤ 255)
    (hroom : argv + 8 * 32 + 256 * 32 ≤ 2 ^ 64) :
    ((formatArgv argv src s tmp memory).1 = min 32 (words space t).length ∧
      HoldsArgv (formatArgv argv src s tmp memory).2 argv ((words space t).take 32)) ↔
    Splits 32 t := by
  obtain ⟨ws, hcount, hstored, hws, hgood, hbad⟩ :=
    format_argv_spec hsrc hnull hshort hroom tmp memory
  constructor
  · rintro ⟨hargc, hholds⟩
    by_contra hnot
    have hlength : ws.length = ((words space t).take 32).length := by
      rw [List.length_take, ← hargc, hcount]
    have hsame := holds_argv_unique hstored hholds hlength hws
      fun w hw => words_null hnull w (List.mem_of_mem_take hw)
    -- the empty word is none of the text
    have hempty := hbad hnot
    rw [hsame] at hempty
    exact (mem_words (List.mem_of_mem_take hempty)).1 rfl
  · intro hsplits
    rw [← hgood hsplits, hcount]
    refine ⟨?_, hstored⟩
    rw [hgood hsplits, List.length_take]

/-- Two words with two spaces between them. -/
theorem format_argv_splits_two_words :
    (formatArgv 0 (stringBytes [0x61#8, 0x20#8, 0x20#8, 0x62#8]) 0 (fun _ => 0#8)
        (fun _ => 0#8)).1 = 2 ∧
      HoldsArgv (formatArgv 0 (stringBytes [0x61#8, 0x20#8, 0x20#8, 0x62#8]) 0 (fun _ => 0#8)
        (fun _ => 0#8)).2 0 [[0x61#8], [0x62#8]] := by
  have hfit : ∀ f ∈ (layout space [0x61#8, 0x20#8, 0x20#8, 0x62#8]).2, f.1.length + f.2 ≤ 256 := by
    decide
  exact (format_argv_splits (stringBytes [0x61#8, 0x20#8, 0x20#8, 0x62#8]) 0
    [0x61#8, 0x20#8, 0x20#8, 0x62#8] 0 (fun _ => 0#8) (fun _ => 0#8)
    (fun i _ => by rw [Nat.zero_add]; rfl) (by decide) (by decide) (by decide)).mpr
    ⟨fun _ => by decide, fun i f _ hf => hfit f (List.mem_of_getElem? hf)⟩

/-- A space in front of a word: `format_argv` counts two. -/
theorem leading_space_counts : ¬ ∀ (src : Bytes) (s : Nat) (t : List Byte) (argv : Nat)
    (tmp memory : Bytes), HoldsString src s t → 0#8 ∉ t →
    (∀ w ∈ words space t, w.length ≤ 255) → argv + 8 * 32 + 256 * 32 ≤ 2 ^ 64 →
    (formatArgv argv src s tmp memory).1 = min 32 (words space t).length ∧
      HoldsArgv (formatArgv argv src s tmp memory).2 argv ((words space t).take 32) := by
  intro h
  have hargc := (h (stringBytes [0x20#8, 0x61#8]) 0 [0x20#8, 0x61#8] 0 (fun _ => 0#8)
    (fun _ => 0#8) (fun i _ => by rw [Nat.zero_add]; rfl) (by decide) (by decide) (by decide)).1
  have htwo :
      (formatArgv 0 (stringBytes [0x20#8, 0x61#8]) 0 (fun _ => 0#8) (fun _ => 0#8)).1 = 2 := by
    decide +kernel
  rw [htwo] at hargc
  exact absurd hargc (by decide)

end Sirius.Exec
