import Mathlib.Data.List.GetD
import Mathlib.Data.List.TakeWhile
import Mathlib.Tactic
import Sirius.Stdio.FormatAgreement
import Sirius.Stdio.NumeralBuffers

/-!
# The formatter of the kernel

`vsprintf` of `kernel/lib/vsprintf.c`. A letter that its `switch` does not know makes it store two
percent signs and go on behind the letter, also when the letter is another percent sign or the null
byte of the format. It takes the argument of a `%u` as an `unsigned char`, and it stores no null
byte behind the text.

`Matching fmt ap ps` says of which pieces a format consists that takes the arguments; every format
has some. `vsprintf` does for it what it should exactly when the buffer has a null byte behind the
text, an `int` counts the format, and each piece is one that is stored as it should be.
-/

namespace Sirius.Stdio.Kernel

open Library
open User (Arg cString vaInt vaLong vaStr zero_not_mem_c_string)

/-! ### The code -/

/-- `_vsputs_r`: what is stored. -/
def vsputsR (src : List Byte) : List Byte := cString src

/-- The text of `itoa`, which is that of the user library. -/
def itoa (val : BitVec 32) : List Byte := User.itoa val

/-- The text of `utoa`, which is that of the user library. -/
def utoa (val : BitVec 64) (radix : Nat) : List Byte := User.utoa val radix

/-- The `switch` for the letter behind a percent sign: what is stored, and the arguments that are
left. -/
def vsprintfSwitch (letter : Byte) (ap : List Arg) : Option (List Byte × List Arg) :=
  if letter = 0x63#8 then (vaInt ap).map fun (c, ap) => (vsputsR [c.setWidth 8], ap)
  else if letter = 0x73#8 then (vaStr ap).bind fun (s, ap) => s.map fun s => (vsputsR s, ap)
  else if letter = 0x64#8 ∨ letter = 0x69#8 then
    (vaInt ap).map fun (d, ap) => (vsputsR (itoa d), ap)
  else if letter = 0x75#8 then
    (vaInt ap).map fun (i, ap) =>
      let u : BitVec 8 := i.setWidth 8
      (vsputsR (itoa (u.setWidth 32)), ap)
  else if letter = 0x58#8 ∨ letter = 0x78#8 then
    (vaLong ap).map fun (lu, ap) => (vsputsR (utoa lu 16), ap)
  else some (vsputsR [0x25#8, 0x25#8], ap)

/-- The loop over the format, of which the bytes from `index` on are left. `index` is an `int`; a
read behind the format or in front of it has no result. -/
def formatLoop : (fmt : List Byte) → (index : Nat) → (ap : List Arg) → Option (List Byte)
  | [], _, _ => none
  | c :: fmt, index, ap =>
      if 2 ^ 31 ≤ index then none
      else if c = 0#8 then some []
      else if c = 0x25#8 then
        match fmt with
        | [] => none
        | letter :: fmt =>
            if 2 ^ 31 ≤ index + 1 then none
            else do
              let (out, ap) ← vsprintfSwitch letter ap
              (formatLoop fmt (index + 2) ap).map (out ++ ·)
      else (formatLoop fmt (index + 1) ap).map (vsputsR [c] ++ ·)

/-- `vsprintf`: the length as an `int`, and the memory with `str` at address 0. -/
def vsprintf (str : Bytes) (fmt : List Byte) (ap : List Arg) : Option (Int × Bytes) :=
  (formatLoop fmt 0 ap).map fun text =>
    ((BitVec.ofNat 32 text.length).toInt,
      copyBytes str 0 (fun i => text.getD i 0#8) 0 text.length)

/-! ### What the formatter is for -/

/-- A part of a format with its argument: an ordinary character, a conversion, or a percent sign
in front of another letter or of the end. -/
inductive Piece where
  | ordinary (c : Byte)
  | char (i : BitVec 32)
  | string (s : List Byte)
  | signed (i : BitVec 32)
  | unsigned (i : BitVec 32)
  | hex (l : BitVec 64)
  | percent
  | unknown (letter : Byte)
  | truncated
  deriving DecidableEq

/-- The letters that say something behind a percent sign. -/
def letters : List Byte :=
  [0x63#8, 0x73#8, 0x64#8, 0x69#8, 0x75#8, 0x78#8, 0x58#8, 0x25#8]

/-- The bytes of a piece in the format, and the arguments that it takes. -/
inductive Piece.Reads : List Byte → List Arg → Piece → Prop where
  | ordinary {c : Byte} (hzero : c ≠ 0#8) (hpercent : c ≠ 0x25#8) : Reads [c] [] (.ordinary c)
  | char (i : BitVec 32) : Reads [0x25#8, 0x63#8] [.int i] (.char i)
  | string (s : List Byte) : Reads [0x25#8, 0x73#8] [.str (some s)] (.string s)
  | signed {letter : Byte} (i : BitVec 32) (hletter : letter = 0x64#8 ∨ letter = 0x69#8) :
      Reads [0x25#8, letter] [.int i] (.signed i)
  | unsigned (i : BitVec 32) : Reads [0x25#8, 0x75#8] [.int i] (.unsigned i)
  | hex {letter : Byte} (l : BitVec 64) (hletter : letter = 0x58#8 ∨ letter = 0x78#8) :
      Reads [0x25#8, letter] [.long l] (.hex l)
  | percent : Reads [0x25#8, 0x25#8] [] .percent
  | unknown {letter : Byte} (hzero : letter ≠ 0#8) (hletter : letter ∉ letters) :
      Reads [0x25#8, letter] [] (.unknown letter)

/-- The formats without their null byte, and the arguments that they take. -/
inductive Matching : List Byte → List Arg → List Piece → Prop where
  | stop (ap : List Arg) : Matching [] ap []
  | cons {p : Piece} {f fmt : List Byte} {used ap : List Arg} {ps : List Piece}
      (hp : p.Reads f used) (hrest : Matching fmt ap ps) :
      Matching (f ++ fmt) (used ++ ap) (p :: ps)
  | truncated (ap : List Arg) : Matching [0x25#8] ap [.truncated]

/-- The text that a piece is replaced by: the character, the string, the numeral of the whole
argument, or the percent sign. Other letters are copied. -/
def Piece.text : Piece → List Byte
  | .ordinary c => [c]
  | .char i => [i.setWidth 8]
  | .string s => cString s
  | .signed i => (if i.toInt < 0 then [0x2d#8] else []) ++ numeral 10 i.toInt.natAbs
  | .unsigned i => numeral 10 i.toNat
  | .hex l => numeral 16 l.toNat
  | .percent => [0x25#8]
  | .unknown letter => [0x25#8, letter]
  | .truncated => [0x25#8]

/-- The pieces that are stored as they should be. -/
def Piece.Good : Piece → Prop
  | .char i => i.setWidth 8 ≠ 0#8
  | .unsigned i => i.toNat < 2 ^ 8
  | .percent | .unknown _ | .truncated => False
  | _ => True

/-- `vsprintf` reads the format up to its null byte only, and stores the text with a null byte
behind it, whatever the buffer held; its byte behind the text was `b`. -/
def VsprintfLaw (fmt : List Byte) (ap : List Arg) (text : List Byte) (b : Byte) : Prop :=
  ∀ str : Bytes, str text.length = b →
    ∃ rv str', vsprintf str (fmt ++ [0#8]) ap = some (rv, str') ∧ HoldsString str' 0 text

variable {fmt f s t a b : List Byte} {ap used : List Arg} {p : Piece} {ps : List Piece}
  {letter c : Byte} {index : Nat}

/-! ### Every format has pieces -/

theorem exists_reads (hzero : letter ≠ 0#8) :
    ∃ used p, Piece.Reads [0x25#8, letter] used p := by
  by_cases hletter : letter ∈ letters
  · simp only [letters, List.mem_cons, List.not_mem_nil, or_false] at hletter
    rcases hletter with rfl | rfl | rfl | rfl | rfl | rfl | rfl | rfl
    · exact ⟨_, _, .char 0#32⟩
    · exact ⟨_, _, .string []⟩
    · exact ⟨_, _, .signed 0#32 (.inl rfl)⟩
    · exact ⟨_, _, .signed 0#32 (.inr rfl)⟩
    · exact ⟨_, _, .unsigned 0#32⟩
    · exact ⟨_, _, .hex 0#64 (.inr rfl)⟩
    · exact ⟨_, _, .hex 0#64 (.inl rfl)⟩
    · exact ⟨_, _, .percent⟩
  · exact ⟨_, _, .unknown hzero hletter⟩

/-- Every format without a null byte has arguments that it takes. -/
theorem exists_matching : (fmt : List Byte) → 0#8 ∉ fmt → ∃ ap ps, Matching fmt ap ps
  | [], _ => ⟨[], [], .stop []⟩
  | [c], hnull => by
      by_cases hc : c = 0x25#8
      · subst hc
        exact ⟨[], _, .truncated []⟩
      · have hzero : c ≠ 0#8 := fun h => hnull (h ▸ List.mem_cons_self)
        exact ⟨_, _, .cons (.ordinary hzero hc) (.stop [])⟩
  | c :: letter :: fmt, hnull => by
      obtain ⟨hzero, hrest⟩ := not_or.mp (mt List.mem_cons.mpr hnull)
      by_cases hc : c = 0x25#8
      · subst hc
        obtain ⟨hletter, hfmt⟩ := not_or.mp (mt List.mem_cons.mpr hrest)
        obtain ⟨used, p, hp⟩ := exists_reads (Ne.symm hletter)
        obtain ⟨ap, ps, hmatching⟩ := exists_matching fmt hfmt
        exact ⟨_, _, .cons hp hmatching⟩
      · obtain ⟨ap, ps, hmatching⟩ := exists_matching (letter :: fmt) hrest
        exact ⟨_, _, .cons (.ordinary (Ne.symm hzero) hc) hmatching⟩

/-! ### The texts of the conversions -/

theorem vsputs_r_eq (h : 0#8 ∉ s) : vsputsR s = s := by
  rw [vsputsR, cString, List.takeWhile_eq_self_iff]
  exact fun c hc => by simpa using fun heq : c = 0#8 => h (heq ▸ hc)

theorem numeral_digits {base : Nat} (hlow : 1 < base) (hbase : base ≤ 16) (n : Nat) :
    0#8 ∉ numeral base n ∧ 0x25#8 ∉ numeral base n := by
  have hdigits := (numeral_canonical hlow hbase n).digits
  refine ⟨hdigits.not_null hbase, fun hmem => ?_⟩
  obtain ⟨d, hd, hsign⟩ := hdigits _ hmem
  have hd : d < 16 := hd.trans_le hbase
  interval_cases d <;> exact absurd hsign (by decide)

theorem itoa_text (i : BitVec 32) :
    itoa i = (if i.toInt < 0 then [0x2d#8] else []) ++ numeral 10 i.toInt.natAbs := by
  have hdigits := (decimal_text_canonical i.toInt.natAbs).eq_numeral (by decide) (by decide)
  rw [← hdigits]
  exact signed_numeral_text i (by decide) (by decide) (by decide)

/-- `itoa` of an `unsigned char`. -/
theorem itoa_byte (u : BitVec 8) : itoa (u.setWidth 32) = numeral 10 u.toNat := by
  have hnat : (u.setWidth 32).toNat = u.toNat := by
    rw [BitVec.toNat_setWidth, Nat.mod_eq_of_lt (u.isLt.trans (by decide))]
  have hint : (u.setWidth 32).toInt = u.toNat := by
    have hlt := u.isLt
    rw [BitVec.toInt_eq_toNat_of_lt (by omega), hnat]
  rw [itoa_text, hint, if_neg (by omega), List.nil_append, Int.natAbs_natCast]

theorem utoa_text (l : BitVec 64) : utoa l 16 = numeral 16 l.toNat :=
  (i2hex_canonical (show l.toNat < 16 ^ 16 from l.isLt)).eq_numeral (by decide) (by decide)

/-- `itoa` and `utoa` leave these texts in the buffer. -/
theorem conversion_buffers (i : BitVec 32) (l : BitVec 64) (m : Bytes) (buffer : Nat) :
    HoldsString (Kernel.itoaAt i m buffer) buffer (itoa i) ∧
      ∃ m', Returns (Kernel.utoaAt l m buffer 16) m' ∧ HoldsString m' buffer (utoa l 16) :=
  ⟨(signed_at_holds i m buffer).1, i2hex_at_holds l m buffer 16⟩

/-- What is stored for a piece. -/
def Piece.stored : Piece → List Byte
  | .ordinary c => vsputsR [c]
  | .char i => vsputsR [i.setWidth 8]
  | .string s => vsputsR s
  | .signed i => vsputsR (itoa i)
  | .unsigned i => vsputsR (itoa ((i.setWidth 8).setWidth 32))
  | .hex l => vsputsR (utoa l 16)
  | .percent | .unknown _ | .truncated => vsputsR [0x25#8, 0x25#8]

/-! ### The loop -/

/-- The `switch` for a piece. -/
theorem Piece.Reads.switch (h : p.Reads [0x25#8, letter] used) (ap : List Arg) :
    vsprintfSwitch letter (used ++ ap) = some (p.stored, ap) := by
  cases h with
  | char i => rfl
  | string s => rfl
  | signed i hletter => rcases hletter with rfl | rfl <;> rfl
  | unsigned i => rfl
  | hex l hletter => rcases hletter with rfl | rfl <;> rfl
  | percent => rfl
  | unknown hzero hletter =>
      simp only [letters, List.mem_cons, List.not_mem_nil, or_false, not_or] at hletter
      obtain ⟨hc, hs, hd, hi, hu, hx, hX, -⟩ := hletter
      rw [vsprintfSwitch, if_neg hc, if_neg hs, if_neg (not_or.mpr ⟨hd, hi⟩), if_neg hu,
        if_neg (not_or.mpr ⟨hX, hx⟩)]
      rfl

theorem format_loop_stop (h : index < 2 ^ 31) : formatLoop [0#8] index ap = some [] := by
  rw [formatLoop.eq_def]
  exact if_neg (Nat.not_le.mpr h)

theorem format_loop_letter (fmt : List Byte) (index : Nat) (ap : List Arg) :
    formatLoop (0x25#8 :: letter :: fmt) index ap =
      if index + 2 ≤ 2 ^ 31 then
        (vsprintfSwitch letter ap).bind fun r => (formatLoop fmt (index + 2) r.2).map (r.1 ++ ·)
      else none := by
  rw [formatLoop.eq_def]
  dsimp only
  by_cases hindex : index + 2 ≤ 2 ^ 31
  · rw [if_neg (by omega), if_neg (by decide), if_pos rfl, if_neg (by omega), if_pos hindex]
    rfl
  · rw [if_neg hindex]
    split
    · rfl
    · rw [if_neg (by decide), if_pos rfl, if_pos (by omega)]

/-- One piece in front of the rest of the format. -/
theorem Piece.Reads.format_loop (h : p.Reads f used) (fmt : List Byte) (index : Nat)
    (ap : List Arg) :
    formatLoop (f ++ fmt) index (used ++ ap) =
      if index + f.length ≤ 2 ^ 31 then
        (formatLoop fmt (index + f.length) ap).map (p.stored ++ ·)
      else none := by
  have hconversion : ∀ letter, f = [0x25#8, letter] → formatLoop (f ++ fmt) index (used ++ ap) =
      if index + f.length ≤ 2 ^ 31 then
        (formatLoop fmt (index + f.length) ap).map (p.stored ++ ·)
      else none := by
    rintro letter rfl
    refine (format_loop_letter fmt index (used ++ ap)).trans ?_
    rw [h.switch ap]
    rfl
  cases h with
  | @ordinary c hzero hpercent =>
      show formatLoop (c :: fmt) index ap = _
      rw [formatLoop.eq_def]
      dsimp only
      rw [if_neg hzero, if_neg hpercent, List.length_singleton]
      by_cases hindex : 2 ^ 31 ≤ index
      · rw [if_pos hindex, if_neg (by omega)]
      · rw [if_neg hindex, if_pos (by omega)]
        rfl
  | char | string | signed | unsigned | hex | percent | unknown => exact hconversion _ rfl

/-- The loop over a format: what is stored for its pieces, or no result when the format ends in a
percent sign or an `int` does not count it. -/
theorem Matching.format_loop (h : Matching fmt ap ps) (index : Nat) :
    formatLoop (fmt ++ [0#8]) index ap =
      if index + fmt.length < 2 ^ 31 ∧ .truncated ∉ ps then some (ps.flatMap Piece.stored)
      else none := by
  induction h generalizing index with
  | stop ap =>
      by_cases hindex : index < 2 ^ 31
      · rw [if_pos ⟨hindex, List.not_mem_nil⟩]
        exact format_loop_stop hindex
      · rw [if_neg (fun h => hindex h.1), List.nil_append, formatLoop.eq_def]
        exact if_pos (Nat.not_lt.mp hindex)
  | @cons p f fmt used ap ps hp hrest ih =>
      have htruncated : p ≠ .truncated := by
        rintro rfl
        cases hp
      have hmem : .truncated ∉ p :: ps ↔ .truncated ∉ ps := by
        rw [List.mem_cons, not_or, and_iff_right htruncated.symm]
      rw [List.append_assoc, hp.format_loop, ih, List.length_append, ← Nat.add_assoc]
      simp only [hmem, List.flatMap_cons]
      split
      · split <;> rfl
      · next hlong => rw [if_neg fun h => hlong (by omega)]
  | truncated ap =>
      -- the null byte is taken for a letter, and the loop goes on behind it
      rw [if_neg fun h => h.2 (List.mem_singleton.mpr rfl)]
      refine (format_loop_letter [] index ap).trans ?_
      split
      · exact Option.bind_eq_none_iff.mpr fun r _ => rfl
      · rfl

/-! ### What is stored and what should be -/

/-- What is stored in place of a text: it has no null byte and no fewer percent signs. When it has
no more of them, it is not longer than a text without null bytes. So the differences of the parts of
a text do not cancel. -/
structure Compared (good : Prop) (stored text : List Byte) : Prop where
  zero : 0#8 ∉ stored
  signs : text.count 0x25#8 ≤ stored.count 0x25#8
  shorter : text.count 0x25#8 = stored.count 0x25#8 → 0#8 ∉ text → stored.length ≤ text.length
  eq_iff : stored = text ↔ good

variable {good good' : Prop} {stored text : List Byte}

/-- What is stored is the text. -/
theorem Compared.refl (h : 0#8 ∉ text) (hgood : good) : Compared good text text :=
  ⟨h, Nat.le_refl _, fun _ _ => Nat.le_refl _, iff_of_true rfl hgood⟩

/-- Too many percent signs are stored. -/
theorem Compared.of_signs (h : 0#8 ∉ stored) (hlt : text.count 0x25#8 < stored.count 0x25#8)
    (hgood : ¬ good) : Compared good stored text :=
  ⟨h, hlt.le, fun heq => absurd heq hlt.ne,
    iff_of_false (fun heq => absurd (congrArg _ heq) hlt.ne') hgood⟩

/-- One part in front of another. -/
theorem Compared.append (h : Compared good s a) (h' : Compared good' t b) :
    Compared (good ∧ good') (s ++ t) (a ++ b) := by
  have hsigns := h.signs
  have hsigns' := h'.signs
  have hshorter : (a ++ b).count 0x25#8 = (s ++ t).count 0x25#8 → 0#8 ∉ a ++ b →
      s.length ≤ a.length ∧ t.length ≤ b.length := fun hcount hnull => by
    rw [List.count_append, List.count_append] at hcount
    obtain ⟨ha, hb⟩ := not_or.mp (mt List.mem_append.mpr hnull)
    exact ⟨h.shorter (by omega) ha, h'.shorter (by omega) hb⟩
  have hzero : 0#8 ∉ s ++ t := fun hmem => (List.mem_append.mp hmem).elim h.zero h'.zero
  refine ⟨hzero, ?_, fun hcount hnull => ?_, fun heq => ?_, ?_⟩
  · rw [List.count_append, List.count_append]
    exact Nat.add_le_add hsigns hsigns'
  · obtain ⟨hs, ht⟩ := hshorter hcount hnull
    rw [List.length_append, List.length_append]
    exact Nat.add_le_add hs ht
  · -- neither part is shorter, so the texts are cut at the same place
    obtain ⟨hs, ht⟩ := hshorter (congrArg _ heq.symm) (heq ▸ hzero)
    have hlength := congrArg List.length heq
    rw [List.length_append, List.length_append] at hlength
    obtain ⟨hfirst, hrest⟩ := List.append_inj heq (by omega)
    exact ⟨h.eq_iff.mp hfirst, h'.eq_iff.mp hrest⟩
  · rintro ⟨hgood, hgood'⟩
    rw [h.eq_iff.mpr hgood, h'.eq_iff.mpr hgood']

/-- A `%c` stores nothing for the null character. -/
theorem compared_char (c : Byte) : Compared (c ≠ 0#8) (vsputsR [c]) [c] := by
  by_cases hzero : c = 0#8
  · subst hzero
    exact ⟨by decide, by decide, fun _ hnull => absurd List.mem_cons_self hnull, by decide⟩
  · have hnull : 0#8 ∉ [c] := fun hmem => hzero (List.mem_singleton.mp hmem).symm
    rw [vsputs_r_eq hnull]
    exact .refl hnull hzero

/-- A `%u` stores the numeral of the lowest byte, which is not longer. -/
theorem compared_unsigned (i : BitVec 32) :
    Compared (i.toNat < 2 ^ 8) (Piece.unsigned i).stored (Piece.unsigned i).text := by
  obtain ⟨hnull, hsign⟩ := @numeral_digits 10 (by decide) (by decide) i.toNat
  obtain ⟨hnull', hsign'⟩ := @numeral_digits 10 (by decide) (by decide) (i.setWidth 8).toNat
  have hlow : (i.setWidth 8).toNat = i.toNat % 2 ^ 8 := BitVec.toNat_setWidth ..
  have hstored : (Piece.unsigned i).stored = numeral 10 (i.setWidth 8).toNat := by
    rw [Piece.stored, itoa_byte, vsputs_r_eq hnull']
  rw [hstored, Piece.text]
  refine ⟨hnull', ?_, fun _ _ => ?_, ?_⟩
  · rw [List.count_eq_zero_of_not_mem hsign]
    exact Nat.zero_le _
  · rw [hlow]
    exact numeral_length_mono (by decide) (Nat.mod_le _ _)
  · constructor
    · intro heq
      have hvalue := (@numeral_canonical 10 (by decide) (by decide) (i.setWidth 8).toNat).value
      rw [heq, (@numeral_canonical 10 (by decide) (by decide) i.toNat).value, hlow] at hvalue
      rw [hvalue]
      exact Nat.mod_lt _ (by decide)
    · intro hlt
      rw [hlow, Nat.mod_eq_of_lt hlt]

/-- A piece. -/
theorem Piece.Reads.compared (h : p.Reads f used) : Compared p.Good p.stored p.text := by
  have hsigns : 0#8 ∉ vsputsR [0x25#8, 0x25#8] := by decide
  cases h with
  | @ordinary c hzero hpercent =>
      have hcompared := compared_char c
      rwa [propext (iff_of_true hzero (trivial : (Piece.ordinary c).Good))] at hcompared
  | char i => exact compared_char (i.setWidth 8)
  | string s => exact .refl (zero_not_mem_c_string s) trivial
  | signed i hletter =>
      have hnull : 0#8 ∉ (Piece.signed i).text := by
        have hdigits := (@numeral_digits 10 (by decide) (by decide) i.toInt.natAbs).1
        rw [Piece.text, List.mem_append, not_or]
        exact ⟨by split <;> decide, hdigits⟩
      have hstored : (Piece.signed i).stored = (Piece.signed i).text := by
        rw [Piece.text, ← itoa_text] at hnull ⊢
        exact vsputs_r_eq hnull
      rw [hstored]
      exact .refl hnull trivial
  | unsigned i => exact compared_unsigned i
  | hex l hletter =>
      have hnull := (@numeral_digits 16 (by decide) (by decide) l.toNat).1
      rw [Piece.stored, utoa_text, vsputs_r_eq hnull]
      exact .refl hnull trivial
  | percent => exact .of_signs hsigns (by decide) not_false
  | @unknown letter hzero hletter =>
      have hpercent : letter ≠ 0x25#8 := by
        rintro rfl
        exact hletter (by decide)
      have hcount : (Piece.unknown letter).text.count 0x25#8 = 1 := by
        rw [Piece.text, List.count_cons_self, List.count_singleton,
          if_neg (by simpa using hpercent)]
      refine .of_signs hsigns ?_ not_false
      rw [hcount]
      exact (by decide : 1 < (vsputsR [0x25#8, 0x25#8]).count 0x25#8)

/-- The pieces of a format. -/
theorem Matching.compared (h : Matching fmt ap ps) :
    Compared (∀ p ∈ ps, p.Good) (ps.flatMap Piece.stored) (ps.flatMap Piece.text) := by
  induction h with
  | stop ap => exact .refl List.not_mem_nil nofun
  | cons hp hrest ih =>
      rw [List.forall_mem_cons]
      exact hp.compared.append ih
  | truncated ap =>
      exact .of_signs (by decide) (by decide) fun hgood => hgood _ (List.mem_singleton.mpr rfl)

/-! ### The law -/

/-- The bytes that are stored make the text in every buffer, with a null byte behind it that the
buffer had, exactly when they are the text. -/
theorem holds_stored_iff (hzero : 0#8 ∉ stored) (c : Byte) :
    (∀ str : Bytes, str text.length = c →
      HoldsString (copyBytes str 0 (fun i => stored.getD i 0#8) 0 stored.length) 0 text) ↔
      c = 0#8 ∧ stored = text := by
  have hinside : ∀ (str : Bytes) {i : Nat}, i < stored.length →
      copyBytes str 0 (fun i => stored.getD i 0#8) 0 stored.length i = stored.getD i 0#8 := by
    intro str i hi
    have hbyte : copyBytes str 0 (fun i => stored.getD i 0#8) 0 stored.length (0 + i) =
        stored.getD i 0#8 := copy_bytes_start hi
    rwa [Nat.zero_add] at hbyte
  have hbehind : ∀ (str : Bytes) {i : Nat}, stored.length ≤ i →
      copyBytes str 0 (fun i => stored.getD i 0#8) 0 stored.length i = str i :=
    fun str i hi => copy_bytes_outside (.inr (by omega))
  constructor
  · intro h
    -- a buffer that differs from the text at each place but the one behind it
    let str : Bytes := fun i => if i = text.length then c else text.getD i 0#8 + 1#8
    have hholds : ∀ i ≤ text.length,
        copyBytes str 0 (fun i => stored.getD i 0#8) 0 stored.length i = text.getD i 0#8 :=
      fun i hi => by
        have hbyte := h str (if_pos rfl) i hi
        rwa [Nat.zero_add] at hbyte
    have hnoshorter : text.length ≤ stored.length := by
      by_contra hlt
      have hbyte := hholds stored.length (by omega)
      rw [hbehind str (Nat.le_refl _)] at hbyte
      have hdiffers : str stored.length = text.getD stored.length 0#8 + 1#8 := if_neg (by omega)
      rw [hdiffers] at hbyte
      exact absurd hbyte (by simp)
    have hend := hholds text.length (Nat.le_refl _)
    rw [List.getD_eq_default _ _ (Nat.le_refl _)] at hend
    have hnolonger : stored.length ≤ text.length := by
      by_contra hlt
      rw [hinside str (by omega), List.getD_eq_getElem _ _ (by omega)] at hend
      exact hzero (hend ▸ List.getElem_mem _)
    refine ⟨?_, ?_⟩
    · rw [hbehind str hnolonger] at hend
      exact (if_pos rfl : str text.length = c).symm.trans hend
    · refine List.ext_getElem (by omega) fun i hi hi' => ?_
      have hbyte := hholds i hi'.le
      rwa [hinside str hi, List.getD_eq_getElem _ _ hi, List.getD_eq_getElem _ _ hi'] at hbyte
  · rintro ⟨rfl, rfl⟩ str hstr
    refine .of_bytes (fun i hi => ?_) ?_
    · rw [Nat.zero_add, hinside str hi, List.getD_eq_getElem _ _ hi]
    · rw [Nat.zero_add, hbehind str (Nat.le_refl _), hstr]

/-- The law for a format that the loop gets through. -/
theorem vsprintf_law_of_loop (hloop : formatLoop (fmt ++ [0#8]) 0 ap = some stored)
    (hzero : 0#8 ∉ stored) : VsprintfLaw fmt ap text c ↔ c = 0#8 ∧ stored = text := by
  rw [← holds_stored_iff hzero c]
  refine forall₂_congr fun str _ => ?_
  rw [vsprintf, hloop]
  constructor
  · rintro ⟨rv, str', hresult, hholds⟩
    cases hresult
    exact hholds
  · exact fun hholds => ⟨_, _, rfl, hholds⟩

/-- `vsprintf` does what it should exactly when the byte behind the text was a null byte already, an
`int` counts the format, and all pieces are good. -/
theorem kernel_vsprintf_iff (b : Byte) (h : Matching fmt ap ps) :
    VsprintfLaw fmt ap (ps.flatMap Piece.text) b ↔
      b = 0#8 ∧ fmt.length < 2 ^ 31 ∧ ∀ p ∈ ps, p.Good := by
  have hloop := h.format_loop 0
  have hcompared := h.compared
  rw [Nat.zero_add] at hloop
  by_cases hreads : fmt.length < 2 ^ 31 ∧ .truncated ∉ ps
  · rw [if_pos hreads] at hloop
    rw [vsprintf_law_of_loop hloop hcompared.zero, hcompared.eq_iff, and_iff_right hreads.1]
  · rw [if_neg hreads] at hloop
    refine iff_of_false (fun hlaw => ?_) fun hcond => ?_
    · obtain ⟨rv, str', hresult, -⟩ := hlaw (fun _ => b) rfl
      rw [vsprintf, hloop] at hresult
      cases hresult
    · -- a truncated conversion is not good
      exact hreads ⟨hcond.2.1, fun hmem => hcond.2.2 _ hmem⟩

/-- `"a%u"` for the number 7, in a buffer of null bytes. -/
theorem kernel_vsprintf_iff_seven :
    VsprintfLaw [0x61#8, 0x25#8, 0x75#8] [.int 7#32] [0x61#8, 0x37#8] 0#8 :=
  (kernel_vsprintf_iff 0#8 (.cons (.ordinary (by decide) (by decide))
    (.cons (.unsigned 7#32) (.stop [])))).mpr ⟨rfl, by decide, by
      intro p hp
      rcases List.mem_cons.mp hp with rfl | hp
      · trivial
      · rw [List.mem_singleton.mp hp]
        exact (by decide : (7#32).toNat < 2 ^ 8)⟩

/-- `"%%"` stores two percent signs, `"%u"` for the number 256 stores a zero, behind `"a"` there is
no null byte, and `"%"` is read behind its end. -/
theorem kernel_text_wrong :
    ¬ VsprintfLaw [0x25#8, 0x25#8] [] [0x25#8] 0#8 ∧
      ¬ VsprintfLaw [0x25#8, 0x75#8] [.int 256#32] [0x32#8, 0x35#8, 0x36#8] 0#8 ∧
      ¬ VsprintfLaw [0x61#8] [] [0x61#8] 1#8 ∧ ¬ VsprintfLaw [0x25#8] [] [0x25#8] 0#8 := by
  have hsigns : formatLoop [0x25#8, 0x25#8, 0#8] 0 [] = some [0x25#8, 0x25#8] := rfl
  have hnumber : formatLoop [0x25#8, 0x75#8, 0#8] 0 [.int 256#32] = some [0x30#8] := by
    refine (format_loop_letter [0#8] 0 [.int 256#32]).trans ?_
    have hdigit : vsputsR (itoa (((256#32).setWidth 8).setWidth 32)) = [0x30#8] := by
      rw [itoa_byte]
      rfl
    exact (congrArg (fun text => some (text ++ [])) hdigit)
  have hletter : formatLoop [0x61#8, 0#8] 0 [] = some [0x61#8] := rfl
  have hend : formatLoop [0x25#8, 0#8] 0 [] = none := rfl
  refine ⟨fun h => ?_, fun h => ?_, fun h => ?_, fun h => ?_⟩
  · exact absurd ((vsprintf_law_of_loop hsigns (by decide)).mp h).2 (by decide)
  · exact absurd ((vsprintf_law_of_loop hnumber (by decide)).mp h).2 (by decide)
  · exact absurd ((vsprintf_law_of_loop hletter (by decide)).mp h).1 (by decide)
  · obtain ⟨rv, str', hresult, -⟩ := h (fun _ => 0#8) rfl
    rw [vsprintf, List.singleton_append, hend] at hresult
    cases hresult

end Sirius.Stdio.Kernel
