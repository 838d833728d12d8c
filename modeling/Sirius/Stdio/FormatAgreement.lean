import Mathlib.Tactic
import Sirius.Stdio.Format

/-!
# The two formatters agree

`Matching fmt ap ds` says that the conversions of the format are complete, none is a floating one,
and the arguments are those that they take; `ds` are the conversions with their arguments. For such
a format `vfprintf` sends what `vsprintf` stores exactly when no `%c` is for the null character and
no `%s` for a string that an `int` cannot count.
-/

namespace Sirius.Stdio.User

open Library

/-- A conversion: its letter with or without `l`, and the arguments that it takes. -/
structure Directive where
  l : Bool
  letter : Byte
  used : List Arg

/-- The arguments are those of the letter. -/
def Directive.Takes (d : Directive) : Prop :=
  match d.l, vf d.letter with
  | _, some .g | _, some .f => False
  | false, some .s => ∃ s, d.used = [.str s]
  | false, some _ => ∃ i, d.used = [.int i]
  | true, some .d | true, some .u | true, some .x => ∃ l, d.used = [.long l]
  | _, _ => d.used = []

/-- The character of a `%c` is not null, and an `int` counts the string of a `%s`. -/
def Directive.Plain (d : Directive) : Prop :=
  match d.l, vf d.letter, d.used with
  | false, some .c, [.int i] => i.setWidth 8 ≠ 0#8
  | false, some .s, [.str (some s)] => (cString s).length ≤ 2 ^ 31
  | _, _, _ => True

/-- The formats with complete conversions and their arguments. -/
inductive Matching : List Byte → List Arg → List Directive → Prop where
  | stop (fmt : List Byte) (ap : List Arg) : Matching (0#8 :: fmt) ap []
  | ordinary {c : Byte} {fmt : List Byte} {ap : List Arg} {ds : List Directive} (hzero : c ≠ 0#8)
      (hpercent : c ≠ 0x25#8) (hrest : Matching fmt ap ds) : Matching (c :: fmt) ap ds
  | short {d : Directive} {fmt : List Byte} {ap : List Arg} {ds : List Directive}
      (hd : d.l = false) (hzero : d.letter ≠ 0#8) (hl : d.letter ≠ 0x6c#8) (htakes : d.Takes)
      (hrest : Matching fmt ap ds) : Matching (0x25#8 :: d.letter :: fmt) (d.used ++ ap) (d :: ds)
  | long {d : Directive} {fmt : List Byte} {ap : List Arg} {ds : List Directive}
      (hd : d.l = true) (hzero : d.letter ≠ 0#8) (htakes : d.Takes) (hrest : Matching fmt ap ds) :
      Matching (0x25#8 :: 0x6c#8 :: d.letter :: fmt) (d.used ++ ap) (d :: ds)

variable {ftoa : BitVec 64 → Nat → List Byte} {single : BitVec 64 → BitVec 64}
  {fmt s t a b : List Byte} {ap : List Arg} {d : Directive} {ds : List Directive} {c letter : Byte}

/-! ### Characters and strings -/

theorem zero_not_mem_c_string (s : List Byte) : 0#8 ∉ cString s := by
  intro h
  have hall := List.all_eq_true.mp (List.all_takeWhile (p := (· ≠ 0#8)) (l := s)) _ h
  simp at hall

theorem c_string_length_le (s : List Byte) : (cString s).length ≤ s.length :=
  (List.takeWhile_sublist _).length_le

/-- `fputs` of a string that an `int` counts. -/
theorem fputs_eq (h : (cString s).length ≤ 2 ^ 31) : fputs s = some (vsputsR s) := by
  have hmod : (cString s).length % 2 ^ 32 = (cString s).length := Nat.mod_eq_of_lt (by omega)
  rw [fputs, hmod, if_pos h, List.take_length]
  rfl

/-- `fputs` of a longer string sends fewer characters, if it returns. -/
theorem fputs_shorter (h : ¬ (cString s).length ≤ 2 ^ 31) (hsent : fputs s = some t) :
    t.length < (vsputsR s).length := by
  rw [fputs] at hsent
  split at hsent
  · next hle =>
      obtain rfl := Option.some.inj hsent
      have hlen : (List.take ((cString s).length % 2 ^ 32) (cString s)).length ≤
          (cString s).length % 2 ^ 32 := List.length_take_le ..
      change _ < (cString s).length
      omega
  · cases hsent

/-- The characters other than the null character. -/
abbrev visible (s : List Byte) : List Byte := s.filter (· ≠ 0#8)

/-- What is stored and what is sent: the stored text has no null character, the sent one has no
more of the other characters, and if it differs, then by a null character or by fewer others. -/
structure Compared (plain : Prop) (stored sent : List Byte) : Prop where
  zero : 0#8 ∉ stored
  le : (visible sent).length ≤ stored.length
  same : plain → sent = stored
  differs : plain ∨ 0#8 ∈ sent ∨ (visible sent).length < stored.length

variable {p q : Prop}

/-- The comparison tells exactly when the texts agree. -/
theorem Compared.eq_iff (h : Compared p a b) : b = a ↔ p := by
  refine ⟨fun heq => ?_, h.same⟩
  subst heq
  refine h.differs.resolve_right ?_
  rintro (hmem | hlt)
  · exact h.zero hmem
  · have hall : visible b = b := List.filter_eq_self.mpr fun x hx => by
      simpa using fun heq : x = 0#8 => h.zero (heq ▸ hx)
    rw [hall] at hlt
    exact absurd hlt (Nat.lt_irrefl _)

/-- One piece in front of another. -/
theorem Compared.append {a' b' : List Byte} (h : Compared p a b) (h' : Compared q a' b') :
    Compared (p ∧ q) (a ++ a') (b ++ b') := by
  refine ⟨?_, ?_, ?_, ?_⟩
  · rw [List.mem_append, not_or]
    exact ⟨h.zero, h'.zero⟩
  · rw [visible, List.filter_append, List.length_append, List.length_append]
    exact Nat.add_le_add h.le h'.le
  · rintro ⟨hp, hq⟩
    rw [h.same hp, h'.same hq]
  · rw [List.mem_append, visible, List.filter_append, List.length_append, List.length_append]
    rcases h.differs with hp | hmem | hlt
    · rcases h'.differs with hq | hmem | hlt
      · exact .inl ⟨hp, hq⟩
      · exact .inr (.inl (.inr hmem))
      · exact .inr (.inr (Nat.add_lt_add_of_le_of_lt h.le hlt))
    · exact .inr (.inl (.inl hmem))
    · exact .inr (.inr (Nat.add_lt_add_of_lt_of_le hlt h'.le))

/-- The same characters. -/
theorem Compared.refl (h : 0#8 ∉ a) (hp : p) : Compared p a a :=
  ⟨h, List.length_filter_le .., fun _ => rfl, .inl hp⟩

/-! ### One conversion -/

/-- The two formatters for a string. -/
theorem compared_fputs (s : List Byte) :
    ((cString s).length ≤ 2 ^ 31 → fputs s = some (vsputsR s)) ∧
      ∀ t, fputs s = some t → Compared ((cString s).length ≤ 2 ^ 31) (vsputsR s) t := by
  refine ⟨fputs_eq, fun t ht => ?_⟩
  by_cases hle : (cString s).length ≤ 2 ^ 31
  · obtain rfl := Option.some.inj (ht.symm.trans (fputs_eq hle))
    exact .refl (zero_not_mem_c_string s) hle
  · have hlt := fputs_shorter hle ht
    have hvisible : (visible t).length ≤ t.length := List.length_filter_le ..
    exact ⟨zero_not_mem_c_string s, hvisible.trans hlt.le, fun h => absurd h hle,
      .inr (.inr (hvisible.trans_lt hlt))⟩

/-- The two formatters for a character. -/
theorem compared_char (c : Byte) : Compared (c ≠ 0#8) (vsputsR [c]) [c] := by
  by_cases hc : c = 0#8
  · subst hc
    exact ⟨by decide, by decide, fun h => absurd rfl h, .inr (.inl (by decide))⟩
  · have hsame : vsputsR [c] = [c] := by
      rw [vsputsR, cString, List.takeWhile_cons_of_pos (by simpa using hc)]
      rfl
    rw [hsame]
    exact .refl (fun h => hc (List.mem_singleton.mp h).symm) hc

/-- A conversion: `vsprintf` stores a text, and what `vfprintf` sends compares with it. -/
structure Converts (ftoa : BitVec 64 → Nat → List Byte) (single : BitVec 64 → BitVec 64)
    (d : Directive) (ap : List Arg) (stored : List Byte) : Prop where
  stores : vsprintfSwitch ftoa d.l d.letter (d.used ++ ap) = some (stored, ap)
  sends : d.Plain → ∃ sent, vfprintfSwitch ftoa single d.l d.letter (d.used ++ ap) = some (sent, ap)
  compared : ∀ sent rest, vfprintfSwitch ftoa single d.l d.letter (d.used ++ ap) =
    some (sent, rest) → rest = ap ∧ Compared d.Plain stored sent

variable {stored : List Byte}

/-- A conversion to a string. -/
theorem Converts.of_fputs
    (hstores : vsprintfSwitch ftoa d.l d.letter (d.used ++ ap) = some (vsputsR s, ap))
    (hsends : vfprintfSwitch ftoa single d.l d.letter (d.used ++ ap) = (fputs s).map (·, ap))
    (hplain : d.Plain ↔ (cString s).length ≤ 2 ^ 31) :
    Converts ftoa single d ap (vsputsR s) := by
  obtain ⟨hreturns, hcompared⟩ := compared_fputs s
  refine ⟨hstores, fun h => ⟨vsputsR s, ?_⟩, fun sent rest hsent => ?_⟩
  · rw [hsends, hreturns (hplain.mp h)]
    rfl
  · rw [hsends] at hsent
    obtain ⟨t, ht, heq⟩ := Option.map_eq_some_iff.mp hsent
    cases heq
    exact ⟨rfl, propext hplain ▸ hcompared _ ht⟩

/-- A conversion whose text is a numeral. -/
theorem Converts.of_numeral
    (hstores : vsprintfSwitch ftoa d.l d.letter (d.used ++ ap) = some (vsputsR s, ap))
    (hsends : vfprintfSwitch ftoa single d.l d.letter (d.used ++ ap) = (fputs s).map (·, ap))
    (hplain : d.Plain) (hlength : s.length ≤ 22) : Converts ftoa single d ap (vsputsR s) :=
  .of_fputs hstores hsends
    (iff_of_true hplain ((c_string_length_le s).trans (hlength.trans (by decide))))

/-- A conversion that sends some characters in any case. -/
theorem Converts.of_chars {sent : List Byte}
    (hstores : vsprintfSwitch ftoa d.l d.letter (d.used ++ ap) = some (stored, ap))
    (hsends : vfprintfSwitch ftoa single d.l d.letter (d.used ++ ap) = some (sent, ap))
    (hcompared : Compared d.Plain stored sent) : Converts ftoa single d ap stored := by
  refine ⟨hstores, fun _ => ⟨sent, hsends⟩, fun sent' rest h => ?_⟩
  cases hsends.symm.trans h
  exact ⟨rfl, hcompared⟩

/-- A letter that is printed behind a percent sign. -/
theorem Converts.of_other (hzero : d.letter ≠ 0#8)
    (hstores : vsprintfSwitch ftoa d.l d.letter (d.used ++ ap) =
      some (vsputsR [0x25#8] ++ vsputsR [d.letter], ap))
    (hsends : vfprintfSwitch ftoa single d.l d.letter (d.used ++ ap) =
      some ([0x25#8] ++ [d.letter], ap)) (hplain : d.Plain) :
    Converts ftoa single d ap (vsputsR [0x25#8] ++ vsputsR [d.letter]) := by
  have hboth := (compared_char 0x25#8).append (compared_char d.letter)
  have hiff : (0x25#8 ≠ 0#8 ∧ d.letter ≠ 0#8) = d.Plain :=
    propext (iff_of_true ⟨by decide, hzero⟩ hplain)
  exact .of_chars hstores hsends (hiff ▸ hboth)

/-- A letter of the table behind the percent sign. -/
theorem exists_converts_short {letter : Byte} {used : List Arg} {conv : Conversion}
    (hvf : vf letter = some conv) (htakes : Directive.Takes ⟨false, letter, used⟩)
    (ap : List Arg) : ∃ stored, Converts ftoa single ⟨false, letter, used⟩ ap stored := by
  unfold Directive.Takes at htakes
  dsimp only at htakes
  rw [hvf] at htakes
  cases conv with
  | c =>
      obtain ⟨i, rfl⟩ := htakes
      have hplain : (i.setWidth 8 ≠ 0#8) = Directive.Plain ⟨false, letter, [.int i]⟩ := by
        simp [Directive.Plain, hvf]
      exact ⟨_, .of_chars (by simp [vsprintfSwitch, hvf, vaInt])
        (by simp [vfprintfSwitch, hvf, vaInt]) (hplain ▸ compared_char _)⟩
  | s =>
      obtain ⟨s, rfl⟩ := htakes
      refine ⟨_, .of_fputs (s := s.getD nullText) (by simp [vsprintfSwitch, hvf, vaStr])
        (by simp [vfprintfSwitch, hvf, vaStr]) ?_⟩
      cases s with
      | none => exact iff_of_true (by simp [Directive.Plain, hvf]) (by decide)
      | some s => simp [Directive.Plain, hvf]
  | d =>
      obtain ⟨i, rfl⟩ := htakes
      exact ⟨_, .of_numeral (s := itoa i) (by simp [vsprintfSwitch, hvf, vaInt])
        (by simp [vfprintfSwitch, hvf, vaInt]) (by simp [Directive.Plain, hvf])
        ((signed_numeral_length (by decide) i).trans (by decide))⟩
  | u =>
      obtain ⟨i, rfl⟩ := htakes
      exact ⟨_, .of_numeral (s := utoa (i.setWidth 64) 10)
        (by simp [vsprintfSwitch, hvf, vaInt]) (by simp [vfprintfSwitch, hvf, vaInt])
        (by simp [Directive.Plain, hvf]) ((utoa_length _ _).trans (by decide))⟩
  | x =>
      obtain ⟨i, rfl⟩ := htakes
      exact ⟨_, .of_numeral (s := i2hex (i.setWidth 64) 8)
        (by simp [vsprintfSwitch, hvf, vaInt]) (by simp [vfprintfSwitch, hvf, vaInt])
        (by simp [Directive.Plain, hvf]) ((i2hex_length _ _).trans (by decide))⟩
  | g => exact htakes.elim
  | f => exact htakes.elim

/-- A letter of the table behind `l`. The table has no `lc` and no `ls`. -/
theorem exists_converts_long {letter : Byte} {used : List Arg} {conv : Conversion}
    (hvf : vf letter = some conv) (hzero : letter ≠ 0#8)
    (htakes : Directive.Takes ⟨true, letter, used⟩) (ap : List Arg) :
    ∃ stored, Converts ftoa single ⟨true, letter, used⟩ ap stored := by
  unfold Directive.Takes at htakes
  dsimp only at htakes
  rw [hvf] at htakes
  cases conv with
  | c =>
      subst htakes
      exact ⟨_, .of_other hzero (by simp [vsprintfSwitch, hvf]) (by simp [vfprintfSwitch, hvf])
        (by simp [Directive.Plain])⟩
  | s =>
      subst htakes
      exact ⟨_, .of_other hzero (by simp [vsprintfSwitch, hvf]) (by simp [vfprintfSwitch, hvf])
        (by simp [Directive.Plain])⟩
  | d =>
      obtain ⟨l, rfl⟩ := htakes
      exact ⟨_, .of_numeral (s := ltoa l 10) (by simp [vsprintfSwitch, hvf, vaLong])
        (by simp [vfprintfSwitch, hvf, vaLong]) (by simp [Directive.Plain]) (ltoa_length _ _)⟩
  | u =>
      obtain ⟨l, rfl⟩ := htakes
      exact ⟨_, .of_numeral (s := utoa l 10) (by simp [vsprintfSwitch, hvf, vaLong])
        (by simp [vfprintfSwitch, hvf, vaLong]) (by simp [Directive.Plain])
        ((utoa_length _ _).trans (by decide))⟩
  | x =>
      obtain ⟨l, rfl⟩ := htakes
      exact ⟨_, .of_numeral (s := utoa l 16) (by simp [vsprintfSwitch, hvf, vaLong])
        (by simp [vfprintfSwitch, hvf, vaLong]) (by simp [Directive.Plain])
        ((utoa_length _ _).trans (by decide))⟩
  | g => exact htakes.elim
  | f => exact htakes.elim

/-- Each letter, with the arguments that it takes. -/
theorem exists_converts (hzero : d.letter ≠ 0#8) (htakes : d.Takes) (ap : List Arg) :
    ∃ stored, Converts ftoa single d ap stored := by
  obtain ⟨l, letter, used⟩ := d
  cases hvf : vf letter with
  | none =>
      unfold Directive.Takes at htakes
      dsimp only at hzero htakes
      rw [hvf] at htakes
      have hused : used = [] := by cases l <;> exact htakes
      subst hused
      refine ⟨_, .of_other hzero ?_ ?_ ?_⟩ <;> cases l <;>
        simp [vsprintfSwitch, vfprintfSwitch, Directive.Plain, hvf]
  | some conv =>
      cases l with
      | false => exact exists_converts_short hvf htakes ap
      | true => exact exists_converts_long hvf hzero htakes ap

/-! ### The loop -/

section Loop

variable {switch : Bool → Byte → List Arg → Option (List Byte × List Arg)}
  {ordinary : Byte → List Byte}

theorem format_loop_stop : formatLoop switch ordinary (0#8 :: fmt) ap = some [] := by
  rw [formatLoop.eq_def]
  rfl

theorem format_loop_ordinary (hzero : c ≠ 0#8) (hpercent : c ≠ 0x25#8) :
    formatLoop switch ordinary (c :: fmt) ap =
      (formatLoop switch ordinary fmt ap).map (ordinary c ++ ·) := by
  rw [formatLoop.eq_def]
  dsimp only
  rw [if_neg hzero, if_neg hpercent]

theorem format_loop_short (hl : letter ≠ 0x6c#8) :
    formatLoop switch ordinary (0x25#8 :: letter :: fmt) ap =
      (switch false letter ap).bind fun r =>
        (formatLoop switch ordinary fmt r.2).map (r.1 ++ ·) := by
  rw [formatLoop.eq_def]
  dsimp only
  rw [if_neg (by decide), if_pos rfl, if_neg hl]
  rfl

theorem format_loop_long :
    formatLoop switch ordinary (0x25#8 :: 0x6c#8 :: letter :: fmt) ap =
      (switch true letter ap).bind fun r =>
        (formatLoop switch ordinary fmt r.2).map (r.1 ++ ·) := by
  rw [formatLoop.eq_def]
  dsimp only
  rw [if_neg (by decide), if_pos rfl, if_pos rfl]
  rfl

end Loop

/-- What the two formatters do with a format from the current character on. -/
structure Formats (ftoa : BitVec 64 → Nat → List Byte) (single : BitVec 64 → BitVec 64)
    (fmt : List Byte) (ap : List Arg) (p : Prop) (stored : List Byte) : Prop where
  stores : vsprintfText ftoa fmt ap = some stored
  sends : p → ∃ sent, vfprintf ftoa single fmt ap = some sent
  compared : ∀ sent, vfprintf ftoa single fmt ap = some sent → Compared p stored sent

theorem Formats.stop (hp : p) : Formats ftoa single (0#8 :: fmt) ap p [] := by
  have hsent : vfprintf ftoa single (0#8 :: fmt) ap = some [] := format_loop_stop
  refine ⟨format_loop_stop, fun _ => ⟨[], hsent⟩, fun sent hs => ?_⟩
  cases hsent.symm.trans hs
  exact .refl List.not_mem_nil hp

/-- An ordinary character in front of the rest of the format. -/
theorem Formats.ordinary (h : Formats ftoa single fmt ap p a) (hzero : c ≠ 0#8)
    (hpercent : c ≠ 0x25#8) :
    Formats ftoa single (c :: fmt) ap (c ≠ 0#8 ∧ p) (vsputsR [c] ++ a) := by
  obtain ⟨hstores, hsends, hcompared⟩ := h
  refine ⟨?_, fun hp => ?_, fun sent hs => ?_⟩
  · rw [vsprintfText, format_loop_ordinary hzero hpercent]
    exact (congrArg _ hstores).trans rfl
  · obtain ⟨sent, hsent⟩ := hsends hp.2
    refine ⟨[c] ++ sent, ?_⟩
    rw [vfprintf, format_loop_ordinary hzero hpercent]
    exact (congrArg _ hsent).trans rfl
  · rw [vfprintf, format_loop_ordinary hzero hpercent] at hs
    obtain ⟨b, hb, rfl⟩ := Option.map_eq_some_iff.mp hs
    exact (compared_char c).append (hcompared b hb)

/-- A conversion in front of the rest of the format. -/
theorem Formats.conversion {fmt' : List Byte} (h : Formats ftoa single fmt ap p a)
    (hconverts : Converts ftoa single d ap stored)
    (hstored : vsprintfText ftoa fmt' (d.used ++ ap) =
      (vsprintfSwitch ftoa d.l d.letter (d.used ++ ap)).bind fun r =>
        (vsprintfText ftoa fmt r.2).map (r.1 ++ ·))
    (hsent : vfprintf ftoa single fmt' (d.used ++ ap) =
      (vfprintfSwitch ftoa single d.l d.letter (d.used ++ ap)).bind fun r =>
        (vfprintf ftoa single fmt r.2).map (r.1 ++ ·)) :
    Formats ftoa single fmt' (d.used ++ ap) (d.Plain ∧ p) (stored ++ a) := by
  refine ⟨?_, ?_, fun sent hs => ?_⟩
  · rw [hstored, hconverts.stores, Option.bind_some, h.stores]
    rfl
  · rintro ⟨hplain, hp⟩
    obtain ⟨first, hfirst⟩ := hconverts.sends hplain
    obtain ⟨b, hb⟩ := h.sends hp
    exact ⟨first ++ b, by rw [hsent, hfirst, Option.bind_some, hb]; rfl⟩
  · rw [hsent] at hs
    obtain ⟨⟨first, rest⟩, hfirst, hmap⟩ := Option.bind_eq_some_iff.mp hs
    obtain ⟨rfl, hcompared⟩ := hconverts.compared first rest hfirst
    obtain ⟨b, hb, rfl⟩ := Option.map_eq_some_iff.mp hmap
    exact hcompared.append (h.compared b hb)

/-- A format with the arguments that it takes, by induction on the format. -/
theorem Matching.formats (h : Matching fmt ap ds) :
    ∃ stored, Formats ftoa single fmt ap (∀ d ∈ ds, d.Plain) stored := by
  induction h with
  | stop fmt ap => exact ⟨[], .stop (by simp)⟩
  | @ordinary c fmt ap ds hzero hpercent _ ih =>
      obtain ⟨stored, hformats⟩ := ih
      have hplain : (c ≠ 0#8 ∧ ∀ d ∈ ds, d.Plain) = ∀ d ∈ ds, d.Plain :=
        propext (and_iff_right hzero)
      exact ⟨_, hplain ▸ hformats.ordinary hzero hpercent⟩
  | @short d fmt ap ds hd hzero hl htakes _ ih =>
      obtain ⟨a, hformats⟩ := ih
      obtain ⟨stored, hconverts⟩ := exists_converts hzero htakes ap
      refine ⟨stored ++ a, propext List.forall_mem_cons ▸
        hformats.conversion hconverts ?_ ?_⟩ <;> rw [hd] <;> exact format_loop_short hl
  | @long d fmt ap ds hd hzero htakes _ ih =>
      obtain ⟨a, hformats⟩ := ih
      obtain ⟨stored, hconverts⟩ := exists_converts hzero htakes ap
      refine ⟨stored ++ a, propext List.forall_mem_cons ▸
        hformats.conversion hconverts ?_ ?_⟩ <;> rw [hd] <;> exact format_loop_long

/-- `vfprintf` sends what `vsprintf` stores exactly when the arguments are plain. -/
theorem formatters_agree_iff (ftoa : BitVec 64 → Nat → List Byte) (single : BitVec 64 → BitVec 64)
    (h : Matching fmt ap ds) :
    (∃ text, vsprintfText ftoa fmt ap = some text ∧ vfprintf ftoa single fmt ap = some text) ↔
      ∀ d ∈ ds, d.Plain := by
  obtain ⟨stored, hformats⟩ : ∃ stored, Formats ftoa single fmt ap (∀ d ∈ ds, d.Plain) stored :=
    h.formats
  constructor
  · rintro ⟨text, htext, hsent⟩
    cases hformats.stores.symm.trans htext
    exact (hformats.compared _ hsent).eq_iff.mp rfl
  · intro hplain
    obtain ⟨sent, hsent⟩ := hformats.sends hplain
    obtain rfl := (hformats.compared sent hsent).eq_iff.mpr hplain
    exact ⟨_, hformats.stores, hsent⟩

/-- `"a%c"` for the letter b. -/
theorem formatters_agree_iff_letter :
    ∃ text, vsprintfText (fun _ _ => []) [0x61#8, 0x25#8, 0x63#8, 0#8] [.int 0x62#32] = some text ∧
      vfprintf (fun _ _ => []) id [0x61#8, 0x25#8, 0x63#8, 0#8] [.int 0x62#32] = some text :=
  (formatters_agree_iff (fun _ _ => []) id (.ordinary (by decide) (by decide)
    (.short (d := ⟨false, 0x63#8, [.int 0x62#32]⟩) rfl (by decide) (by decide) ⟨_, rfl⟩
      (.stop [] [])))).mpr (by
    intro d hd
    rw [List.mem_singleton.mp hd]
    exact (by decide : (0x62#32).setWidth 8 ≠ 0#8))

/-- `"%c"` for the null character: `vsprintf` stores nothing, `vfprintf` sends it. -/
theorem null_character_sent :
    Matching [0x25#8, 0x63#8, 0#8] [.int 0#32] [⟨false, 0x63#8, [.int 0#32]⟩] ∧
      ¬ ∃ text, vsprintfText (fun _ _ => []) [0x25#8, 0x63#8, 0#8] [.int 0#32] = some text ∧
        vfprintf (fun _ _ => []) id [0x25#8, 0x63#8, 0#8] [.int 0#32] = some text := by
  have hstored : vsprintfText (fun _ _ => []) [0x25#8, 0x63#8, 0#8] [.int 0#32] = some [] := rfl
  have hsent : vfprintf (fun _ _ => []) id [0x25#8, 0x63#8, 0#8] [.int 0#32] = some [0#8] := rfl
  refine ⟨.short (d := ⟨false, 0x63#8, [.int 0#32]⟩) rfl (by decide) (by decide) ⟨_, rfl⟩
    (.stop [] []), ?_⟩
  rintro ⟨text, htext, hagree⟩
  cases hstored.symm.trans htext
  cases hsent.symm.trans hagree

end Sirius.Stdio.User
