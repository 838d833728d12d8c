import Mathlib.Tactic
import Sirius.Stdio.Format

/-!
# String comparison

`strcmp`, `strncmp`, `memcmp` and `strrchr` of `user/lib/libc/string`. A string is the list of the
bytes of its object, from its first one on; a read behind the object has no result. `strcmp` looks
at the next two characters before it knows whether the strings end here, `strncmp` stops one
character early and not at a null byte, `memcmp` stops at a null byte, and `strrchr` never looks at
the first character.
-/

namespace Sirius.Stdio.User

open Library

/-! ### The code -/

/-- `strcmp` -/
def strcmp : (s1 s2 : List Byte) → Option Int
  | c₁ :: s1, c₂ :: s2 =>
      if c₁ = c₂ then
        match s1, s2 with
        | d₁ :: _, d₂ :: _ =>
            if d₁ = d₂ ∧ d₁.toInt + d₂.toInt = 0 then some 0 else strcmp s1 s2
        | _, _ => none
      else some (-1)
  | _, _ => none

/-- The loop of `strncmp` with the value of `count` behind `--count`: the value at the end. -/
def strncmpLoop : (count : Nat) → (s1 s2 : List Byte) → Option Nat
  | 0, _, _ => some 0
  | count + 1, c₁ :: s1, c₂ :: s2 =>
      if c₁ ≠ c₂ then some (count + 1) else strncmpLoop count s1 s2
  | _, _, _ => none

/-- `strncmp`. The count is unsigned and the result an `int`. -/
def strncmp (s1 s2 : List Byte) (count : BitVec 32) : Option Int :=
  if count = 0#32 then some (-1)
  else (strncmpLoop (count.toNat - 1) s1 s2).map fun count => (BitVec.ofNat 32 count).toInt

/-- The loop of `memcmp`: the last difference. -/
def memcmpLoop : (n : Nat) → (s1 s2 : List Byte) → Option Int
  | 0, _, _ => some 0
  | n + 1, c₁ :: s1, c₂ :: s2 =>
      let d : Int := c₁.toNat - c₂.toNat
      if d ≠ 0 ∨ c₂ = 0#8 then some d else memcmpLoop n s1 s2
  | _, _, _ => none

/-- `memcmp` -/
def memcmp (s1 s2 : List Byte) (n : BitVec 32) : Option Int := memcmpLoop n.toNat s1 s2

/-- `strlen`, an unsigned number. -/
def strlen (s : List Byte) : Nat := (cString s).length % 2 ^ 32

/-- The loop of `strrchr` from the position down. It makes as many rounds as the position says, so
it ends in front of position 0. -/
def strrchrLoop (s : List Byte) (c : BitVec 32) : (pos : Nat) → Option Nat
  | 0 => none
  | pos + 1 =>
      if (s.getD (pos + 1) 0#8).signExtend 32 = c then some (pos + 1) else strrchrLoop s c pos

/-- `strrchr`: the position of the character, or `none` for `NULL`. A `char` is signed. -/
def strrchr (s : List Byte) (c : BitVec 32) : Option Nat := strrchrLoop s c (strlen s)

/-! ### What the functions are for -/

/-- Whatever is behind the strings, the result is zero exactly for equal strings; an object that
ends with its string is enough. -/
def StrcmpLaw (a b : List Byte) : Prop :=
  ∀ x y, ∃ r, strcmp (a ++ 0#8 :: x) (b ++ 0#8 :: y) = some r ∧ (r = 0 ↔ a = b)

/-- Whatever is behind the strings, the result is zero exactly when their first `n` characters are
equal. -/
def StrncmpLaw (a b : List Byte) (n : BitVec 32) : Prop :=
  ∀ x y, ∃ r, strncmp (a ++ 0#8 :: x) (b ++ 0#8 :: y) n = some r ∧
    (r = 0 ↔ a.take n.toNat = b.take n.toNat)

/-- The result is zero exactly when the `n` bytes are equal. -/
def MemcmpLaw (p q : List Byte) (n : BitVec 32) : Prop :=
  ∃ r, memcmp p q n = some r ∧ (r = 0 ↔ p.take n.toNat = q.take n.toNat)

/-- The last position of the byte in the list. -/
def IsLastPosition (s : List Byte) (c : Byte) (pos : Nat) : Prop :=
  s[pos]? = some c ∧ ∀ i, pos < i → s[i]? ≠ some c

/-- The result is the last position of the character in the string with its null byte, or `NULL` if
it is not there. -/
def StrrchrLaw (a : List Byte) (c : BitVec 32) : Prop :=
  ∀ x pos, strrchr (a ++ 0#8 :: x) c = some pos ↔ IsLastPosition (a ++ [0#8]) (c.setWidth 8) pos

variable {a b p q x y : List Byte} {c : BitVec 32} {n : BitVec 32}

/-! ### `strcmp` -/

/-- Behind two equal characters that do not end the strings the comparison goes on. -/
theorem strcmp_same {e d₁ d₂ : Byte} (h : d₁ ≠ 0#8 ∨ d₂ ≠ 0#8) :
    strcmp (e :: d₁ :: x) (e :: d₂ :: y) = strcmp (d₁ :: x) (d₂ :: y) := by
  have hgoes : ¬ (d₁ = d₂ ∧ d₁.toInt + d₂.toInt = 0) := by
    rintro ⟨rfl, hsum⟩
    have hzero : d₁.toInt = (0#8).toInt := by
      rw [BitVec.toInt_zero]
      omega
    rw [or_self] at h
    exact h (BitVec.toInt_inj.mp hzero)
  rw [strcmp, if_pos rfl, if_neg hgoes]

/-- The code for strings that are not both empty. -/
theorem strcmp_some (ha : 0#8 ∉ a) (hb : 0#8 ∉ b) (h : a ≠ [] ∨ b ≠ []) :
    strcmp (a ++ 0#8 :: x) (b ++ 0#8 :: y) = some (if a = b then 0 else -1) := by
  induction a generalizing b with
  | nil =>
      cases b with
      | nil => exact absurd rfl (h.resolve_left (not_not_intro rfl))
      | cons d b =>
          have hd : 0#8 ≠ d := fun heq => hb (heq ▸ List.mem_cons_self)
          simp [strcmp, hd]
  | cons e a ih =>
      cases b with
      | nil =>
          have he : e ≠ 0#8 := fun heq => ha (heq ▸ List.mem_cons_self)
          simp [strcmp, he]
      | cons d b =>
          by_cases hsame : e = d
          · subst hsame
            have hna : 0#8 ∉ a := fun hmem => ha (List.mem_cons_of_mem _ hmem)
            have hnb : 0#8 ∉ b := fun hmem => hb (List.mem_cons_of_mem _ hmem)
            simp only [List.cons.injEq, true_and]
            -- the next two characters decide whether both strings end here
            cases a with
            | nil =>
                cases b with
                | nil => simp [strcmp]
                | cons d b =>
                    have hd : d ≠ 0#8 := fun heq => hnb (heq ▸ List.mem_cons_self)
                    exact (strcmp_same (.inr hd)).trans (ih hna hnb (.inr (List.cons_ne_nil d b)))
            | cons e' a =>
                have he : e' ≠ 0#8 := fun heq => hna (heq ▸ List.mem_cons_self)
                have hrest := ih hna hnb (.inl (List.cons_ne_nil e' a))
                cases b with
                | nil => exact (strcmp_same (.inl he)).trans hrest
                | cons d b => exact (strcmp_same (.inl he)).trans hrest
          · simp [strcmp, hsame]

/-- `strcmp` is right for all strings but two empty ones. -/
theorem strcmp_law_iff (ha : 0#8 ∉ a) (hb : 0#8 ∉ b) : StrcmpLaw a b ↔ a ≠ [] ∨ b ≠ [] := by
  constructor
  · intro h
    by_contra hempty
    rw [not_or, not_ne_iff, not_ne_iff] at hempty
    obtain ⟨rfl, rfl⟩ := hempty
    obtain ⟨r, hr, -⟩ := h [] []
    cases hr
  · intro h x y
    refine ⟨_, strcmp_some ha hb h, ?_⟩
    split <;> simp_all

/-! ### `strncmp` -/

/-- The loop over bytes that agree. -/
theorem strncmp_loop_same {k : Nat} {s t : List Byte} (hs : k ≤ s.length) (ht : k ≤ t.length)
    (h : s.take k = t.take k) : strncmpLoop k s t = some 0 := by
  induction k generalizing s t with
  | zero => rw [strncmpLoop]
  | succ k ih =>
      cases s with
      | nil => simp at hs
      | cons e s =>
          cases t with
          | nil => simp at ht
          | cons d t =>
              rw [List.take_succ_cons, List.take_succ_cons, List.cons.injEq] at h
              rw [strncmpLoop, if_neg (not_not_intro h.1)]
              exact ih (Nat.le_of_succ_le_succ hs) (Nat.le_of_succ_le_succ ht) h.2

/-- The loop over strings that agree in the characters that it compares. -/
theorem strncmp_loop_agree {k : Nat} (h : a.take k = b.take k) (hroom : a = b → k ≤ a.length + 1) :
    strncmpLoop k (a ++ 0#8 :: x) (b ++ 0#8 :: y) = some 0 := by
  by_cases hab : a = b
  · subst hab
    have hk := hroom rfl
    have hfront : ∀ z, (a ++ 0#8 :: z).take k = (a ++ [0#8]).take k := fun z => by
      rw [← List.singleton_append, ← List.append_assoc,
        List.take_append_of_le_length (by simpa using hk)]
    refine strncmp_loop_same (by simp; omega) (by simp; omega) ?_
    rw [hfront x, hfront y]
  · have hlengths := congrArg List.length h
    rw [List.length_take, List.length_take] at hlengths
    -- a string that ends before `k` would be the other one
    have hshort : k ≤ a.length ∧ k ≤ b.length := by
      by_contra hend
      refine hab ?_
      rwa [List.take_of_length_le (by omega), List.take_of_length_le (by omega)] at h
    refine strncmp_loop_same (by simp; omega) (by simp; omega) ?_
    rw [List.take_append_of_le_length hshort.1, List.take_append_of_le_length hshort.2, h]

/-- The loop over strings that differ in the characters that it compares. -/
theorem strncmp_loop_differ {k : Nat} (ha : 0#8 ∉ a) (hb : 0#8 ∉ b) (h : a.take k ≠ b.take k) :
    ∃ m, 0 < m ∧ m ≤ k ∧ strncmpLoop k (a ++ 0#8 :: x) (b ++ 0#8 :: y) = some m := by
  induction k generalizing a b with
  | zero => exact absurd rfl h
  | succ k ih =>
      have hstop : ∀ {e d : Byte} {s t : List Byte}, e ≠ d →
          ∃ m, 0 < m ∧ m ≤ k + 1 ∧ strncmpLoop (k + 1) (e :: s) (d :: t) = some m :=
        fun hne => ⟨k + 1, Nat.succ_pos k, Nat.le_refl _, by rw [strncmpLoop, if_pos hne]⟩
      cases a with
      | nil =>
          cases b with
          | nil => exact absurd rfl h
          | cons d b => exact hstop fun heq => hb (heq ▸ List.mem_cons_self)
      | cons e a =>
          cases b with
          | nil => exact hstop fun heq => ha (heq ▸ List.mem_cons_self)
          | cons d b =>
              by_cases hsame : e = d
              · subst hsame
                have hrest : a.take k ≠ b.take k := fun heq => h (by
                  rw [List.take_succ_cons, List.take_succ_cons, heq])
                obtain ⟨m, hm, hle, hloop⟩ := ih (fun hmem => ha (List.mem_cons_of_mem _ hmem))
                  (fun hmem => hb (List.mem_cons_of_mem _ hmem)) hrest
                refine ⟨m, hm, Nat.le_succ_of_le hle, ?_⟩
                rw [List.cons_append, List.cons_append, strncmpLoop,
                  if_neg (not_not_intro rfl), hloop]
              · exact hstop hsame

/-- The loop over one string whose object ends with it. -/
theorem strncmp_loop_behind {k : Nat} (h : a.length + 1 < k) :
    strncmpLoop k (a ++ [0#8]) (a ++ [0#8]) = none := by
  induction a generalizing k with
  | nil =>
      obtain ⟨k, rfl⟩ : ∃ m, k = m + 1 + 1 := ⟨k - 2, by simp at h; omega⟩
      rfl
  | cons e a ih =>
      obtain ⟨k, rfl⟩ : ∃ m, k = m + 1 := ⟨k - 1, by omega⟩
      rw [List.cons_append, strncmpLoop, if_neg (not_not_intro rfl)]
      exact ih (by simpa using h)

/-- A count that is not 0 as the result. -/
theorem count_ne_zero {m : Nat} (hm : 0 < m) (hlt : m < 2 ^ 32) :
    (BitVec.ofNat 32 m).toInt ≠ 0 := by
  intro hzero
  have hword : BitVec.ofNat 32 m = 0#32 := BitVec.toInt_inj.mp (hzero.trans BitVec.toInt_zero.symm)
  have hnat := congrArg BitVec.toNat hword
  rw [BitVec.toNat_ofNat, Nat.mod_eq_of_lt hlt] at hnat
  exact hm.ne' hnat

/-- `strncmp` is right when the count is not 0, the character that is left out does not matter, and
the count does not reach behind equal strings. -/
theorem strncmp_law_iff (ha : 0#8 ∉ a) (hb : 0#8 ∉ b) :
    StrncmpLaw a b n ↔ n ≠ 0#32 ∧
      (a.take (n.toNat - 1) = b.take (n.toNat - 1) → a.take n.toNat = b.take n.toNat) ∧
      (a = b → n.toNat ≤ a.length + 2) := by
  constructor
  · intro h
    have hzero : n ≠ 0#32 := by
      rintro rfl
      obtain ⟨r, hr, hiff⟩ := h [] []
      cases hr
      exact absurd (hiff.mpr rfl) (by decide)
    refine ⟨hzero, fun hshort => ?_, ?_⟩
    · by_cases hab : a = b
      · rw [hab]
      · obtain ⟨r, hr, hiff⟩ := h [] []
        rw [strncmp, if_neg hzero, strncmp_loop_agree hshort fun heq => absurd heq hab] at hr
        exact hiff.mp (Option.some.inj hr).symm
    · rintro rfl
      by_contra hlong
      obtain ⟨r, hr, -⟩ := h [] []
      rw [strncmp, if_neg hzero, strncmp_loop_behind (by omega)] at hr
      cases hr
  · rintro ⟨hzero, hlast, hequal⟩ x y
    rw [strncmp, if_neg hzero]
    by_cases hshort : a.take (n.toNat - 1) = b.take (n.toNat - 1)
    · have hroom : a = b → n.toNat - 1 ≤ a.length + 1 := fun hab => by
        have := hequal hab
        omega
      rw [strncmp_loop_agree hshort hroom]
      exact ⟨0, rfl, iff_of_true rfl (hlast hshort)⟩
    · obtain ⟨m, hm, hle, hloop⟩ := strncmp_loop_differ (x := x) (y := y) ha hb hshort
      have hn : n.toNat < 2 ^ 32 := n.isLt
      refine ⟨_, by rw [hloop, Option.map_some], ?_⟩
      refine iff_of_false (count_ne_zero hm (by omega)) fun heq => hshort ?_
      have hfront := congrArg (List.take (n.toNat - 1)) heq
      rwa [List.take_take, List.take_take, min_eq_left (Nat.sub_le _ _)] at hfront

/-! ### `memcmp` -/

/-- The bytes agree up to a null byte. -/
def AgreeToNull (p q : List Byte) (i : Nat) : Prop :=
  p[i]? = some 0#8 ∧ p.take (i + 1) = q.take (i + 1)

theorem agree_to_null_cons {e : Byte} {i : Nat} :
    AgreeToNull (e :: p) (e :: q) (i + 1) ↔ AgreeToNull p q i := by
  rw [AgreeToNull, AgreeToNull, List.getElem?_cons_succ, List.take_succ_cons, List.take_succ_cons,
    List.cons.injEq, eq_self, true_and]

/-- The loop ends with zero behind bytes that agree, and behind a null byte. -/
theorem memcmp_loop_zero {k : Nat} (hp : k ≤ p.length) (hq : k ≤ q.length) :
    ∃ r, memcmpLoop k p q = some r ∧
      (r = 0 ↔ p.take k = q.take k ∨ ∃ i < k, AgreeToNull p q i) := by
  induction k generalizing p q with
  | zero => exact ⟨0, rfl, iff_of_true rfl (.inl rfl)⟩
  | succ k ih =>
      cases p with
      | nil => simp at hp
      | cons e p =>
          cases q with
          | nil => simp at hq
          | cons d q =>
              rw [memcmpLoop]
              by_cases hsame : e = d
              · subst hsame
                by_cases hnull : e = 0#8
                · subst hnull
                  exact ⟨0, rfl, iff_of_true rfl (.inr ⟨0, Nat.succ_pos k, rfl, rfl⟩)⟩
                · obtain ⟨r, hr, hiff⟩ := ih (Nat.le_of_succ_le_succ hp)
                    (Nat.le_of_succ_le_succ hq)
                  refine ⟨r, by simpa [hnull] using hr, hiff.trans (or_congr ?_ ?_)⟩
                  · rw [List.take_succ_cons, List.take_succ_cons, List.cons.injEq, eq_self,
                      true_and]
                  · constructor
                    · rintro ⟨i, hi, hagree⟩
                      exact ⟨i + 1, Nat.succ_lt_succ hi, agree_to_null_cons.mpr hagree⟩
                    · rintro ⟨i, hi, hagree⟩
                      cases i with
                      | zero => exact absurd (Option.some.inj hagree.1) hnull
                      | succ i => exact ⟨i, Nat.lt_of_succ_lt_succ hi, agree_to_null_cons.mp hagree⟩
              · have hdiff : (e.toNat : Int) - d.toNat ≠ 0 := fun hzero => hsame
                  (BitVec.eq_of_toNat_eq (by omega))
                refine ⟨_, if_pos (.inl hdiff), iff_of_false hdiff ?_⟩
                rintro (htake | ⟨i, -, -, htake⟩)
                · rw [List.take_succ_cons, List.take_succ_cons, List.cons.injEq] at htake
                  exact hsame htake.1
                · rw [List.take_succ_cons, List.take_succ_cons, List.cons.injEq] at htake
                  exact hsame htake.1

/-- `memcmp` is right when bytes that agree up to a null byte agree to the end. -/
theorem memcmp_law_iff (hp : n.toNat ≤ p.length) (hq : n.toNat ≤ q.length) :
    MemcmpLaw p q n ↔ ∀ i < n.toNat, AgreeToNull p q i → p.take n.toNat = q.take n.toNat := by
  obtain ⟨r, hr, hzero⟩ := memcmp_loop_zero hp hq
  constructor
  · rintro ⟨r', hr', hiff⟩ i hi hagree
    obtain rfl : r = r' := Option.some.inj (hr.symm.trans hr')
    exact hiff.mp (hzero.mpr (.inr ⟨i, hi, hagree⟩))
  · intro h
    refine ⟨r, hr, hzero.trans ⟨?_, .inl⟩⟩
    rintro (htake | ⟨i, hi, hagree⟩)
    · exact htake
    · exact h i hi hagree

/-! ### `strrchr` -/

/-- The code finds the last match behind position 0. -/
theorem strrchr_loop_some {s : List Byte} {k pos : Nat} :
    strrchrLoop s c k = some pos ↔ (0 < pos ∧ pos ≤ k ∧ (s.getD pos 0#8).signExtend 32 = c) ∧
      ∀ i, pos < i → i ≤ k → (s.getD i 0#8).signExtend 32 ≠ c := by
  induction k with
  | zero =>
      rw [strrchrLoop]
      constructor
      · rintro ⟨⟩
      · rintro ⟨⟨hpos, hle, -⟩, -⟩
        omega
  | succ k ih =>
      rw [strrchrLoop]
      split
      · next hmatch =>
          constructor
          · intro h
            obtain rfl := Option.some.inj h
            exact ⟨⟨Nat.succ_pos k, Nat.le_refl _, hmatch⟩, fun i hlt hle => by omega⟩
          · rintro ⟨⟨-, hle, -⟩, hlast⟩
            by_contra hne
            have hlt : pos < k + 1 := by
              refine lt_of_le_of_ne hle fun heq => hne ?_
              rw [heq]
            exact hlast (k + 1) hlt (Nat.le_refl _) hmatch
      · next hmatch =>
          rw [ih]
          constructor
          · rintro ⟨⟨hpos, hle, hfound⟩, hlast⟩
            refine ⟨⟨hpos, Nat.le_succ_of_le hle, hfound⟩, fun i hlt hi => ?_⟩
            rcases Nat.lt_or_eq_of_le hi with hi | rfl
            · exact hlast i hlt (Nat.le_of_lt_succ hi)
            · exact hmatch
          · rintro ⟨⟨hpos, hle, hfound⟩, hlast⟩
            have hne : pos ≠ k + 1 := by
              rintro rfl
              exact hmatch hfound
            exact ⟨⟨hpos, by omega, hfound⟩, fun i hlt hi => hlast i hlt (Nat.le_succ_of_le hi)⟩

/-- A byte of the list has a last position. -/
theorem exists_last_position {s : List Byte} {e : Byte} {i : Nat} (h : s[i]? = some e) :
    ∃ pos, i ≤ pos ∧ IsLastPosition s e pos := by
  have hi : i < s.length := (List.getElem?_eq_some_iff.mp h).1
  refine ⟨Nat.findGreatest (fun j => s[j]? = some e) s.length,
    Nat.le_findGreatest hi.le h, ?_, fun j hlt hj => ?_⟩
  · exact Nat.findGreatest_spec (P := fun j => s[j]? = some e) hi.le h
  · have hlength : j < s.length := (List.getElem?_eq_some_iff.mp hj).1
    exact Nat.findGreatest_is_greatest hlt hlength.le hj

/-- A character of the string, or its null byte. -/
theorem string_get (a x : List Byte) {i : Nat} (hi : i ≤ a.length) :
    (a ++ [0#8])[i]? = some ((a ++ 0#8 :: x).getD i 0#8) := by
  rcases Nat.lt_or_eq_of_le hi with hlt | rfl
  · simp [List.getElem?_append_left hlt, hlt]
  · simp

theorem strlen_string (ha : 0#8 ∉ a) : strlen (a ++ 0#8 :: x) = a.length % 2 ^ 32 := by
  have hall : ∀ e ∈ a, (decide (e ≠ 0#8)) = true := fun e he =>
    decide_eq_true fun heq => ha (heq ▸ he)
  rw [strlen, cString, List.takeWhile_append_of_pos hall]
  simp

/-- `strrchr` is right when the last position of the character is not 0 and below the length as an
unsigned number, and the character is the value of a `char`. -/
theorem strrchr_law_iff (ha : 0#8 ∉ a) :
    StrrchrLaw a c ↔ ∀ pos, IsLastPosition (a ++ [0#8]) (c.setWidth 8) pos →
      pos ≠ 0 ∧ pos ≤ a.length % 2 ^ 32 ∧ (c.setWidth 8).signExtend 32 = c := by
  have hlen : a.length % 2 ^ 32 ≤ a.length := Nat.mod_le _ _
  have hchar : ∀ {e : Byte}, e.signExtend 32 = c → e = c.setWidth 8 := by
    rintro e rfl
    apply BitVec.eq_of_getLsbD_eq
    intro i hi
    simp [hi, BitVec.getElem_signExtend, show i < 32 by omega]
  constructor
  · intro h pos hlast
    have hcode := (h [] pos).mpr hlast
    rw [strrchr, strlen_string ha] at hcode
    obtain ⟨⟨hpos, hle, hmatch⟩, -⟩ := strrchr_loop_some.mp hcode
    refine ⟨hpos.ne', hle, ?_⟩
    rwa [← hchar hmatch]
  · intro h x pos
    rw [strrchr, strlen_string ha, strrchr_loop_some]
    constructor
    · rintro ⟨⟨hpos, hle, hmatch⟩, hbehind⟩
      have hfound := string_get a x (hle.trans hlen)
      rw [hchar hmatch] at hfound
      obtain ⟨last, hge, hlast⟩ := exists_last_position hfound
      obtain ⟨-, hroom, hvalue⟩ := h last hlast
      rcases Nat.lt_or_eq_of_le hge with hlt | rfl
      · have hbyte := (string_get a x (hroom.trans hlen)).symm.trans hlast.1
        refine absurd ?_ (hbehind last hlt hroom)
        rw [Option.some.inj hbyte, hvalue]
      · exact hlast
    · intro hlast
      obtain ⟨hpos, hroom, hvalue⟩ := h pos hlast
      have hbyte := (string_get a x (hroom.trans hlen)).symm.trans hlast.1
      refine ⟨⟨Nat.pos_of_ne_zero hpos, hroom, by rw [Option.some.inj hbyte, hvalue]⟩,
        fun i hlt hle hmatch => hlast.2 i hlt ?_⟩
      rw [string_get a x (hle.trans hlen), hchar hmatch]

/-! ### The four functions -/

/-- When the comparison functions and `strrchr` are right. -/
theorem string_comparison_iff (ha : 0#8 ∉ a) (hb : 0#8 ∉ b) (hp : n.toNat ≤ p.length)
    (hq : n.toNat ≤ q.length) :
    (StrcmpLaw a b ↔ a ≠ [] ∨ b ≠ []) ∧
    (StrncmpLaw a b n ↔ n ≠ 0#32 ∧
      (a.take (n.toNat - 1) = b.take (n.toNat - 1) → a.take n.toNat = b.take n.toNat) ∧
      (a = b → n.toNat ≤ a.length + 2)) ∧
    (MemcmpLaw p q n ↔
      ∀ i < n.toNat, AgreeToNull p q i → p.take n.toNat = q.take n.toNat) ∧
    (StrrchrLaw a c ↔ ∀ pos, IsLastPosition (a ++ [0#8]) (c.setWidth 8) pos →
      pos ≠ 0 ∧ pos ≤ a.length % 2 ^ 32 ∧ (c.setWidth 8).signExtend 32 = c) :=
  ⟨strcmp_law_iff ha hb, strncmp_law_iff ha hb, memcmp_law_iff hp hq, strrchr_law_iff ha⟩

/-- `"ab"` and `"ac"`, whose first bytes are equal, and the last b of `"ab"`. -/
theorem string_comparison_iff_two :
    StrcmpLaw [0x61#8, 0x62#8] [0x61#8, 0x63#8] ∧
      StrncmpLaw [0x61#8, 0x62#8] [0x61#8, 0x63#8] 1#32 ∧
      MemcmpLaw [0x61#8, 0x62#8] [0x61#8, 0x63#8] 1#32 ∧
      StrrchrLaw [0x61#8, 0x62#8] 0x62#32 := by
  obtain ⟨hstrcmp, hstrncmp, hmemcmp, hstrrchr⟩ :=
    string_comparison_iff (a := [0x61#8, 0x62#8]) (b := [0x61#8, 0x63#8])
      (p := [0x61#8, 0x62#8]) (q := [0x61#8, 0x63#8]) (c := 0x62#32) (n := 1#32)
      (by decide) (by decide) (by decide) (by decide)
  refine ⟨hstrcmp.mpr (by decide), hstrncmp.mpr (by decide), hmemcmp.mpr fun i hi hagree => ?_,
    hstrrchr.mpr fun pos hlast => ?_⟩
  · obtain rfl : i = 0 := Nat.lt_one_iff.mp hi
    exact absurd hagree.1 (by decide)
  · have hpos : pos < 3 := (List.getElem?_eq_some_iff.mp hlast.1).1
    have hbyte := hlast.1
    interval_cases pos
    · exact absurd hbyte (by decide)
    · decide
    · exact absurd hbyte (by decide)

/-- Two empty strings are compared behind their null bytes; `strncmp` does not compare the last
character, `memcmp` not the byte behind a null byte, and `strrchr` not the first character. -/
theorem comparison_wrong :
    ¬ StrcmpLaw [] [] ∧ ¬ StrncmpLaw [0x61#8] [0x62#8] 1#32 ∧
      ¬ MemcmpLaw [0#8, 0x61#8] [0#8, 0x62#8] 2#32 ∧ ¬ StrrchrLaw [0x61#8] 0x61#32 := by
  refine ⟨fun h => ?_, fun h => ?_, fun h => ?_, fun h => ?_⟩
  · obtain ⟨r, hr, -⟩ := h [] []
    cases hr
  · obtain ⟨r, hr, hiff⟩ := h [] []
    cases hr
    exact absurd (hiff.mp rfl) (by decide)
  · obtain ⟨r, hr, hiff⟩ := h
    cases hr
    exact absurd (hiff.mp rfl) (by decide)
  · have hlast : IsLastPosition ([0x61#8] ++ [0#8]) ((0x61#32).setWidth 8) 0 := by
      refine ⟨rfl, fun i hi => ?_⟩
      match i, hi with
      | 1, _ => decide
      | i + 2, _ => exact nofun
    exact absurd ((h [] 0).mpr hlast) (by decide)

end Sirius.Stdio.User
