import Sirius.Cfs.Rename

/-!
# The working directory

The shell changes the string of the working directory in its 4096 bytes: `setpath` puts a name
behind it, with a slash between the two, and `upath` cuts its last component off. `Directories` is
the form that the string has behind its drive.
-/

namespace Sirius.Cfs.User

open Library Stdio

/-! ### The functions -/

/-- `strlen`; a string ends before the address space does. -/
def strlen (m : Bytes) (a : Nat) : Nat := (cString m (2 ^ 64) a).length

/-- The check of `setpath`, on two lengths of type `int`. -/
def tooLong (len1 len2 : Nat) : Bool := (0x1000#32).slt (BitVec.ofNat 32 len1 + BitVec.ofNat 32 len2)

/-- What `setpath` copies: a slash at the front of the name is skipped. -/
def skipSlash (name : List Byte) : List Byte :=
  if name.headD 0#8 = slash then name.tail else name

/-- `setpath` on the string at `pwd`. -/
def setpath (m : Bytes) (pwd : Nat) (name : List Byte) : Int × Bytes :=
  let len1 := strlen m pwd
  if tooLong len1 name.length then (-1, m)
  else
    let dst := skipSlash name
    let p := pwd + len1 - 1
    let (m, p) := if m p ≠ slash then (Function.update m (p + 1) slash, p + 2) else (m, p + 1)
    let m := strcpy m p dst
    let p := p + dst.length - 1
    let (m, p) := if m p = slash then (Function.update m p 0#8, p) else (m, p + 1)
    (0, Function.update m p 0#8)

/-- The loop of `upath`, from `p` down: null bytes up to the last slash. -/
def cutLoop (m : Bytes) : (p : Nat) → Bytes × Nat
  | 0 => (m, 0)
  | p + 1 => if m (p + 1) ≠ slash then cutLoop (Function.update m (p + 1) 0#8) p else (m, p + 1)

/-- `upath` on the string at `pwd`. -/
def upath (m : Bytes) (pwd : Nat) : Bytes :=
  if strlen m pwd < 3 then m
  else
    let (m, p) := cutLoop m (pwd + strlen m pwd)
    if 2 < strlen m pwd then Function.update m p 0#8 else m

/-! ### Normal form -/

/-- One component of a path. -/
structure Component (d : List Byte) : Prop where
  nonempty : d ≠ []
  noSlash : slash ∉ d
  noNull : 0#8 ∉ d

/-- `"/d1/.../dk"` -/
inductive Directories : List Byte → Prop
  | nil : Directories []
  | cons {d t : List Byte} (hd : Component d) (ht : Directories t) : Directories (slash :: (d ++ t))

/-- `"A:"` or `"A:/d1/.../dk"`, for any drive. -/
def NormalPath (s : List Byte) : Prop :=
  ∃ drive t, s = drive :: colon :: t ∧ drive ≠ 0#8 ∧ drive ≠ slash ∧ Directories t

/-- What `setpath` puts behind the string: the name, with one slash in front of it and none at its
end. -/
def appended (name : List Byte) : List Byte := dropSlash (slash :: skipSlash name)

variable {m : Bytes} {pwd : Nat} {s t u d c name : List Byte}

theorem drop_slash_append (s t : List Byte) (ht : t ≠ []) :
    dropSlash (s ++ t) = s ++ dropSlash t := by
  unfold dropSlash
  rw [List.getLast?_append_of_ne_nil _ ht]
  split
  case isTrue => exact List.dropLast_append_of_ne_nil ht
  case isFalse => rfl

namespace Directories

/-- They start with a slash. -/
theorem front (h : Directories t) : t = [] ∨ ∃ u, t = slash :: u := by
  cases h with
  | nil => exact .inl rfl
  | cons => exact .inr ⟨_, rfl⟩

theorem no_null (h : Directories t) : 0#8 ∉ t := by
  induction h with
  | nil => exact List.not_mem_nil
  | cons hd _ ih =>
      rw [List.mem_cons, List.mem_append, not_or, not_or]
      exact ⟨by decide, hd.noNull, ih⟩

/-- There is no slash at their end. -/
theorem last_ne_slash (h : Directories t) : t.getLast? ≠ some slash := by
  induction h with
  | nil => simp
  | @cons d t hd _ ih =>
      rw [← List.cons_append]
      cases t with
      | nil =>
          rw [List.append_nil, List.getLast?_cons_of_ne_nil hd.nonempty]
          exact fun hlast => hd.noSlash (List.mem_of_getLast? hlast)
      | cons b t => rwa [List.getLast?_append_of_ne_nil _ (List.cons_ne_nil b t)]

/-- The first component is the part before the next slash. -/
theorem first_component (hd : Component d) (hu : u = [] ∨ ∃ v, u = slash :: v) :
    (d ++ u).takeWhile (· ≠ slash) = d := by
  have hall : ∀ b ∈ d, decide (b ≠ slash) = true := by
    intro b hb
    simpa using fun heq : b = slash => hd.noSlash (heq ▸ hb)
  rw [List.takeWhile_append_of_pos hall]
  obtain rfl | ⟨v, rfl⟩ := hu
  · simp
  · simp

theorem cons_iff (hd : Component d) (hu : u = [] ∨ ∃ v, u = slash :: v) :
    Directories (slash :: (d ++ u)) ↔ Directories u := by
  refine ⟨fun h => ?_, .cons hd⟩
  generalize hs : slash :: (d ++ u) = s at h
  cases h with
  | nil => cases hs
  | @cons d' t hd' ht =>
      have hrest : d ++ u = d' ++ t := (List.cons.inj hs).2
      have hfirst : d = d' := by
        rw [← first_component hd hu, hrest, first_component hd' ht.front]
      rw [hfirst] at hrest
      rwa [List.append_cancel_left hrest]

/-- Behind some directories stand directories. -/
theorem append_iff (h : Directories t) (hu : u = [] ∨ ∃ v, u = slash :: v) :
    Directories (t ++ u) ↔ Directories u := by
  induction h with
  | nil => rfl
  | @cons d t hd ht ih =>
      have hfront : t ++ u = [] ∨ ∃ v, t ++ u = slash :: v := by
        obtain rfl | ⟨v, rfl⟩ := ht.front
        · exact hu
        · exact .inr ⟨v ++ u, rfl⟩
      rw [List.cons_append, List.append_assoc, cons_iff hd hfront, ih]

end Directories

/-! ### The name -/

/-- Behind a component, two slashes in a row are in the rest. -/
theorem doubled_append_iff (hd : slash ∉ d) :
    [slash, slash] <:+: d ++ u ↔ [slash, slash] <:+: u := by
  induction d with
  | nil => rfl
  | cons b d ih =>
      rw [List.mem_cons, not_or] at hd
      rw [List.cons_append, List.infix_cons_iff, ih hd.2, List.cons_prefix_cons]
      exact or_iff_right fun h => hd.1 h.1

theorem doubled_skip_slash (name : List Byte) :
    [slash, slash] <:+: slash :: skipSlash name ↔ [slash, slash] <:+: name := by
  unfold skipSlash
  split
  case isTrue hslash =>
    cases name with
    | nil => cases hslash
    | cons b name =>
        have hb : b = slash := hslash
        rw [hb, List.tail_cons]
  case isFalse hne =>
    rw [List.infix_cons_iff, List.cons_prefix_cons]
    refine or_iff_right fun h => hne ?_
    obtain ⟨v, hv⟩ := h.2
    rw [← hv]
    rfl

theorem drop_slash_front (t : List Byte) :
    dropSlash (slash :: t) = [] ∨ ∃ v, dropSlash (slash :: t) = slash :: v := by
  cases t with
  | nil => exact .inl rfl
  | cons b t => exact .inr ⟨_, drop_slash_append [slash] _ (List.cons_ne_nil b t)⟩

/-- A component is not empty. -/
theorem Directories.slash_ne_front (h : Directories (slash :: t))
    (ht : t = [] ∨ ∃ v, t = slash :: v) : False := by
  generalize hs : slash :: t = s at h
  cases h with
  | nil => cases hs
  | @cons d u hd _ =>
      obtain ⟨b, d, rfl⟩ := List.exists_cons_of_ne_nil hd.nonempty
      have hrest : t = b :: (d ++ u) := (List.cons.inj hs).2
      obtain rfl | ⟨v, rfl⟩ := ht
      · cases hrest
      · exact hd.noSlash ((List.cons.inj hrest).1 ▸ List.mem_cons_self)

/-- A name becomes directories when there are no two slashes in a row. The induction is on its
components. -/
theorem directories_iff (hnull : 0#8 ∉ t) :
    Directories (dropSlash (slash :: t)) ↔ ¬ [slash, slash] <:+: slash :: t := by
  induction hn : t.length using Nat.strong_induction_on generalizing t with
  | _ n ih =>
    have hinner : [slash, slash] <:+: slash :: t ↔ [slash] <+: t ∨ [slash, slash] <:+: t := by
      rw [List.infix_cons_iff, List.cons_prefix_cons, and_iff_right rfl]
    by_cases hslash : slash ∈ t
    · obtain ⟨d, v, rfl, hd⟩ := List.eq_append_cons_of_mem hslash
      rw [List.mem_append, not_or] at hnull
      cases d with
      | nil =>
          -- the first component is empty
          have hdrop : dropSlash (slash :: slash :: v) = slash :: dropSlash (slash :: v) :=
            drop_slash_append [slash] _ (List.cons_ne_nil _ _)
          refine iff_of_false (fun h => ?_) (not_not_intro ⟨[], v, rfl⟩)
          exact Directories.slash_ne_front (hdrop ▸ h) (drop_slash_front v)
      | cons b d =>
          have hcomp : Component (b :: d) := ⟨List.cons_ne_nil b d, hd, hnull.1⟩
          have hdrop : dropSlash (slash :: (b :: d ++ slash :: v)) =
              slash :: (b :: d ++ dropSlash (slash :: v)) :=
            drop_slash_append (slash :: b :: d) _ (List.cons_ne_nil _ _)
          have hlength : v.length < n := by
            rw [← hn, List.length_append, List.length_cons, List.length_cons]
            omega
          have hne : ¬ [slash] <+: b :: d ++ slash :: v := by
            rw [List.cons_append, List.cons_prefix_cons]
            exact fun h => hd (h.1 ▸ List.mem_cons_self)
          rw [hdrop, Directories.cons_iff hcomp (drop_slash_front v),
            ih v.length hlength (fun hmem => hnull.2 (List.mem_cons_of_mem _ hmem)) rfl, hinner,
            or_iff_right hne, doubled_append_iff hd]
    · -- one component, or none
      have hnone : ¬ [slash, slash] <:+: slash :: t := by
        rw [hinner, not_or]
        exact ⟨fun h => hslash (h.subset List.mem_cons_self),
          fun h => hslash (h.subset List.mem_cons_self)⟩
      refine iff_of_true ?_ hnone
      cases t with
      | nil => exact .nil
      | cons b t =>
          have hcomp : Component (b :: t) := ⟨List.cons_ne_nil b t, hslash, hnull⟩
          have hdrop : dropSlash (slash :: b :: t) = slash :: (b :: t ++ []) := by
            rw [List.append_nil]
            refine if_neg fun hlast => hslash ?_
            rw [List.getLast?_cons_of_ne_nil (List.cons_ne_nil b t)] at hlast
            exact List.mem_of_getLast? hlast
          rw [hdrop]
          exact .cons hcomp .nil

/-! ### `setpath` -/

theorem NormalPath.length (h : NormalPath s) : 2 ≤ s.length := by
  obtain ⟨drive, t, rfl, -⟩ := h
  simp

theorem NormalPath.no_null (h : NormalPath s) : 0#8 ∉ s := by
  obtain ⟨drive, t, rfl, hdrive, -, ht⟩ := h
  rw [List.mem_cons, List.mem_cons, not_or, not_or]
  exact ⟨hdrive.symm, by decide, ht.no_null⟩

theorem NormalPath.last_ne_slash (h : NormalPath s) : s.getLast? ≠ some slash := by
  obtain ⟨drive, t, rfl, -, -, ht⟩ := h
  cases t with
  | nil =>
      show some colon ≠ some slash
      decide
  | cons b t =>
      rw [List.getLast?_cons_cons, List.getLast?_cons_cons]
      exact ht.last_ne_slash

/-- What may follow a string in normal form. -/
theorem NormalPath.append_iff (h : NormalPath s) (hu : u = [] ∨ ∃ v, u = slash :: v) :
    NormalPath (s ++ u) ↔ Directories u := by
  obtain ⟨drive, t, rfl, hdrive, hslash, ht⟩ := h
  rw [← ht.append_iff hu]
  constructor
  · rintro ⟨drive', t', heq, -, -, ht'⟩
    have hrest : t ++ u = t' := by simpa using (List.cons.inj heq).2
    rwa [hrest]
  · exact fun ht' => ⟨drive, t ++ u, rfl, hdrive, hslash, ht'⟩

/-- `strlen` of a string that fits into the address space. -/
theorem strlen_eq (h : HoldsString m pwd s) (hs : 0#8 ∉ s) (hlength : s.length < 2 ^ 64) :
    strlen m pwd = s.length := by
  rw [strlen, c_string_eq h hs hlength]

/-- The last byte of a string. -/
theorem holds_string_last (h : HoldsString m pwd s) (hs : s ≠ []) :
    m (pwd + s.length - 1) = slash ↔ s.getLast? = some slash := by
  have hpos : 0 < s.length := List.length_pos_of_ne_nil hs
  rw [Nat.add_sub_assoc hpos, h.byte (by omega), List.getLast?_eq_some_getLast hs,
    List.getLast_eq_getElem, Option.some_inj]

/-- The string with a slash and the copied name behind it, before `setpath` cuts the slash at the
end. -/
theorem setpath_copied (h : HoldsString m pwd s) (t : List Byte) :
    HoldsString (strcpy (Function.update m (pwd + s.length) slash) (pwd + s.length + 1) t) pwd
      (s ++ slash :: t) := by
  refine .append (fun k hk => ?_) (HoldsString.cons_iff.mpr ⟨?_, strcpy_holds _ _ t⟩)
  · rw [strcpy_outside (by omega), Function.update_of_ne (by omega), h.byte hk]
  · rw [strcpy_outside (by omega), Function.update_self]

/-- A name that `setpath` takes stands behind the string afterwards. -/
theorem setpath_accepts (h : HoldsString m pwd s) (hs : NormalPath s) (hlength : s.length ≤ 0xFFF)
    (hlong : tooLong s.length name.length = false) :
    (setpath m pwd name).1 = 0 ∧ HoldsString (setpath m pwd name).2 pwd (s ++ appended name) := by
  have htwo := hs.length
  have hne : m (pwd + s.length - 1) ≠ slash := fun heq =>
    hs.last_ne_slash ((holds_string_last h (List.ne_nil_of_length_pos (by omega))).mp heq)
  have hwhole := setpath_copied h (skipSlash name)
  have hlast := holds_string_last hwhole (List.append_ne_nil_of_right_ne_nil _ (List.cons_ne_nil _ _))
  have hend : pwd + (s ++ slash :: skipSlash name).length - 1 =
      pwd + s.length + 1 + (skipSlash name).length - 1 := by
    rw [List.length_append, List.length_cons]
    omega
  rw [hend] at hlast
  have happended : s ++ appended name = dropSlash (s ++ slash :: skipSlash name) :=
    (drop_slash_append s _ (List.cons_ne_nil _ _)).symm
  have hfirst : pwd + s.length - 1 + 1 = pwd + s.length := by omega
  have hsecond : pwd + s.length - 1 + 2 = pwd + s.length + 1 := by omega
  rw [setpath, strlen_eq h hs.no_null (by omega)]
  simp only [hlong, Bool.false_eq_true, if_false, if_pos hne, hfirst, hsecond, happended]
  by_cases hslash : (s ++ slash :: skipSlash name).getLast? = some slash
  · -- the slash at the end is cut
    obtain ⟨v, hv⟩ := List.getLast?_eq_some_iff.mp hslash
    rw [hv] at hwhole
    have hcut := hwhole.cut
    have hlen : pwd + v.length = pwd + s.length + 1 + (skipSlash name).length - 1 := by
      rw [← hend, hv, List.length_append, List.length_singleton]
      omega
    rw [hlen] at hcut
    rw [if_pos (hlast.mpr hslash), dropSlash, if_pos hslash, hv, List.dropLast_concat]
    refine ⟨trivial, ?_⟩
    simpa only [Function.update_idem] using hcut
  · have hcut := (show HoldsString _ pwd ((s ++ slash :: skipSlash name) ++ []) by
      rwa [List.append_nil]).cut
    have hlen : pwd + (s ++ slash :: skipSlash name).length =
        pwd + s.length + 1 + (skipSlash name).length - 1 + 1 := by
      rw [← hend]
      have hpos : 0 < (s ++ slash :: skipSlash name).length := by simp
      omega
    rw [hlen] at hcut
    rw [if_neg (mt hlast.mp hslash), dropSlash, if_neg hslash]
    exact ⟨trivial, hcut⟩

/-! ### `upath` -/

/-- The loop of `upath` clears the bytes behind the last slash. -/
theorem cut_loop (k : Nat) : ∀ (m : Bytes) {p : Nat}, (∀ j < k, m (p + (j + 1)) ≠ slash) →
    m p = slash →
    cutLoop m (p + k) = (fun i => if p < i ∧ i ≤ p + k then 0#8 else m i, p) := by
  induction k with
  | zero =>
      intro m p _ hp
      have hsame : (fun i => if p < i ∧ i ≤ p + 0 then 0#8 else m i) = m :=
        funext fun i => if_neg (by omega)
      rw [hsame]
      cases p with
      | zero => rfl
      | succ p => rw [Nat.add_zero, cutLoop, if_neg (not_not_intro hp)]
  | succ k ih =>
      intro m p hne hp
      have hlast : m (p + k + 1) ≠ slash := hne k (Nat.lt_succ_self k)
      rw [← Nat.add_assoc, cutLoop, if_pos hlast, ih]
      · congr 1
        funext i
        by_cases hi : i = p + k + 1
        · rw [hi, if_neg (by omega), Function.update_self, if_pos (by omega)]
        · rw [Function.update_of_ne hi]
          exact if_congr (by omega) rfl rfl
      · intro j hj
        rw [Function.update_of_ne (by omega)]
        exact hne j (by omega)
      · rwa [Function.update_of_ne (by omega)]

/-- `upath` cuts the last component off. -/
theorem upath_cuts (h : HoldsString m pwd (s ++ slash :: c)) (hs : NormalPath s) (hc : Component c)
    (hlength : s.length + c.length + 1 < 2 ^ 64) : HoldsString (upath m pwd) pwd s := by
  have htwo := hs.length
  have hnull : 0#8 ∉ s ++ slash :: c := by
    rw [List.mem_append, List.mem_cons, not_or, not_or]
    exact ⟨hs.no_null, by decide, hc.noNull⟩
  have hlen : (s ++ slash :: c).length = s.length + c.length + 1 := by
    rw [List.length_append, List.length_cons, Nat.add_assoc]
  have hpos := List.length_pos_of_ne_nil hc.nonempty
  have hslash : m (pwd + s.length) = slash := (HoldsString.cons_iff.mp h.behind).1
  have hcomp := (HoldsString.cons_iff.mp h.behind).2
  have hne : ∀ j < c.length + 1, m (pwd + s.length + (j + 1)) ≠ slash := by
    intro j hj heq
    rw [Nat.add_comm j 1, ← Nat.add_assoc] at heq
    obtain hj | rfl := Nat.lt_succ_iff_lt_or_eq.mp hj
    · rw [hcomp.byte hj] at heq
      exact hc.noSlash (heq ▸ List.getElem_mem hj)
    · rw [hcomp.terminated] at heq
      exact absurd heq (by decide)
  -- the loop stops at the slash in front of the component
  have hloop := cut_loop (c.length + 1) m hne hslash
  have hstart : pwd + s.length + (c.length + 1) = pwd + (s ++ slash :: c).length := by
    rw [hlen]
    omega
  rw [hstart] at hloop
  set kept : Bytes := fun i =>
    if pwd + s.length < i ∧ i ≤ pwd + (s ++ slash :: c).length then 0#8 else m i
  have hkept : HoldsString kept pwd (s ++ [slash]) := by
    refine .append (fun k hk => ?_) (HoldsString.cons_iff.mpr ⟨?_, HoldsString.nil_iff.mpr ?_⟩)
    · exact (if_neg (by omega)).trans (h.front hk)
    · exact (if_neg (by omega)).trans hslash
    · exact if_pos (by omega)
  have hcutlen : strlen kept pwd = s.length + 1 := by
    rw [strlen_eq hkept (fun hmem => ?_) (by rw [List.length_append, List.length_singleton]; omega),
      List.length_append, List.length_singleton]
    rw [List.mem_append, List.mem_singleton] at hmem
    exact hmem.elim hs.no_null (by decide)
  rw [upath, strlen_eq h hnull (by omega), if_neg (by omega), hloop]
  simp only [hcutlen, if_pos (show 2 < s.length + 1 by omega)]
  exact hkept.cut

/-! ### The laws -/

/-- What `setpath` does to the string `s` at `pwd`: it fails and leaves it, or a string in normal form
is inside the 4096 bytes. -/
def SetsPath (m : Bytes) (pwd : Nat) (s name : List Byte) : Prop :=
  (setpath m pwd name).1 = -1 ∧ HoldsString (setpath m pwd name).2 pwd s ∨
    ∃ t, HoldsString (setpath m pwd name).2 pwd t ∧ NormalPath t ∧ t.length < 0x1000

/-- The laws of the working directory. -/
structure PathLaws (m : Bytes) (pwd : Nat) (s name : List Byte) : Prop where
  sets : SetsPath m pwd s name
  restores : Component name → (setpath m pwd name).1 = 0 →
    HoldsString (upath (setpath m pwd name).2 pwd) pwd s

theorem Component.appended (hc : Component c) : appended c = slash :: c := by
  obtain ⟨b, c, rfl⟩ := List.exists_cons_of_ne_nil hc.nonempty
  have hb : b ≠ slash := fun heq => hc.noSlash (heq ▸ List.mem_cons_self)
  rw [User.appended, skipSlash, List.headD_cons, if_neg hb, dropSlash, if_neg]
  rw [List.getLast?_cons_cons]
  exact fun hlast => hc.noSlash (List.mem_of_getLast? hlast)

/-- `setpath` fails before it writes. -/
theorem setpath_rejects (h : HoldsString m pwd s) (hs : NormalPath s) (hlength : s.length ≤ 0xFFF)
    (hlong : tooLong s.length name.length = true) : setpath m pwd name = (-1, m) := by
  rw [setpath, strlen_eq h hs.no_null (by omega)]
  simp only [hlong, if_true]

/-- A name that `setpath` takes has to leave the normal form, and the room for the null byte. -/
theorem sets_path_iff (h : HoldsString m pwd s) (hs : NormalPath s) (hlength : s.length ≤ 0xFFF)
    (hname : 0#8 ∉ name) (hlong : tooLong s.length name.length = false) :
    SetsPath m pwd s name ↔
      s.length + (appended name).length < 0x1000 ∧ ¬ [slash, slash] <:+: name := by
  obtain ⟨hret, hholds⟩ := setpath_accepts h hs hlength hlong
  have hskip : 0#8 ∉ skipSlash name := by
    unfold skipSlash
    split
    case isTrue => exact fun hmem => hname (List.mem_of_mem_tail hmem)
    case isFalse => exact hname
  have hform : NormalPath (s ++ appended name) ↔ ¬ [slash, slash] <:+: name := by
    rw [appended, hs.append_iff (drop_slash_front _), directories_iff hskip, doubled_skip_slash]
  rw [← hform, ← List.length_append]
  constructor
  · rintro (⟨hfail, -⟩ | ⟨t, ht, hnormal, hlt⟩)
    · rw [hret] at hfail
      exact absurd hfail (by decide)
    · have happended : 0#8 ∉ appended name :=
        not_mem_drop_slash (List.not_mem_cons_of_ne_of_not_mem (by decide) hskip)
      have heq : s ++ appended name = t :=
        hholds.unique ht (by simp [hs.no_null, happended]) hnormal.no_null
      exact heq ▸ ⟨hlt, hnormal⟩
  · exact fun ⟨hlt, hnormal⟩ => .inr ⟨_, hholds, hnormal, hlt⟩

/-- `upath` undoes `setpath` for one component. -/
theorem upath_setpath (h : HoldsString m pwd s) (hs : NormalPath s) (hlength : s.length ≤ 0xFFF)
    (hspace : c.length + 0x1001 ≤ 2 ^ 64) (hc : Component c) (hret : (setpath m pwd c).1 = 0) :
    HoldsString (upath (setpath m pwd c).2 pwd) pwd s := by
  have hlong : tooLong s.length c.length = false := by
    by_contra hlong
    rw [Bool.not_eq_false] at hlong
    rw [setpath_rejects h hs hlength hlong] at hret
    cases hret
  have hholds := (setpath_accepts h hs hlength hlong).2
  rw [hc.appended] at hholds
  exact upath_cuts hholds hs hc (by omega)

/-- The laws hold of a name that is refused, or that has no two slashes in a row and leaves room for
the slash in front of it and the null byte behind it. The check of `setpath` counts neither. The last
hypothesis says that the name is outside the 4096 bytes in one address space. -/
theorem path_laws_iff (h : HoldsString m pwd s) (hs : NormalPath s) (hlength : s.length ≤ 0xFFF)
    (hname : 0#8 ∉ name) (hspace : name.length + 0x1001 ≤ 2 ^ 64) :
    PathLaws m pwd s name ↔ tooLong s.length name.length = true ∨
      s.length + (appended name).length < 0x1000 ∧ ¬ [slash, slash] <:+: name := by
  have hlaws : PathLaws m pwd s name ↔ SetsPath m pwd s name :=
    ⟨PathLaws.sets, fun hsets => ⟨hsets, upath_setpath h hs hlength hspace⟩⟩
  rw [hlaws]
  cases hlong : tooLong s.length name.length with
  | true =>
      refine iff_of_true (.inl ?_) (.inl rfl)
      rw [setpath_rejects h hs hlength hlong]
      exact ⟨rfl, h⟩
  | false =>
      rw [sets_path_iff h hs hlength hname hlong]
      exact (or_iff_right Bool.false_ne_true).symm

/-- `"A:"` -/
theorem normal_path_root : NormalPath [0x41#8, colon] :=
  ⟨0x41#8, [], rfl, by decide, by decide, .nil⟩

theorem path_laws_iff_component :
    PathLaws (stringBytes [0x41#8, colon]) 0 [0x41#8, colon] [0x62#8] :=
  (path_laws_iff (fun i _ => by rw [Nat.zero_add]; rfl) normal_path_root (by decide) (by decide)
    (by decide)).mpr (.inr ⟨by decide, by decide⟩)

/-- In `"A:"`, a component of 4094 bytes makes a string of 4097 bytes. -/
theorem long_component_accepted :
    HoldsString (stringBytes [0x41#8, colon]) 0 [0x41#8, colon] ∧ NormalPath [0x41#8, colon] ∧
      ¬ PathLaws (stringBytes [0x41#8, colon]) 0 [0x41#8, colon] (List.replicate 0xFFE 0x61#8) := by
  have hholds : HoldsString (stringBytes [0x41#8, colon]) 0 [0x41#8, colon] := by
    intro i _
    rw [Nat.zero_add]
    rfl
  have hcomp : Component (List.replicate 0xFFE 0x61#8) :=
    ⟨List.cons_ne_nil _ _, fun hmem => absurd (List.eq_of_mem_replicate hmem) (by decide),
      fun hmem => absurd (List.eq_of_mem_replicate hmem) (by decide)⟩
  refine ⟨hholds, normal_path_root, fun hlaws => ?_⟩
  have hsets := (sets_path_iff hholds normal_path_root (by decide) hcomp.noNull
    (by rw [List.length_replicate]; decide)).mp hlaws.sets
  have hlt := hsets.1
  rw [hcomp.appended, List.length_cons (a := slash), List.length_replicate] at hlt
  exact absurd hlt (by decide)

end Sirius.Cfs.User
