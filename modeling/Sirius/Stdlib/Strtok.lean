import Sirius.Library.Runs
import Sirius.Library.StoredText
import Sirius.Library.Strings
import Sirius.Library.Tokens

/-!
# strtok of the user library

`strtok_r` and `strtok` of `string/strtok.c`, on strings in memory. `strtok_tokens` is about a
whole series of calls on one string: the pointers returned are those of the tokens of the string in
their order, then NULL for good, and the only bytes that change are delimiters that become null
bytes. Loops are cut off after `fuel` rounds.
-/

namespace Sirius.Stdlib

open Sirius.Library

/-- The inner loop `for ( spanp = (char *)delim; (sc = *spanp++) != 0; )`: whether `c` is one of
the delimiters. -/
def spanned (m : Bytes) (c : Byte) : (fuel spanp : Nat) → Option Bool
  | 0, _ => none
  | n + 1, spanp =>
    if m spanp = 0#8 then some false
    else if c = m spanp then some true else spanned m c n (spanp + 1)

/-- The loop at `cont`: the first character that is no delimiter, and the pointer behind it. -/
def skipDelims (m : Bytes) (delim : Nat) : (fuel s : Nat) → Option (Byte × Nat)
  | 0, _ => none
  | n + 1, s => match spanned m (m s) n delim with
    | none => none
    | some true => skipDelims m delim n (s + 1)
    | some false => some (m s, s + 1)

/-- The inner loop `do { … } while( sc != 0 )`: whether `c` is a delimiter or the null byte. -/
def ends (m : Bytes) (c : Byte) : (fuel spanp : Nat) → Option Bool
  | 0, _ => none
  | n + 1, spanp =>
    if m spanp = c then some true
    else if m spanp = 0#8 then some false else ends m c n (spanp + 1)

/-- The loop that looks for the end of the token: `*last` and the memory. -/
def scanToken (m : Bytes) (delim : Nat) : (fuel s : Nat) → Option (Nat × Bytes)
  | 0, _ => none
  | n + 1, s => match ends m (m s) n delim with
    | none => none
    | some true => some (if m s = 0#8 then (0, m) else (s + 1, Function.update m s 0#8))
    | some false => scanToken m delim n (s + 1)

/-- What `strtok_r` leaves: the pointer it returns, `*last` and the memory. -/
structure Token where
  tok : Nat
  last : Nat
  m : Bytes

/-- `strtok_r(s, delim, &last)`; NULL is address 0. -/
def strtokR (fuel s delim last : Nat) (m : Bytes) : Option Token :=
  let s := if s = 0 then last else s
  if s = 0 then some ⟨0, last, m⟩
  else match skipDelims m delim fuel s with
    | none => none
    | some (c, s) =>
      if c = 0#8 then some ⟨0, 0, m⟩
      else (scanToken m delim fuel s).map fun r => ⟨s - 1, r.1, r.2⟩

/-- `n` calls of `strtok`, the first with the string `s` and the others with NULL: the pointers
returned, the static variable `last` and the memory. -/
def strtokCalls (fuel delim : Nat) : (n s last : Nat) → Bytes → Option (List Nat × Nat × Bytes)
  | 0, _, last, m => some ([], last, m)
  | n + 1, s, last, m => match strtokR fuel s delim last m with
    | none => none
    | some r => (strtokCalls fuel delim n 0 r.last r.m).map fun t => (r.tok :: t.1, t.2)

/-- The character is one of the delimiters. -/
def isDelim (delims : List Byte) (c : Byte) : Bool := delims.contains c

/-! ### The loops -/

variable {m : Bytes} {a s delim : Nat} {c : Byte} {delims lead tok text : List Byte}

theorem spanned_returns (h : HoldsString m delim delims) (hdelims : 0#8 ∉ delims) (c : Byte) :
    Returns (fun n => spanned m c n delim) (isDelim delims c) := by
  induction delims generalizing delim with
  | nil =>
      refine Returns.of_add 1 fun n => ?_
      rw [spanned, if_pos (HoldsString.nil_iff.mp h)]
      rfl
  | cons d delims ih =>
      obtain ⟨hd, hrest⟩ := HoldsString.cons_iff.mp h
      have hne : ¬ m delim = 0#8 := fun hzero => hdelims (by rw [← hd, hzero]; exact List.mem_cons_self)
      by_cases hc : c = d
      · refine Returns.of_add 1 fun n => ?_
        rw [spanned, if_neg hne, hd, if_pos hc, hc]
        simp [isDelim]
      · have htail : isDelim (d :: delims) c = isDelim delims c := by
          simp [isDelim, hc]
        rw [htail]
        refine (ih hrest fun hmem => hdelims (List.mem_cons_of_mem d hmem)).succ fun n => ?_
        rw [spanned, if_neg hne, hd, if_neg hc]

theorem ends_returns (h : HoldsString m delim delims) (hdelims : 0#8 ∉ delims) (c : Byte) :
    Returns (fun n => ends m c n delim) (isDelim delims c || c == 0#8) := by
  induction delims generalizing delim with
  | nil =>
      have hzero := HoldsString.nil_iff.mp h
      refine Returns.of_add 1 fun n => ?_
      rw [ends, hzero]
      by_cases hc : c = 0#8
      · rw [if_pos hc.symm, hc]
        rfl
      · rw [if_neg (Ne.symm hc), if_pos rfl]
        simp [isDelim, hc]
  | cons d delims ih =>
      obtain ⟨hd, hrest⟩ := HoldsString.cons_iff.mp h
      have hne : ¬ d = 0#8 := fun hzero => hdelims (hzero ▸ List.mem_cons_self)
      by_cases hc : c = d
      · refine Returns.of_add 1 fun n => ?_
        rw [ends, hd, if_pos hc.symm, hc]
        simp [isDelim]
      · have htail : isDelim (d :: delims) c = isDelim delims c := by
          simp [isDelim, hc]
        rw [htail]
        refine (ih hrest fun hmem => hdelims (List.mem_cons_of_mem d hmem)).succ fun n => ?_
        rw [ends, hd, if_neg (Ne.symm hc), if_neg hne]

/-- The delimiter string of a call. -/
structure HoldsDelims (m : Bytes) (delim : Nat) (delims : List Byte) : Prop where
  held : HoldsString m delim delims
  no_null : 0#8 ∉ delims

theorem HoldsDelims.null_no_delim (h : HoldsDelims m delim delims) : isDelim delims 0#8 = false := by
  rw [isDelim, List.contains_eq_mem, decide_eq_false_iff_not]
  exact h.no_null

theorem skip_delims_returns (hd : HoldsDelims m delim delims)
    (hlead : AllDelims (isDelim delims) lead) (h : ∀ i (hi : i < lead.length), m (s + i) = lead[i])
    (hstop : isDelim delims (m (s + lead.length)) = false) :
    Returns (fun n => skipDelims m delim n s) (m (s + lead.length), s + lead.length + 1) := by
  induction lead generalizing s with
  | nil =>
      rw [List.length_nil, Nat.add_zero] at hstop ⊢
      refine (spanned_returns hd.held hd.no_null (m s)).step_after (Returns.pure _) fun n hn => ?_
      rw [skipDelims, hn, hstop]
  | cons c lead ih =>
      have hc : isDelim delims (m s) = true := by
        have hfirst := h 0 (Nat.succ_pos _)
        rw [Nat.add_zero] at hfirst
        rw [hfirst]
        exact hlead _ List.mem_cons_self
      have hshift : s + (c :: lead).length = s + 1 + lead.length := by
        rw [List.length_cons]
        omega
      rw [hshift] at hstop ⊢
      refine (spanned_returns hd.held hd.no_null (m s)).step_after (ih ?_ ?_ hstop) fun n hn => ?_
      · exact fun x hx => hlead x (List.mem_cons_of_mem c hx)
      · intro i hi
        rw [Nat.add_assoc, Nat.add_comm 1 i]
        exact h (i + 1) (Nat.succ_lt_succ hi)
      · rw [skipDelims, hn, hc]

theorem scan_token_returns (hd : HoldsDelims m delim delims)
    (htok : NoDelims (isDelim delims) tok) (hnull : 0#8 ∉ tok)
    (h : ∀ i (hi : i < tok.length), m (s + i) = tok[i])
    (hstop : (isDelim delims (m (s + tok.length)) || m (s + tok.length) == 0#8) = true) :
    Returns (fun n => scanToken m delim n s)
      (if m (s + tok.length) = 0#8 then (0, m)
        else (s + tok.length + 1, Function.update m (s + tok.length) 0#8)) := by
  induction tok generalizing s with
  | nil =>
      rw [List.length_nil, Nat.add_zero] at hstop ⊢
      refine (ends_returns hd.held hd.no_null (m s)).step_after (Returns.pure _) fun n hn => ?_
      rw [scanToken, hn, hstop]
  | cons c tok ih =>
      have hfirst : m s = c := by
        have hfirst := h 0 (Nat.succ_pos _)
        rwa [Nat.add_zero] at hfirst
      have hgoes : (isDelim delims (m s) || m s == 0#8) = false := by
        rw [hfirst, htok c List.mem_cons_self, Bool.false_or, beq_eq_false_iff_ne]
        rintro rfl
        exact hnull List.mem_cons_self
      have hshift : s + (c :: tok).length = s + 1 + tok.length := by
        rw [List.length_cons]
        omega
      rw [hshift] at hstop ⊢
      refine (ends_returns hd.held hd.no_null (m s)).step_after (ih ?_ ?_ ?_ hstop) fun n hn => ?_
      · exact fun x hx => htok x (List.mem_cons_of_mem c hx)
      · exact fun hmem => hnull (List.mem_cons_of_mem c hmem)
      · intro i hi
        rw [Nat.add_assoc, Nat.add_comm 1 i]
        exact h (i + 1) (Nat.succ_lt_succ hi)
      · rw [scanToken, hn, hgoes]

/-! ### One call -/

/-- The string that a call looks at: the argument, or `last` when that is NULL. -/
def lookedAt (s last : Nat) : Nat := if s = 0 then last else s

theorem strtok_null {last : Nat} (h : lookedAt s last = 0) :
    Returns (fun n => strtokR n s delim last m) ⟨0, last, m⟩ := by
  refine ⟨0, fun n _ => ?_⟩
  unfold lookedAt at h
  simp only [strtokR, h, if_true]

/-- Nothing but delimiters is left. -/
theorem strtok_none {last : Nat} (ha : lookedAt s last = a) (hpos : a ≠ 0)
    (hd : HoldsDelims m delim delims) (h : HoldsString m a lead)
    (hlead : AllDelims (isDelim delims) lead) :
    Returns (fun n => strtokR n s delim last m) ⟨0, 0, m⟩ := by
  have hend := h.terminated
  have hskip := skip_delims_returns hd hlead (fun i hi => h.byte hi)
    (by rw [hend]; exact hd.null_no_delim)
  refine hskip.bind (Returns.pure _) fun n hn => ?_
  unfold lookedAt at ha
  simp only [strtokR, ha, if_neg hpos, hn, hend, if_true]

/-- The token that a call finds. -/
theorem strtok_found {last : Nat} {rest : List Byte} (ha : lookedAt s last = a) (hpos : a ≠ 0)
    (hd : HoldsDelims m delim delims) (h : HoldsString m a (lead ++ tok ++ rest))
    (hlead : AllDelims (isDelim delims) lead) (htok : NoDelims (isDelim delims) tok)
    (hne : tok ≠ []) (hnull : 0#8 ∉ tok)
    (hrest : (isDelim delims (m (a + lead.length + tok.length)) ||
      m (a + lead.length + tok.length) == 0#8) = true) :
    Returns (fun n => strtokR n s delim last m) (
      let e := a + lead.length + tok.length
      if m e = 0#8 then ⟨a + lead.length, 0, m⟩
      else ⟨a + lead.length, e + 1, Function.update m e 0#8⟩) := by
  rw [List.append_assoc] at h
  have hbytes : ∀ i (hi : i < tok.length), m (a + lead.length + i) = tok[i] := fun i hi =>
    h.behind.front hi
  obtain ⟨c, tok, rfl⟩ := List.exists_cons_of_ne_nil hne
  have hfirst : m (a + lead.length) = c := hbytes 0 (Nat.succ_pos _)
  have hc : ¬ c = 0#8 := by
    rintro rfl
    exact hnull List.mem_cons_self
  have hshift : a + lead.length + (c :: tok).length = a + lead.length + 1 + tok.length := by
    rw [List.length_cons]
    omega
  rw [hshift] at hrest ⊢
  have hskip := skip_delims_returns hd hlead (fun i hi => h.front hi)
    (by rw [hfirst]; exact htok c List.mem_cons_self)
  have hscan := scan_token_returns hd (s := a + lead.length + 1)
    (fun x hx => htok x (List.mem_cons_of_mem c hx)) (fun hmem => hnull (List.mem_cons_of_mem c hmem))
    (fun i hi => by
      rw [Nat.add_assoc, Nat.add_comm 1 i]
      exact hbytes (i + 1) (Nat.succ_lt_succ hi)) hrest
  have hresult := hscan.map fun r => Token.mk (a + lead.length) r.1 r.2
  have hcall := hskip.bind hresult (h := fun n => strtokR n s delim last m) fun n hn => by
    unfold lookedAt at ha
    simp only [strtokR, ha, if_neg hpos, hn, hfirst, if_neg hc, Nat.add_sub_cancel]
  dsimp only
  by_cases hend : m (a + lead.length + 1 + tok.length) = 0#8
  · rw [if_pos hend] at hcall ⊢
    exact hcall
  · rw [if_neg hend] at hcall ⊢
    exact hcall

/-! ### A series of calls -/

/-- What a pointer that `strtok` returned stands for: the token, or NULL when there is none. -/
def Answers (m : Bytes) (tok : Nat) (token : Option (List Byte)) : Prop :=
  match token with
  | some t => tok ≠ 0 ∧ HoldsString m tok t
  | none => tok = 0

/-- Every byte is as before or was a delimiter between `a` and `b` and is now null. -/
def CutsDelims (delims : List Byte) (a b : Nat) (m m' : Bytes) : Prop :=
  ∀ x, m' x = m x ∨ a ≤ x ∧ x < b ∧ isDelim delims (m x) = true ∧ m' x = 0#8

/-- The pointers, one for each call, are those of the tokens in their order. -/
def GivesTokens (m : Bytes) (toks : List Nat) (ts : List (List Byte)) : Prop :=
  ∀ i < toks.length, Answers m (toks.getD i 0) ts[i]?

theorem gives_tokens_cons {ts : List (List Byte)} {t : List Byte} {tok : Nat} {toks : List Nat}
    (htok : Answers m tok (some t)) (h : GivesTokens m toks ts) :
    GivesTokens m (tok :: toks) (t :: ts) := by
  intro i hi
  cases i with
  | zero => exact htok
  | succ i => exact h i (Nat.lt_of_succ_lt_succ hi)

theorem gives_tokens_null (m : Bytes) (n : Nat) : GivesTokens m (List.replicate n 0) [] := by
  intro i hi
  rw [List.length_replicate] at hi
  show (List.replicate n 0).getD i 0 = 0
  rw [List.getD_replicate _ hi]

theorem CutsDelims.refl (delims : List Byte) (a b : Nat) (m : Bytes) : CutsDelims delims a b m m :=
  fun _ => Or.inl rfl

/-- The first call and the others. -/
theorem strtok_calls_succ {n last : Nat} {r : Token} {t : List Nat × Nat × Bytes}
    (hcall : Returns (fun fuel => strtokR fuel s delim last m) r)
    (hrest : Returns (fun fuel => strtokCalls fuel delim n 0 r.last r.m) t) :
    Returns (fun fuel => strtokCalls fuel delim (n + 1) s last m) (r.tok :: t.1, t.2) :=
  hcall.bind (hrest.map fun t => (r.tok :: t.1, t.2)) fun fuel hfuel => by
    rw [strtokCalls, hfuel]

/-- Calls after the last token return NULL and change nothing. -/
theorem strtok_calls_null (delim n : Nat) (m : Bytes) :
    Returns (fun fuel => strtokCalls fuel delim n 0 0 m) (List.replicate n 0, 0, m) := by
  induction n with
  | zero => exact Returns.pure _
  | succ n ih => exact strtok_calls_succ (strtok_null rfl) ih

theorem strtok_calls_tokens (hd : HoldsDelims m delim delims) (n : Nat) {last : Nat}
    (ha : lookedAt s last = a) (hpos : a ≠ 0) (h : HoldsString m a text) (hnull : 0#8 ∉ text)
    (hfar : delim + delims.length < a ∨ a + text.length < delim) :
    ∃ toks last' m', Returns (fun fuel => strtokCalls fuel delim n s last m) (toks, last', m') ∧
      toks.length = n ∧ GivesTokens m' toks (tokens (isDelim delims) text) ∧
      CutsDelims delims a (a + text.length) m m' := by
  induction n generalizing s a last text m with
  | zero => exact ⟨[], last, m, Returns.pure _, rfl, fun i hi => absurd hi (Nat.not_lt_zero i),
      CutsDelims.refl _ _ _ _⟩
  | succ n ih =>
      cases first_token (isDelim delims) text with
      | none hlead =>
          have hcalls := strtok_calls_succ (strtok_none ha hpos hd h hlead) (strtok_calls_null delim n m)
          refine ⟨_, _, _, hcalls, by simp, ?_, CutsDelims.refl _ _ _ _⟩
          rw [tokens_none hlead]
          exact gives_tokens_null m (n + 1)
      | @last lead tok hlead htok hne =>
          have hend := h.terminated
          rw [List.length_append, ← Nat.add_assoc] at hend
          have hwhole : HoldsString m a (lead ++ tok ++ []) := by rwa [List.append_nil]
          have hcall := strtok_found ha hpos hd hwhole hlead htok hne
            (fun hmem => hnull (List.mem_append_right lead hmem)) (by rw [hend]; simp)
          dsimp only at hcall
          rw [if_pos hend] at hcall
          have hcalls := strtok_calls_succ hcall (strtok_calls_null delim n m)
          refine ⟨_, _, _, hcalls, by simp, ?_, CutsDelims.refl _ _ _ _⟩
          rw [tokens_last hlead htok hne]
          have htoknz : a + lead.length ≠ 0 := by omega
          exact gives_tokens_cons ⟨htoknz, h.behind⟩ (gives_tokens_null m n)
      | @more lead tok rest d hlead htok hne hdelim =>
          have htext : (lead ++ tok ++ d :: rest).length = lead.length + tok.length + 1 + rest.length := by
            simp only [List.length_append, List.length_cons]
            omega
          have hbehind := h.behind
          rw [List.length_append, ← Nat.add_assoc] at hbehind
          obtain ⟨hd₁, hrest⟩ := HoldsString.cons_iff.mp hbehind
          have hd₀ : ¬ d = 0#8 := by
            rintro rfl
            exact hnull (List.mem_append_right _ List.mem_cons_self)
          have hcall := strtok_found ha hpos hd h hlead htok hne (fun hmem => hnull
            (List.mem_append_left _ (List.mem_append_right lead hmem))) (by rw [hd₁, hdelim]; rfl)
          dsimp only at hcall
          rw [hd₁, if_neg hd₀] at hcall
          -- the later calls see the rest of the string
          generalize he : a + lead.length + tok.length = e at hcall hd₁ hrest
          have hd' : HoldsDelims (Function.update m e 0#8) delim delims :=
            ⟨hd.held.congr fun i hi => Function.update_of_ne (by omega) _ _, hd.no_null⟩
          have hrest' : HoldsString (Function.update m e 0#8) (e + 1) rest :=
            hrest.congr fun i hi => Function.update_of_ne (by omega) _ _
          obtain ⟨toks, last', m', hcalls, hlength, hgives, hcuts⟩ := ih hd'
            (show lookedAt 0 (e + 1) = e + 1 from rfl) (Nat.succ_ne_zero e) hrest'
            (fun hmem => hnull (List.mem_append_right _ (List.mem_cons_of_mem d hmem))) (by omega)
          have hfront : ∀ x < e + 1, m' x = Function.update m e 0#8 x := fun x hx => by
            rcases hcuts x with hsame | ⟨hle, -⟩
            · exact hsame
            · omega
          refine ⟨(a + lead.length) :: toks, last', m', strtok_calls_succ hcall hcalls,
            by rw [List.length_cons, hlength], ?_, ?_⟩
          · rw [tokens_more hlead htok hne hdelim]
            refine gives_tokens_cons ⟨by omega, ?_⟩ hgives
            · have htoken : HoldsString m (a + lead.length) (tok ++ d :: rest) := by
                rw [List.append_assoc] at h
                exact h.behind
              have hcut := htoken.cut
              rw [he] at hcut
              exact hcut.congr fun i hi => hfront _ (by omega)
          · intro x
            rcases hcuts x with hsame | ⟨hle, hlt, hx, hzero⟩
            · by_cases hxe : x = e
              · refine Or.inr ⟨by omega, by omega, ?_, ?_⟩
                · rw [hxe, hd₁]
                  exact hdelim
                · rw [hsame, hxe, Function.update_self]
              · exact Or.inl (hsame.trans (Function.update_of_ne hxe _ _))
            · rw [Function.update_of_ne (by omega)] at hx
              exact Or.inr ⟨by omega, by omega, hx, hzero⟩

/-- The delimiters `". "` at 0x10 and the string `"1.23"` at 0x100. -/
def dottedMemory : Bytes :=
  storeText (storeText (fun _ => 0#8) 0x10 [0x2e#8, 0x20#8]) 0x100 [0x31#8, 0x2e#8, 0x32#8, 0x33#8]

end Sirius.Stdlib
