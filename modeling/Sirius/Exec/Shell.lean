import Sirius.Exec.Arguments

/-!
# From a command line to a program

`set_argv` cuts the words of a command line, `cmd_run` joins them with one space each, the kernel
splits the text of the message again, and `exectve_child` copies the words into the slots of the new
program. Each of the four loops keeps the words and their order.
-/

namespace Sirius.Exec

open Library Cfs Process

variable {line buffer page program : Bytes} {a i n v arg argv base argvPtr : Nat}
  {t w pwd : List Byte} {ws : List (List Byte)}

/-! ### Cutting the line -/

theorem word_end_eq (hw : ∀ c ∈ w, c ≠ 0#8 ∧ c ≠ space)
    (h : ∀ k (hk : k < w.length), line (a + k) = w[k])
    (hend : line (a + w.length) = 0#8 ∨ line (a + w.length) = space) (hn : w.length ≤ n) :
    wordEnd line n a = a + w.length := by
  induction w generalizing a n with
  | nil =>
      cases n with
      | zero => rfl
      | succ n =>
          rw [wordEnd, if_neg (fun hcond => hend.elim hcond.1 hcond.2)]
          rfl
  | cons c w ih =>
      rw [List.length_cons] at hn
      obtain ⟨n, rfl⟩ : ∃ k, n = k + 1 := ⟨n - 1, by omega⟩
      have hc : line a = c := h 0 (by simp)
      have hshift : ∀ k, a + 1 + k = a + (k + 1) := fun k => by omega
      rw [wordEnd, hc, if_pos (hw c List.mem_cons_self),
        ih (fun d hd => hw d (List.mem_cons_of_mem _ hd))
          (fun k hk => by rw [hshift]; exact h (k + 1) (by simp [hk]))
          (by rw [hshift]; exact hend) (by omega), hshift]
      rfl

theorem skip_spaces_eq {k : Nat} (h : ∀ j < k, line (a + j) = space) (hend : line (a + k) ≠ space)
    (hn : k ≤ n) : skipSpaces line n a = a + k := by
  induction k generalizing a n with
  | zero =>
      cases n with
      | zero => rfl
      | succ n =>
          rw [Nat.add_zero] at hend
          rw [skipSpaces, if_neg hend, Nat.add_zero]
  | succ k ih =>
      obtain ⟨n, rfl⟩ : ∃ m, n = m + 1 := ⟨n - 1, by omega⟩
      have hshift : ∀ j, a + 1 + j = a + (j + 1) := fun j => by omega
      have hfirst : line a = space := h 0 (by omega)
      rw [skipSpaces, if_pos hfirst, ih (fun j hj => by rw [hshift]; exact h (j + 1) (by omega))
        (by rw [hshift]; exact hend) (by omega), hshift]

/-- A word that was cut off by a null byte. -/
theorem cut_word {m : Bytes} (hline : HoldsString line a (w ++ t))
    (hsame : ∀ x < a + w.length, m x = line x) (hzero : m (a + w.length) = 0#8) :
    HoldsString m a w := by
  refine .of_bytes (fun k hk => ?_) hzero
  rw [hsame _ (by omega), hline.front hk]

/-- What `set_argv` does from word number `i` at `us` on: it puts pointers to the words `ws`, and
keeps the pointers and the bytes in front of them. -/
def SetsArgv (n i us : Nat) (argvPointer : Nat → Nat) (line : Bytes) (ws : List (List Byte)) :
    Prop :=
  ∃ argvPointer' line', setArgvLoop n i us argvPointer line =
      (i + ws.length, argvPointer', line') ∧
    (∀ j w, ws[j]? = some w → HoldsString line' (argvPointer' (i + j)) w) ∧
    (∀ j < i, argvPointer' j = argvPointer j) ∧ ∀ x < us, line' x = line x

/-- The last word. -/
theorem sets_argv_last {argvPointer : Nat → Nat} {line' : Bytes}
    (hloop : setArgvLoop n i a argvPointer line = (i + 1, Function.update argvPointer i a, line'))
    (hw : HoldsString line' a w) (hsame : ∀ x < a, line' x = line x) :
    SetsArgv n i a argvPointer line [w] := by
  refine ⟨_, line', hloop, fun j v hv => ?_, fun j hj => Function.update_of_ne (by omega) .., hsame⟩
  cases j with
  | zero =>
      obtain rfl := Option.some.inj hv
      rwa [Nat.add_zero, Function.update_self]
  | succ j => simp at hv

/-- `set_argv` puts pointers to the words of the line, up to `n` of them, and ends each with a null
byte. The induction is on the words that are left. -/
theorem set_argv_loop_spec (n : Nat) : ∀ (i us : Nat) (l : List (SpacedWord Byte))
    (argvPointer : Nat → Nat) (line : Bytes), WellSpaced space l → l ≠ [] →
    HoldsString line us (renderWords space l) → (∀ f ∈ l, 0#8 ∉ f.1) →
    (renderWords space l).length ≤ lineSize →
    SetsArgv n i us argvPointer line ((l.map Prod.fst).take n) := by
  induction n with
  | zero =>
      intro i us l argvPointer line _ _ _ _ _
      exact ⟨argvPointer, line, rfl, by simp, fun _ _ => rfl, fun _ _ => rfl⟩
  | succ n ih =>
      intro i us l argvPointer line hl hne hline hnull hlen
      obtain ⟨⟨w, g⟩, l, rfl⟩ := List.exists_cons_of_ne_nil hne
      obtain ⟨hletters, hw, hlast, hrest⟩ := hl
      have hnullw : 0#8 ∉ w := hnull (w, g) List.mem_cons_self
      rw [render_words_cons] at hline hlen
      rw [List.length_append, render, List.length_append, List.length_replicate] at hlen
      obtain ⟨hspaces, hbehind⟩ := string_spaces hline.behind
      have hstop := string_head_ne hbehind (render_words_head hrest)
      rw [List.map_cons, List.take_succ_cons]
      cases g with
      | zero =>
          -- the line ends behind the word
          obtain rfl := hlast rfl
          have hzero : line (us + w.length) = 0#8 := HoldsString.nil_iff.mp hbehind
          have hend : wordEnd line lineSize us = us + w.length :=
            word_end_eq (fun c hc => ⟨fun heq => hnullw (heq ▸ hc), fun heq => hw (heq ▸ hc)⟩)
              (fun k hk => hline.front hk) (.inl hzero) (by omega)
          rw [List.map_nil, List.take_nil]
          refine sets_argv_last ?_ (cut_word hline (fun _ _ => rfl) hzero) fun _ _ => rfl
          rw [setArgvLoop]
          simp only [hend, hzero, if_true]
      | succ g =>
          have hspace : line (us + w.length) = space := hspaces 0 (Nat.succ_pos g)
          have hletter : line (us + w.length) ≠ 0#8 := by
            rw [hspace]
            decide
          have hend : wordEnd line lineSize us = us + w.length :=
            word_end_eq (fun c hc => ⟨fun heq => hnullw (heq ▸ hc), fun heq => hw (heq ▸ hc)⟩)
              (fun k hk => hline.front hk) (.inr hspace) (by omega)
          obtain ⟨cut, hcutDef⟩ : ∃ cut, cut = Function.update line (us + w.length) 0#8 := ⟨_, rfl⟩
          have hcut : ∀ x, x ≠ us + w.length → cut x = line x := fun x hx => by
            rw [hcutDef, Function.update_of_ne hx]
          have hcutWord : HoldsString cut us w := by
            refine cut_word hline (fun x hx => hcut x (by omega)) ?_
            rw [hcutDef, Function.update_self]
          have hshift : ∀ j, us + w.length + 1 + j = us + w.length + (j + 1) := fun j => by omega
          have hskip : skipSpaces cut lineSize (us + w.length + 1) = us + w.length + (g + 1) := by
            have hgap : ∀ j < g, cut (us + w.length + 1 + j) = space := by
              intro j hj
              rw [hcut _ (by omega), hshift]
              exact hspaces (j + 1) (by omega)
            have hletter' : cut (us + w.length + 1 + g) ≠ space := by
              rwa [hcut _ (by omega), hshift]
            rw [skip_spaces_eq hgap hletter' (by omega), hshift]
          have hrestCut : HoldsString cut (us + w.length + (g + 1)) (renderWords space l) :=
            hbehind.congr fun k _ => hcut _ (by omega)
          by_cases hempty : l = []
          · -- only spaces are left
            have hzero : cut (us + w.length + (g + 1)) = 0#8 := by
              rw [hempty] at hrestCut
              exact HoldsString.nil_iff.mp hrestCut
            rw [hempty, List.map_nil, List.take_nil]
            refine sets_argv_last ?_ hcutWord fun x hx => hcut x (by omega)
            rw [setArgvLoop]
            simp only [hend, if_neg hletter, ← hcutDef, hskip, hzero, if_true]
          · have hmore : cut (us + w.length + (g + 1)) ≠ 0#8 := by
              obtain ⟨⟨v, g'⟩, l, rfl⟩ := List.exists_cons_of_ne_nil hempty
              obtain ⟨c, v, rfl⟩ := List.exists_cons_of_ne_nil hrest.1
              have hfirst := (HoldsString.cons_iff.mp hrestCut).1
              rw [hfirst]
              exact fun heq => hnull _ (List.mem_cons_of_mem _ List.mem_cons_self)
                (heq ▸ List.mem_cons_self)
            obtain ⟨argvPointer', line', hloop, hwords, hpointers, hfront⟩ := ih (i + 1)
              (us + w.length + (g + 1)) l (Function.update argvPointer i us) cut hrest hempty
              hrestCut (fun f hf => hnull f (List.mem_cons_of_mem _ hf)) (by omega)
            refine ⟨argvPointer', line', ?_, fun j v hv => ?_, fun j hj => ?_, fun x hx => ?_⟩
            · rw [setArgvLoop]
              simp only [hend, if_neg hletter, ← hcutDef, hskip, if_neg hmore, hloop,
                List.length_cons]
              rw [Nat.add_right_comm, Nat.add_assoc]
            · cases j with
              | zero =>
                  obtain rfl := Option.some.inj hv
                  rw [Nat.add_zero, hpointers i (Nat.lt_succ_self i), Function.update_self]
                  exact hcutWord.congr fun k hk => hfront _ (by omega)
              | succ j =>
                  rw [show i + (j + 1) = i + 1 + j by omega]
                  exact hwords j v (by simpa using hv)
            · rw [hpointers j (by omega), Function.update_of_ne (by omega)]
            · rw [hfront x (by omega), hcut x (by omega)]

/-! ### Joining the words -/

/-- The joining loop writes every word with a space behind it. A null byte behind the last space
makes a string of it. -/
theorem join_loop_spec {pointers : Nat → Nat} (hnull : ∀ w ∈ ws, 0#8 ∉ w ∧ w.length < lineSize)
    (hwords : ∀ j w, ws[j]? = some w → HoldsString line (pointers (i + j)) w) (v : Nat)
    (buffer : Bytes) :
    ∃ buffer', joinLoop line pointers ws.length i v buffer = (v + textLength ws, buffer') ∧
      HoldsString (Function.update buffer' (v + textLength ws) 0#8) v (ws.flatMap (· ++ [space])) ∧
      ∀ x < v, buffer' x = buffer x := by
  induction ws generalizing i v buffer with
  | nil =>
      refine ⟨buffer, rfl, HoldsString.nil_iff.mpr ?_, fun _ _ => rfl⟩
      exact Function.update_self ..
  | cons w ws ih =>
      obtain ⟨hw, hlen⟩ := hnull w List.mem_cons_self
      have hfirst : cString line lineSize (pointers i) = w := c_string_eq (hwords 0 w rfl) hw hlen
      obtain ⟨buffer', hloop, htext, hfront⟩ := ih
        (fun u hu => hnull u (List.mem_cons_of_mem _ hu)) (i := i + 1)
        (fun j u hu => by rw [show i + 1 + j = i + (j + 1) by omega]; exact hwords (j + 1) u hu)
        (v + w.length + 1) (Function.update (strcpy buffer v w) (v + w.length) space)
      have hlength : v + w.length + 1 + textLength ws = v + textLength (w :: ws) := by
        rw [textLength, textLength, List.map_cons, List.sum_cons]
        omega
      rw [hlength] at hloop htext
      refine ⟨buffer', ?_, ?_, fun x hx => ?_⟩
      · rw [List.length_cons, joinLoop]
        simp only [hfirst, hloop]
      · have hkept : ∀ x < v + w.length + 1, Function.update buffer' (v + textLength (w :: ws)) 0#8 x =
            Function.update (strcpy buffer v w) (v + w.length) space x := by
          intro x hx
          rw [Function.update_of_ne (by omega), hfront x hx]
        rw [List.flatMap_cons, List.append_assoc]
        refine HoldsString.append (fun k hk => ?_) (HoldsString.cons_iff.mpr ⟨?_, htext⟩)
        · rw [hkept _ (by omega), Function.update_of_ne (by omega), (strcpy_holds buffer v w).byte hk]
        · rw [hkept _ (by omega), Function.update_self]
      · rw [hfront x (by omega), Function.update_of_ne (by omega), strcpy_outside (.inl hx)]

/-- The text that `cmd_run` sends. -/
theorem run_message_eq {pointers : Nat → Nat} (hne : ws ≠ []) (hws : ValidWords ws)
    (hfit : textLength ws ≤ joinSize)
    (hwords : ∀ j w, ws[j]? = some w → HoldsString line (pointers j) w) (pwd : List Byte)
    (buffer : Bytes) (appMemory : Nat) :
    runMessage ws.length pointers line pwd buffer appMemory =
      execMessage appMemory pwd (renderWords space (joined ws)) := by
  obtain ⟨buffer', hloop, htext, -⟩ := join_loop_spec (i := 0)
    (fun w hw => ⟨(hws w hw).2.2.1, (hws w hw).2.2.2.trans_lt (by decide)⟩)
    (fun j w hw => by rw [Nat.zero_add]; exact hwords j w hw) 0 buffer
  have hlength := joined_text_length hne
  rw [Nat.zero_add] at hloop htext
  rw [← joined_text_space hne] at htext
  -- the null byte replaces the last space
  have hcut : HoldsString (Function.update buffer' (textLength ws - 1) 0#8) 0
      (renderWords space (joined ws)) := by
    refine cut_word htext (fun x hx => ?_) ?_
    · rw [Function.update_of_ne (by omega), Function.update_of_ne (by omega)]
    · rw [Nat.zero_add, ← hlength, Nat.add_sub_cancel, Function.update_self]
  rw [runMessage, hloop]
  simp only []
  rw [c_string_eq hcut (joined_text_null hws) (by omega)]

/-! ### Copying into the program -/

/-- The table of the arguments, with a slot for each of them. -/
theorem arg_loop_spec (arg base n i : Nat) (program : Bytes)
    (hroom : base + (i + n) * appArgLen ≤ 2 ^ 64) :
    (∀ j < n, readLong (argLoop arg base n i program) (arg + 8 * (i + j)) =
      base + (i + j) * appArgLen) ∧
    ∀ x < arg + 8 * i, argLoop arg base n i program x = program x := by
  induction n generalizing i program with
  | zero => exact ⟨fun j hj => absurd hj (Nat.not_lt_zero j), fun _ _ => rfl⟩
  | succ n ih =>
      rw [show i + (n + 1) = i + 1 + n by omega] at hroom
      obtain ⟨htable, hfront⟩ := ih (i + 1) (writeLong program (arg + 8 * i) (base + i * appArgLen))
        hroom
      rw [argLoop]
      refine ⟨fun j hj => ?_, fun x hx => ?_⟩
      · cases j with
        | zero =>
            have hbound : base + i * appArgLen < 2 ^ 64 := by
              rw [Nat.add_mul, Nat.add_mul] at hroom
              unfold appArgLen at hroom ⊢
              omega
            simp only [Nat.add_zero]
            rw [read_long_congr fun k hk => hfront _ (by omega), read_write_long_same hbound]
        | succ j =>
            rw [show i + (j + 1) = i + 1 + j by omega]
            exact htable j (by omega)
      · rw [hfront x (by omega), write_long_outside (by omega)]

/-- The copied arguments, each in its slot. -/
theorem argument_loop_spec (arg base : Nat) (program : Bytes)
    (hnull : ∀ w ∈ ws, 0#8 ∉ w ∧ w.length < appArgLen)
    (htable : ∀ j < ws.length, readLong program (arg + 8 * (i + j)) = base + (i + j) * appArgLen)
    (habove : arg + 8 * (i + ws.length) ≤ base)
    (hwords : ∀ j w, ws[j]? = some w → HoldsString page (readLong page (argv + 8 * (i + j))) w) :
    (∀ j w, ws[j]? = some w → HoldsString (argumentLoop arg argv page ws.length i program)
      (base + (i + j) * appArgLen) w) ∧
    ∀ x < base + i * appArgLen, argumentLoop arg argv page ws.length i program x = program x := by
  induction ws generalizing i program with
  | nil => exact ⟨fun j w hw => by simp at hw, fun _ _ => rfl⟩
  | cons w ws ih =>
      obtain ⟨hw, hlen⟩ := hnull w List.mem_cons_self
      have hshift : ∀ j, i + 1 + j = i + (j + 1) := fun j => by omega
      have hslot : readLong program (arg + 8 * i) = base + i * appArgLen :=
        htable 0 (Nat.succ_pos _)
      have hword : cString page lineSize (readLong page (argv + 8 * i)) = w :=
        c_string_eq (hwords 0 w rfl) hw (by unfold appArgLen at hlen; unfold lineSize; omega)
      have hnext : base + (i + 1) * appArgLen = base + i * appArgLen + appArgLen := by
        rw [Nat.add_mul, Nat.one_mul, Nat.add_assoc]
      rw [List.length_cons] at habove htable
      obtain ⟨hstrings, hfront⟩ := ih (i := i + 1) (strcpy program (base + i * appArgLen) w)
        (fun u hu => hnull u (List.mem_cons_of_mem _ hu))
        (fun j hj => by
          rw [read_long_congr fun k hk => strcpy_outside (.inl (by omega)), hshift]
          exact htable (j + 1) (by omega))
        (by omega)
        (fun j u hu => by rw [hshift]; exact hwords (j + 1) u hu)
      rw [List.length_cons, argumentLoop, hslot, hword]
      refine ⟨fun j u hu => ?_, fun x hx => ?_⟩
      · cases j with
        | zero =>
            obtain rfl := Option.some.inj hu
            simp only [Nat.add_zero]
            refine (strcpy_holds program (base + i * appArgLen) w).congr fun k hk => ?_
            exact hfront _ (by omega)
        | succ j =>
            rw [← hshift j]
            exact hstrings j u hu
      · have hbefore : x < base + (i + 1) * appArgLen := by omega
        rw [hfront x hbefore, strcpy_outside (.inl hx)]

/-- The memory of a program that starts with the arguments `ws` in the directory `pwd`: `arg` points
to the arguments, and each lies in a slot of its own. -/
structure Delivered (program : Bytes) (argvPtr : Nat) (ws : List (List Byte)) (pwd : List Byte) :
    Prop where
  directory : HoldsString program argvPtr pwd
  pointer : ∀ j < ws.length,
    readLong program (argvPtr + 0x1000 + 8 * j) = argvPtr + 0x2000 + j * appArgLen
  argument : ∀ j w, ws[j]? = some w →
    HoldsString program (readLong program (argvPtr + 0x1000 + 8 * j)) w

/-- `exectve_child` delivers the strings at `argv`. -/
theorem put_arguments_delivers (program : Bytes) (hpwd : pwd.length < 0x1000)
    (hcount : ws.length ≤ appArgCount)
    (hnull : ∀ w ∈ ws, 0#8 ∉ w ∧ w.length < appArgLen) (hstored : HoldsArgv page argv ws)
    (hroom : argvPtr + 0x2000 + appArgCount * appArgLen ≤ 2 ^ 64) :
    Delivered (putArguments argvPtr ws.length (some argv) pwd page program) argvPtr ws pwd := by
  obtain ⟨htable, -⟩ := arg_loop_spec (argvPtr + 0x1000) (argvPtr + 0x2000) appArgCount 0 program
    (by rwa [Nat.zero_add])
  have hdirectory := strcpy_holds
    (argLoop (argvPtr + 0x1000) (argvPtr + 0x2000) appArgCount 0 program) argvPtr pwd
  obtain ⟨hstrings, hfront⟩ := argument_loop_spec (i := 0) (argvPtr + 0x1000) (argvPtr + 0x2000)
    (strcpy (argLoop (argvPtr + 0x1000) (argvPtr + 0x2000) appArgCount 0 program) argvPtr pwd) hnull
    (fun j hj => by
      rw [read_long_congr fun k hk => strcpy_outside (.inr (by omega))]
      exact htable j (by omega))
    (by unfold appArgCount at hcount; omega) hstored.string
  have hpointer : ∀ j < ws.length, readLong (putArguments argvPtr ws.length (some argv) pwd page
      program) (argvPtr + 0x1000 + 8 * j) = argvPtr + 0x2000 + j * appArgLen := by
    intro j hj
    have hentry := htable j (by omega)
    rw [Nat.zero_add] at hentry
    rw [← hentry, putArguments]
    refine read_long_congr fun k hk => ?_
    unfold appArgCount at hcount
    rw [hfront _ (by omega), strcpy_outside (.inr (by omega))]
  refine ⟨hdirectory.congr fun k hk => hfront _ (by omega), hpointer, fun j w hw => ?_⟩
  have hj : j < ws.length := (List.getElem?_eq_some_iff.mp hw).1
  have hstring := hstrings j w hw
  rw [Nat.zero_add] at hstring
  rwa [hpointer j hj]

/-! ### The whole way -/

/-- The arguments of a child lie far below the end of the address space. -/
theorem child_argv_ptr_lt (phdr : ProgramHeader) :
    phdr.childArgvPtr + 0x2000 + appArgCount * appArgLen ≤ 2 ^ 64 := by
  have hupper : phdr.physize < 2 ^ 31 := BitVec.toInt_lt
  have hlower : -2 ^ 31 ≤ phdr.physize := BitVec.le_toInt _
  unfold ProgramHeader.childArgvPtr appStakSize appArgSize appArgCount appArgLen
  omega

/-- `set_argv` finds the first 32 words of a line that starts with a letter. -/
theorem set_argv_spec {c : Byte} (hline : HoldsString line 0 (c :: t)) (hnull : 0#8 ∉ c :: t)
    (hc : c ≠ space) (hlen : (c :: t).length < lineSize) :
    ∃ pointers line', setArgv line = (((words space (c :: t)).take 32).length, pointers, line') ∧
      ∀ j w, ((words space (c :: t)).take 32)[j]? = some w → HoldsString line' (pointers j) w := by
  obtain ⟨hfirst, hne⟩ := layout_letter (s := t) hc
  have htext := render_layout space (c :: t)
  have hnulls := words_null hnull
  rw [hfirst, render_zero] at htext
  rw [words_layout] at hnulls ⊢
  obtain ⟨pointers, line', hloop, hwords, -⟩ := set_argv_loop_spec countArgv 0 0
    (layout space (c :: t)).2 (fun _ => 0) line (well_spaced_layout space (c :: t)) hne
    (htext.symm ▸ hline) (fun f hf => hnulls _ (List.mem_map_of_mem hf))
    (by rw [htext]; exact hlen.le)
  rw [Nat.zero_add] at hloop
  refine ⟨pointers, line', hloop, fun j w hw => ?_⟩
  rw [← Nat.zero_add j]
  exact hwords j w hw

end Sirius.Exec
