import Sirius.Exec.CommandLine

/-!
# The arguments that reach a program

A text of words that fits the message goes through the kernel unchanged: `commun_switch` finds it
behind the directory, and `format_argv` finds its words. `exectve` of the user library builds such a
text for one argument only, because it copies every word to the start of its buffer.
-/

namespace Sirius.Exec

open Library Cfs Process

/-- The room that words take with a byte behind each of them. -/
def textLength (ws : List (List Byte)) : Nat := (ws.map fun w => w.length + 1).sum

/-- Words that a command line can have. -/
def ValidWords (ws : List (List Byte)) : Prop :=
  ∀ w ∈ ws, w ≠ [] ∧ space ∉ w ∧ 0#8 ∉ w ∧ w.length ≤ 255

instance (ws : List (List Byte)) : Decidable (ValidWords ws) :=
  inferInstanceAs (Decidable (∀ w ∈ ws, _))

/-- What the kernel gets out of the message: the arguments `ws` at `memory`, and the directory. -/
def Recovers (memory : Nat) (message tmp page : Bytes) (ws : List (List Byte)) (pwd : List Byte) :
    Prop :=
  let (argc, argv, page) := childArguments memory message tmp page
  argc = ws.length ∧ argv = some memory ∧ HoldsArgv page memory ws ∧ HoldsString message 8 pwd

variable {message tmp page line buffer program : Bytes} {a i n v memory appMemory : Nat}
  {t w pwd : List Byte} {ws : List (List Byte)}

/-! ### The text between the programs -/

/-- The words of a valid text, joined with one space each. -/
theorem joined_splits (hws : ValidWords ws) : Splits n (renderWords space (joined ws)) := by
  have hspaced : WellSpaced space (joined ws) :=
    well_spaced_joined fun w hw => ⟨(hws w hw).1, (hws w hw).2.1⟩
  rw [← render_zero, Splits, layout_render hspaced]
  refine ⟨fun _ => rfl, fun i f _ hf => ?_⟩
  obtain ⟨hmem, hgap⟩ := joined_gap (List.mem_of_getElem? hf)
  have hlen := (hws _ hmem).2.2.2
  omega

theorem joined_text_words (hws : ValidWords ws) :
    words space (renderWords space (joined ws)) = ws := by
  rw [← render_zero, words_render (well_spaced_joined fun w hw => ⟨(hws w hw).1, (hws w hw).2.1⟩),
    joined_words]

/-- The joined words with a space behind the last one, which is how the loops write them. -/
theorem joined_text_space (hne : ws ≠ []) :
    renderWords space (joined ws) ++ [space] = ws.flatMap (· ++ [space]) := by
  induction ws with
  | nil => exact absurd rfl hne
  | cons w ws ih =>
      by_cases hnil : ws = []
      · rw [hnil]
        simp [joined, render_nil]
      · rw [render_joined_cons hnil, List.flatMap_cons, ← ih hnil]
        simp

theorem joined_text_length (hne : ws ≠ []) :
    (renderWords space (joined ws)).length + 1 = textLength ws := by
  have hlength := congrArg List.length (joined_text_space hne)
  rw [List.length_append, List.length_singleton] at hlength
  rw [hlength, textLength, List.length_flatMap]
  simp

theorem joined_text_null (hws : ValidWords ws) : 0#8 ∉ renderWords space (joined ws) := by
  induction ws with
  | nil => exact List.not_mem_nil
  | cons w ws ih =>
      obtain ⟨-, -, hnull, -⟩ := hws w List.mem_cons_self
      have hrest := ih fun v hv => hws v (List.mem_cons_of_mem _ hv)
      by_cases hnil : ws = []
      · rw [hnil]
        simpa [joined, render_nil] using hnull
      · rw [render_joined_cons hnil, List.mem_append, List.mem_cons, not_or, not_or]
        exact ⟨hnull, by decide, hrest⟩

/-! ### The kernel's side -/

/-- The loop over the directory stops behind its null byte. -/
theorem option_loop_eq (h : HoldsString message a t) (hnull : 0#8 ∉ t) (hi : t.length < i) :
    optionLoop message i a = (i - t.length, a + (t.length + 1)) := by
  induction t generalizing a i with
  | nil =>
      obtain ⟨i, rfl⟩ : ∃ k, i = k + 1 := ⟨i - 1, by rw [List.length_nil] at hi; omega⟩
      rw [optionLoop, if_pos (HoldsString.nil_iff.mp h)]
      rfl
  | cons c t ih =>
      rw [List.length_cons] at hi
      obtain ⟨i, rfl⟩ : ∃ k, i = k + 1 := ⟨i - 1, by omega⟩
      obtain ⟨hc, hrest⟩ := HoldsString.cons_iff.mp h
      rw [List.mem_cons, not_or] at hnull
      rw [optionLoop, hc, if_neg (Ne.symm hnull.1), ih hrest hnull.2 (by omega)]
      simp only [List.length_cons, Prod.mk.injEq]
      omega

/-- The message holds the directory and the text. -/
theorem exec_message_holds (appMemory : Nat) (pwd t : List Byte) :
    HoldsString (execMessage appMemory pwd t) 8 pwd ∧
      HoldsString (execMessage appMemory pwd t) (8 + (pwd.length + 1)) t := by
  refine ⟨(strcpy_holds (writeLong (fun _ => 0#8) 0 appMemory) 8 pwd).congr fun i hi => ?_,
    strcpy_holds _ _ t⟩
  exact strcpy_outside (.inl (by omega))

/-- What the kernel gets out of a message with any text of short words. -/
theorem child_arguments_spec (tmp page : Bytes) (appMemory : Nat) (hpwd : 0#8 ∉ pwd)
    (hlen : pwd.length < 1000) (ht : 0#8 ∉ t)
    (hshort : ∀ w ∈ words space t, w.length ≤ 255) (hsplits : Splits 32 t)
    (hroom : memory + 8 * 32 + 256 * 32 ≤ 2 ^ 64) :
    Recovers memory (execMessage appMemory pwd t) tmp page ((words space t).take 32) pwd := by
  obtain ⟨hdir, htext⟩ := exec_message_holds appMemory pwd t
  obtain ⟨ws, hcount, hstored, -, hgood, -⟩ := format_argv_spec htext ht hshort hroom tmp page
  rw [hgood hsplits] at hcount hstored
  have hpos : ¬ 1000 - pwd.length ≤ 0 := by omega
  rw [Recovers, childArguments, option_loop_eq hdir hpwd hlen]
  simp only [hpos, if_false]
  exact ⟨hcount, trivial, hstored, hdir⟩

/-- The arguments that the kernel gets out of a message are unique. -/
theorem Recovers.unique {ws' : List (List Byte)} (h : Recovers memory message tmp page ws pwd)
    (h' : Recovers memory message tmp page ws' pwd) : ws.length = ws'.length :=
  h.1.symm.trans h'.1

/-! ### One argument of the user library -/

/-- After the loop of `exectve` the buffer starts with the last word, and `tmp` is behind the place
of a space that the loop has written. -/
theorem exectve_loop_spec (hne : ws ≠ []) (tmp : Nat) (buffer : Bytes) :
    ∃ w m k, ws.getLast? = some w ∧ HoldsString m 0 w ∧
      exectveLoop ws tmp buffer = (k + w.length + 1, Function.update m (k + w.length) space) := by
  induction ws generalizing tmp buffer with
  | nil => exact absurd rfl hne
  | cons w ws ih =>
      rw [exectveLoop]
      by_cases hnil : ws = []
      · rw [hnil]
        exact ⟨w, strcpy buffer 0 w, tmp, rfl, strcpy_holds buffer 0 w, rfl⟩
      · obtain ⟨last, m, k, hlast, hholds, hloop⟩ := ih hnil (tmp + w.length + 1)
          (Function.update (strcpy buffer 0 w) (tmp + w.length) space)
        exact ⟨last, m, k, by rw [List.getLast?_cons_of_ne_nil hnil, hlast], hholds, hloop⟩

/-- The buffer of `exectve` holds the last word. -/
theorem exectve_buffer (hne : ws ≠ []) (hws : ValidWords ws) (buffer : Bytes) :
    ∃ w ∈ ws, ws.getLast? = some w ∧
      cString (Function.update (exectveLoop ws 0 buffer).2 ((exectveLoop ws 0 buffer).1 - 1) 0#8)
        joinSize 0 = w := by
  obtain ⟨w, m, k, hlast, hholds, hloop⟩ := exectve_loop_spec hne 0 buffer
  have hmem : w ∈ ws := List.mem_of_getLast? hlast
  obtain ⟨-, -, hnull, hlen⟩ := hws w hmem
  refine ⟨w, hmem, hlast, c_string_eq ?_ hnull (by unfold joinSize countArgv; omega)⟩
  rw [hloop]
  refine hholds.congr fun i hi => ?_
  dsimp only
  rw [Nat.add_sub_cancel, Nat.zero_add]
  by_cases heq : i = k + w.length
  · -- only behind a single word the null byte is the one of the string
    have hend := hholds.terminated
    obtain rfl : i = w.length := by omega
    rw [← heq, Function.update_self, ← hend, Nat.zero_add]
  · rw [Function.update_of_ne heq, Function.update_of_ne heq]

/-- One word is a text of its own. -/
theorem joined_single (w : List Byte) : renderWords space (joined [w]) = w :=
  List.append_nil w

/-- The message that `exectve` of the user library builds gives the kernel the same arguments and
the same directory exactly when there is one argument. -/
theorem exectve_arguments (ws : List (List Byte)) (pwd : List Byte) (appId pid : BitVec 64)
    (v tmp page : Bytes) (memory appMemory : Nat) (hne : ws ≠ []) (hws : ValidWords ws)
    (hpwd : 0#8 ∉ pwd) (hfit : 8 + (pwd.length + 1) + textLength ws ≤ 1000)
    (hroom : memory + 8 * 32 + 256 * 32 ≤ 2 ^ 64) :
    ∃ commun, User.exectve ws 1#8 appId pid pwd v appMemory true = some commun ∧
      (Recovers memory commun.message tmp page ws pwd ↔ ws.length = 1) := by
  obtain ⟨w, hmem, hlast, hbuffer⟩ := exectve_buffer hne hws v
  have hcount : ¬ ws.length < 1 := by
    have hpos := List.length_pos_iff.mpr hne
    omega
  -- the text in the message is the last word
  have hone : ValidWords [w] := fun u hu => List.mem_singleton.mp hu ▸ hws w hmem
  have hwords := joined_text_words hone
  rw [joined_single] at hwords
  have hrecovers : Recovers memory (execMessage appMemory pwd w) tmp page [w] pwd := by
    have hspec := child_arguments_spec tmp page appMemory hpwd
      (show pwd.length < 1000 by omega) (hws w hmem).2.2.1
      (by rw [hwords]; exact fun u hu => (hone u hu).2.2.2)
      (by rw [← joined_single w]; exact joined_splits hone) hroom
    rwa [hwords] at hspec
  refine ⟨⟨communTypeExecChild, pid, 0, execMessage appMemory pwd w⟩, ?_, ?_⟩
  · simp [User.exectve, hcount, hbuffer]
  · constructor
    · exact fun h => h.unique hrecovers
    · intro hlength
      obtain ⟨u, rfl⟩ := List.length_eq_one_iff.mp hlength
      rw [List.getLast?_singleton, Option.some.injEq] at hlast
      rwa [hlast]

/-- A program with one argument. -/
theorem exectve_arguments_one : ∃ commun,
    User.exectve [[0x61#8]] 1#8 0 7 [0x2f#8] (fun _ => 0#8) 0 true = some commun ∧
      Recovers 0 commun.message (fun _ => 0#8) (fun _ => 0#8) [[0x61#8]] [0x2f#8] := by
  obtain ⟨commun, hsent, hiff⟩ := exectve_arguments [[0x61#8]] [0x2f#8] 0 7 (fun _ => 0#8)
    (fun _ => 0#8) (fun _ => 0#8) 0 0 (by decide) (by decide) (by decide) (by decide) (by decide)
  exact ⟨commun, hsent, hiff.mpr rfl⟩

/-- Of two arguments the kernel gets the second one. -/
theorem exectve_loses_argument : ¬ ∀ (ws : List (List Byte)) (pwd : List Byte)
    (appId pid : BitVec 64) (v tmp page : Bytes) (memory appMemory : Nat) (commun : Communication),
    ws ≠ [] → ws.length ≤ 32 → ValidWords ws → 0#8 ∉ pwd →
    8 + (pwd.length + 1) + textLength ws ≤ 1000 → memory + 8 * 32 + 256 * 32 ≤ 2 ^ 64 →
    User.exectve ws 1#8 appId pid pwd v appMemory true = some commun →
    Recovers memory commun.message tmp page ws pwd := by
  intro h
  obtain ⟨commun, hsent⟩ : ∃ commun, User.exectve [[0x61#8], [0x62#8]] 1#8 0 7 [0x2f#8]
      (fun _ => 0#8) 0 true = some commun := ⟨_, rfl⟩
  have hrecovers := h [[0x61#8], [0x62#8]] [0x2f#8] 0 7 (fun _ => 0#8) (fun _ => 0#8)
    (fun _ => 0#8) 0 0 commun (by decide) (by decide) (by decide) (by decide) (by decide)
    (by decide) hsent
  have hargc : (User.exectve [[0x61#8], [0x62#8]] 1#8 0 7 [0x2f#8] (fun _ => 0#8) 0 true).map
      (fun commun => (childArguments 0 commun.message (fun _ => 0#8) (fun _ => 0#8)).1) = some 1 := by
    decide +kernel
  rw [hsent, Option.map_some, Option.some.injEq] at hargc
  exact absurd (hargc.symm.trans hrecovers.1) (by decide)

end Sirius.Exec
