import Mathlib.Tactic
import Sirius.Cfs.Stream
import Sirius.Library.Runs
import Sirius.Library.Strings
import Sirius.Stdio.Console

/-!
# Line input

`fgets` of `user/lib/libc/stdio`. It reads up to the newline or the end of the stream, however long
the line is, and tests for a full buffer with one character too many; a backspace takes back the
character before it, in a file as well as in the input of a terminal. A stream is what `getc_r`
returns, one call after the other: `Streams` says so for any state that `getc_r` works on.
-/

namespace Sirius.Stdio.User

open Library

variable {σ : Type*}

/-! ### The code -/

/-- The variables of the loop, with what was echoed to `stdout` and the stream. -/
structure LineState (σ : Type*) where
  s : Nat
  of : Nat
  str : Bytes
  echoed : List Byte
  fp : σ

/-- The echo of a character that was read from `stdin`. -/
def LineState.echo (flags : BitVec 32) (c : Byte) (l : LineState σ) : LineState σ :=
  if flags = 2#32 ∧ ¬ (c = 0x08#8 ∧ l.of < 1) then { l with echoed := l.echoed ++ [c] } else l

/-- What the loop does with a character that is not a newline. -/
def LineState.put (length : Int) (c : Byte) (l : LineState σ) : LineState σ :=
  if (l.of : Int) < length then
    if c = 0x08#8 ∧ l.of > 0 ∧ l.s > 0 then { l with s := l.s - 1, of := l.of - 1 }
    else if c ≠ 0x08#8 then
      { l with s := l.s + 1, of := l.of + 1, str := Function.update l.str l.s c }
    else l
  else if c = 0x08#8 ∧ l.of > 0 then { l with of := l.of - 1 }
  else { l with of := l.of + 1 }

/-- The loop. `getc_r` returns a byte or `EOF`; the last value of `c` is left with the variables. -/
def fgetsLoop (getcR : σ → Option Byte × σ) (flags : BitVec 32) (length : Int) :
    (fuel : Nat) → LineState σ → Option (Option Byte × LineState σ)
  | 0, _ => none
  | n + 1, l =>
      match getcR l.fp with
      | (none, fp) => some (none, { l with fp })
      | (some c, fp) =>
          let l := LineState.echo flags c { l with fp }
          if c = 0x0a#8 then
            some (some c, { l with s := l.s + 1, str := Function.update l.str l.s c })
          else fgetsLoop getcR flags length n (l.put length c)

/-- `fgets` with `str` at address 0: the memory, what was echoed, and the stream. -/
def fgets (getcR : σ → Option Byte × σ) (flags : BitVec 32) (length : Int) (str : Bytes) (fp : σ)
    (fuel : Nat) : Option (Bytes × List Byte × σ) :=
  (fgetsLoop getcR flags length fuel ⟨0, 0, str, [], fp⟩).map fun (c, l) =>
    -- the byte of EOF is 0xff
    let last := if length > 1 then 0#8 else c.getD 0xff#8
    (Function.update l.str l.s last, l.echoed, l.fp)

/-! ### Streams -/

/-- The bytes that `getc_r` returns, from the first call on; `none` is `EOF`. -/
abbrev Content := Nat → Option Byte

/-- `getc_r` on a content, for the number of characters read so far. -/
def contentGetc (content : Content) (pos : Nat) : Option Byte × Nat :=
  match content pos with
  | none => (none, pos)
  | some c => (some c, pos + 1)

/-- The stream gives this content; `state` is its state behind some characters. -/
def Streams (getcR : σ → Option Byte × σ) (content : Content) (state : Nat → σ) : Prop :=
  ∀ pos, getcR (state pos) = ((contentGetc content pos).1, state (contentGetc content pos).2)

/-- A line: the characters up to a newline, or up to the end of the stream. -/
def IsLine (content : Content) : (pos : Nat) → List Byte → Prop
  | pos, [] => content pos = none
  | pos, c :: line =>
      content pos = some c ∧ if c = 0x0a#8 then line = [] else IsLine content (pos + 1) line

/-- The next characters up to and including the first newline, and up to `room` characters. -/
def nextLine (content : Content) : (pos room : Nat) → List Byte
  | _, 0 => []
  | pos, room + 1 =>
      match content pos with
      | none => []
      | some c => if c = 0x0a#8 then [c] else c :: nextLine content (pos + 1) room

/-- Whatever `str` held, `fgets` returns, writes `length` bytes at most, leaves the next line in
them, and has read the characters of this line. -/
def FgetsLaw (flags : BitVec 32) (content : Content) (pos : Nat) (length : Int) : Prop :=
  ∀ str, ∃ str' echoed,
    Returns (fgets (contentGetc content) flags length str pos)
      (str', echoed, pos + (nextLine content pos (length - 1).toNat).length) ∧
    (∀ i : Nat, length ≤ i → str' i = str i) ∧
    HoldsString str' 0 (nextLine content pos (length - 1).toNat)

variable {getcR : σ → Option Byte × σ} {flags : BitVec 32} {content : Content} {pos room : Nat}
  {length : Int} {line : List Byte} {str : Bytes} {c : Byte}

/-! ### Lines -/

/-- A line that fits is the next line. -/
theorem is_line_next (h : IsLine content pos line) (hroom : line.length ≤ room) :
    nextLine content pos room = line := by
  induction line generalizing pos room with
  | nil =>
      cases room with
      | zero => rfl
      | succ room => rw [nextLine, show content pos = none from h]
  | cons c line ih =>
      cases room with
      | zero => simp at hroom
      | succ room =>
          obtain ⟨hc, hrest⟩ := h
          rw [nextLine, hc]
          dsimp only
          split at hrest
          · next hnewline => rw [if_pos hnewline, hrest]
          · next hnewline =>
              rw [if_neg hnewline, ih hrest (Nat.le_of_succ_le_succ hroom)]

theorem next_line_length (content : Content) (pos room : Nat) :
    (nextLine content pos room).length ≤ room := by
  induction room generalizing pos with
  | zero => exact Nat.le_refl 0
  | succ room ih =>
      rw [nextLine]
      split
      · exact Nat.zero_le _
      · split
        · exact Nat.le_add_left 1 room
        · exact Nat.succ_le_succ (ih (pos + 1))

theorem content_getc_end (h : content pos = none) : contentGetc content pos = (none, pos) := by
  rw [contentGetc, h]

theorem content_getc_byte (h : content pos = some c) :
    contentGetc content pos = (some c, pos + 1) := by
  rw [contentGetc, h]

/-! ### The loop -/

@[simp] theorem echo_s (l : LineState σ) : (l.echo flags c).s = l.s := by
  unfold LineState.echo
  split <;> rfl

@[simp] theorem echo_of (l : LineState σ) : (l.echo flags c).of = l.of := by
  unfold LineState.echo
  split <;> rfl

@[simp] theorem echo_str (l : LineState σ) : (l.echo flags c).str = l.str := by
  unfold LineState.echo
  split <;> rfl

@[simp] theorem echo_fp (l : LineState σ) : (l.echo flags c).fp = l.fp := by
  unfold LineState.echo
  split <;> rfl

@[simp] theorem put_fp (l : LineState σ) : (l.put length c).fp = l.fp := by
  unfold LineState.put
  repeat' split
  all_goals rfl

/-- The loop has stored the line behind what it had stored before. -/
structure Stored (l l' : LineState Nat) (line : List Byte) : Prop where
  s : l'.s = l.s + line.length
  fp : l'.fp = l.fp + line.length
  kept : ∀ i, i < l.s ∨ l.s + line.length ≤ i → l'.str i = l.str i
  bytes : ∀ i < line.length, l'.str (l.s + i) = line.getD i 0#8

theorem Stored.refl (l : LineState Nat) : Stored l l [] := ⟨rfl, rfl, fun _ _ => rfl, nofun⟩

/-- A character stored in front of a line. -/
theorem Stored.cons {l l₁ l' : LineState Nat} (h : Stored l₁ l' line) (hs : l₁.s = l.s + 1)
    (hfp : l₁.fp = l.fp + 1) (hstr : l₁.str = Function.update l.str l.s c) :
    Stored l l' (c :: line) := by
  refine ⟨?_, ?_, fun i hi => ?_, fun i hi => ?_⟩
  · rw [h.s, hs, List.length_cons]
    omega
  · rw [h.fp, hfp, List.length_cons]
    omega
  · rw [List.length_cons] at hi
    rw [h.kept i (by omega), hstr, Function.update_of_ne (by omega)]
  · cases i with
    | zero =>
        rw [Nat.add_zero, h.kept l.s (.inl (by omega)), hstr, Function.update_self]
        rfl
    | succ i =>
        have hbyte := h.bytes i (Nat.lt_of_succ_lt_succ hi)
        rwa [hs, Nat.add_assoc, Nat.add_comm 1 i] at hbyte

/-- The loop on a line without a backspace that fits into the buffer. -/
theorem fgets_loop_line (flags : BitVec 32) {l : LineState Nat} (h : IsLine content l.fp line)
    (hback : 0x08#8 ∉ line) (hof : l.of = l.s) (hroom : (l.s : Int) + line.length < length) :
    ∃ last l', Returns (fun n => fgetsLoop (contentGetc content) flags length n l) (last, l') ∧
      Stored l l' line := by
  induction line generalizing l with
  | nil =>
      refine ⟨none, l, Returns.of_add 1 fun n => ?_, .refl l⟩
      rw [fgetsLoop, content_getc_end h]
  | cons c line ih =>
      obtain ⟨hc, hrest⟩ := h
      have hgetc := content_getc_byte hc
      rw [List.length_cons] at hroom
      split at hrest
      · next hnewline =>
          subst hrest
          let l' : LineState Nat := { (LineState.echo flags c { l with fp := l.fp + 1 }) with
            s := l.s + 1
            str := Function.update l.str l.s c }
          refine ⟨some c, l', Returns.of_add 1 fun n => ?_,
            (Stored.refl l').cons rfl (echo_fp _) rfl⟩
          rw [fgetsLoop, hgetc]
          simp [hnewline, l']
      · next hnewline =>
          have hne : c ≠ 0x08#8 := fun heq => hback (heq ▸ List.mem_cons_self)
          have hput : (LineState.echo flags c { l with fp := l.fp + 1 }).put length c =
              { (LineState.echo flags c { l with fp := l.fp + 1 }) with
                s := l.s + 1
                of := l.of + 1
                str := Function.update l.str l.s c } := by
            have hroom' : (l.of : Int) < length := by omega
            simp [LineState.put, hne, hroom']
          obtain ⟨last, l', hreturns, hstored⟩ := ih
            (l := (LineState.echo flags c { l with fp := l.fp + 1 }).put length c)
            (by rw [put_fp, echo_fp]; exact hrest) (fun hmem => hback (List.mem_cons_of_mem _ hmem))
            (by rw [hput, hof]) (by rw [hput]; push_cast; omega)
          refine ⟨last, l', hreturns.succ fun n => ?_, hstored.cons ?_ ?_ ?_⟩
          · rw [fgetsLoop, hgetc]
            simp [hnewline]
          · rw [hput]
          · rw [put_fp, echo_fp]
          · rw [hput]

theorem update_clean {a : Nat} (hclean : ∀ i, str i ≠ 0x08#8) (hc : c ≠ 0x08#8) (i : Nat) :
    Function.update str a c i ≠ 0x08#8 := by
  by_cases hi : i = a
  · rwa [hi, Function.update_self]
  · rw [Function.update_of_ne hi]
    exact hclean i

theorem put_clean {l : LineState σ} (hclean : ∀ i, l.str i ≠ 0x08#8) (i : Nat) :
    (l.put length c).str i ≠ 0x08#8 := by
  unfold LineState.put
  split
  · split
    · exact hclean i
    · split
      · next hc => exact update_clean hclean hc i
      · exact hclean i
  · split
    · exact hclean i
    · exact hclean i

/-- A loop that ends has read a line, and has not stored a backspace. -/
theorem fgets_loop_reads {l l' : LineState Nat} {last : Option Byte} {n : Nat}
    (h : fgetsLoop (contentGetc content) flags length n l = some (last, l')) :
    ∃ line, IsLine content l.fp line ∧ l'.fp = l.fp + line.length ∧
      ((∀ i, l.str i ≠ 0x08#8) → ∀ i, l'.str i ≠ 0x08#8) := by
  induction n generalizing l with
  | zero => cases h
  | succ n ih =>
      rw [fgetsLoop] at h
      cases hc : content l.fp with
      | none =>
          rw [content_getc_end hc] at h
          cases h
          exact ⟨[], hc, rfl, id⟩
      | some c =>
          rw [content_getc_byte hc] at h
          dsimp only at h
          split at h
          · next hnewline =>
              cases h
              refine ⟨[c], ⟨hc, by rw [if_pos hnewline]⟩, by simp, fun hclean i => ?_⟩
              rw [echo_str]
              exact update_clean hclean (by rw [hnewline]; decide) i
          · next hnewline =>
              obtain ⟨line, hline, hfp, hclean⟩ := ih h
              rw [put_fp, echo_fp] at hline hfp
              refine ⟨c :: line, ⟨hc, by rwa [if_neg hnewline]⟩, ?_, fun hstr => hclean ?_⟩
              · rw [hfp, List.length_cons]
                dsimp only
                omega
              · exact put_clean (by rwa [echo_str])

/-! ### The law -/

/-- `fgets` with room for a character, as its loop leaves the variables. -/
theorem fgets_eq (hlength : 1 < length) (fp : σ) (fuel : Nat) :
    fgets getcR flags length str fp fuel =
      (fgetsLoop getcR flags length fuel ⟨0, 0, str, [], fp⟩).map fun r =>
        (Function.update r.2.str r.2.s 0#8, r.2.echoed, r.2.fp) := by
  rw [fgets]
  congr 1
  funext ⟨last, l⟩
  dsimp only
  rw [if_pos hlength]

/-- `fgets` on a line without a backspace that fits. -/
theorem fgets_line (flags : BitVec 32) (h : IsLine content pos line) (hback : 0x08#8 ∉ line)
    (hroom : (line.length : Int) < length) (hlength : 1 < length) (str : Bytes) :
    ∃ str' echoed, Returns (fgets (contentGetc content) flags length str pos)
        (str', echoed, pos + line.length) ∧
      (∀ i : Nat, length ≤ i → str' i = str i) ∧ HoldsString str' 0 line := by
  obtain ⟨last, l, hreturns, hstored⟩ := fgets_loop_line flags
    (l := ⟨0, 0, str, [], pos⟩) h hback rfl (by simpa using hroom)
  have hs : l.s = line.length := by rw [hstored.s, Nat.zero_add]
  refine ⟨Function.update l.str l.s 0#8, l.echoed, ?_, fun i hi => ?_,
    .of_bytes (fun i hi => ?_) ?_⟩
  · obtain ⟨k, hk⟩ := hreturns
    refine ⟨k, fun n hn => ?_⟩
    have hloop := hk n hn
    dsimp only at hloop
    rw [fgets_eq hlength, hloop, Option.map_some, hstored.fp]
  · rw [Function.update_of_ne (by omega), hstored.kept i (.inr (by dsimp only; omega))]
  · have hbyte := hstored.bytes i hi
    rw [Function.update_of_ne (by omega), hbyte, List.getD_eq_getElem _ _ hi]
  · rw [hs, Nat.zero_add, Function.update_self]

/-! ### Streams -/

/-- The variables of the loop with another stream. -/
def LineState.map {τ : Type*} (f : σ → τ) (l : LineState σ) : LineState τ :=
  ⟨l.s, l.of, l.str, l.echoed, f l.fp⟩

theorem echo_map {τ : Type*} (f : σ → τ) (l : LineState σ) :
    (l.map f).echo flags c = (l.echo flags c).map f := by
  unfold LineState.echo LineState.map
  split <;> rfl

theorem put_map {τ : Type*} (f : σ → τ) (l : LineState σ) :
    (l.map f).put length c = (l.put length c).map f := by
  unfold LineState.put LineState.map
  dsimp only
  repeat' split
  all_goals rfl

/-- The loop on a stream does what it does on the content. -/
theorem fgets_loop_streams {state : Nat → σ} (h : Streams getcR content state)
    (flags : BitVec 32) (length : Int) (fuel : Nat) (l : LineState Nat) :
    fgetsLoop getcR flags length fuel (l.map state) =
      (fgetsLoop (contentGetc content) flags length fuel l).map fun r => (r.1, r.2.map state) := by
  induction fuel generalizing l with
  | zero => rfl
  | succ n ih =>
      have hgetc : getcR (l.map state).fp = _ := h l.fp
      rw [fgetsLoop, fgetsLoop, hgetc]
      cases hc : content l.fp with
      | none =>
          rw [content_getc_end hc]
          rfl
      | some c =>
          rw [content_getc_byte hc]
          dsimp only
          have hecho : LineState.echo flags c { l.map state with fp := state (l.fp + 1) } =
              (LineState.echo flags c { l with fp := l.fp + 1 }).map state :=
            echo_map state { l with fp := l.fp + 1 }
          rw [hecho]
          split
          · rfl
          · rw [put_map, ih]

/-- `fgets` on a stream does what it does on the content. -/
theorem fgets_streams {state : Nat → σ} (h : Streams getcR content state) (fuel : Nat) :
    fgets getcR flags length str (state pos) fuel =
      (fgets (contentGetc content) flags length str pos fuel).map fun r =>
        (r.1, r.2.1, state r.2.2) := by
  rw [fgets, fgets, Option.map_map]
  have hloop := fgets_loop_streams h flags length fuel ⟨0, 0, str, [], pos⟩
  exact (congrArg _ hloop).trans (by rw [Option.map_map]; rfl)

/-- `getc_r` on a file of the disk. -/
def fileGetc (fp : File × Cfs.Disk) : Option Byte × (File × Cfs.Disk) :=
  let (r, file, disk) := Cfs.getFile fp.1 fp.2
  (if r = eof then none else some (BitVec.ofInt 8 r), file, disk)

/-- The file behind some calls. -/
def fileState (fp : File × Cfs.Disk) (pos : Nat) : File × Cfs.Disk :=
  (fun fp => (fileGetc fp).2)^[pos] fp

/-- The content of a file of the disk. -/
def fileContent (fp : File × Cfs.Disk) : Content := fun pos => (fileGetc (fileState fp pos)).1

/-- `getc_r` on a file returns `EOF` and leaves the file as it is, or it returns a byte. -/
theorem get_file_cases (fp : File) (disk : Cfs.Disk) :
    Cfs.getFile fp disk = (eof, fp, disk) ∨ ∃ b : Byte, (Cfs.getFile fp disk).1 = b.toNat := by
  rw [Cfs.getFile]
  by_cases hend : fp.fsize ≤ fp.off
  · exact .inl (if_pos hend)
  · rw [if_neg hend]
    exact .inr ⟨_, rfl⟩

/-- At the end of a file the call leaves it as it is. -/
theorem file_getc_end (fp : File × Cfs.Disk) (h : (fileGetc fp).1 = none) :
    (fileGetc fp).2 = fp := by
  rcases get_file_cases fp.1 fp.2 with hend | ⟨b, hb⟩
  · rw [fileGetc, hend]
  · have hbyte : ¬ (b.toNat : Int) = eof := by rw [eof]; omega
    rw [fileGetc] at h
    dsimp only at h
    rw [hb, if_neg hbyte] at h
    cases h

/-- A file of the disk is a stream. -/
theorem file_streams (fp : File × Cfs.Disk) :
    Streams fileGetc (fileContent fp) (fileState fp) := by
  intro pos
  cases hc : fileContent fp pos with
  | none =>
      rw [content_getc_end hc]
      exact Prod.ext hc (file_getc_end _ hc)
  | some c =>
      rw [content_getc_byte hc]
      refine Prod.ext hc ?_
      rw [fileState, fileState, Function.iterate_succ_apply']

/-- The next line of a file of the disk. -/
theorem fgets_file {fp : File × Cfs.Disk} (h : IsLine (fileContent fp) pos line)
    (hback : 0x08#8 ∉ line) (hroom : (line.length : Int) < length) (hlength : 1 < length)
    (str : Bytes) :
    ∃ str' echoed, Returns (fgets fileGetc flags length str (fileState fp pos))
        (str', echoed, fileState fp (pos + line.length)) ∧
      (∀ i : Nat, length ≤ i → str' i = str i) ∧ HoldsString str' 0 line := by
  obtain ⟨str', echoed, ⟨k, hk⟩, hkept, hstring⟩ :=
    fgets_line flags h hback hroom hlength str
  refine ⟨str', echoed, ⟨k, fun n hn => ?_⟩, hkept, hstring⟩
  rw [fgets_streams (file_streams fp), hk n hn, Option.map_some]

/-! ### The line and the buffer -/

/-- `fgets` is right exactly when the line, up to its newline or the end of the stream, has fewer
characters than the buffer and no backspace. -/
theorem fgets_law_iff (hlength : 1 < length) :
    FgetsLaw flags content pos length ↔
      ∃ line, IsLine content pos line ∧ (line.length : Int) < length ∧ 0x08#8 ∉ line := by
  constructor
  · intro h
    obtain ⟨str', echoed, ⟨k, hk⟩, -, hstring⟩ := h fun _ => 0#8
    have hreturned := hk k (Nat.le_refl k)
    rw [fgets_eq hlength] at hreturned
    obtain ⟨⟨last, l⟩, hloop, hresult⟩ := Option.map_eq_some_iff.mp hreturned
    obtain ⟨line, hline, hfp, hclean⟩ := fgets_loop_reads hloop
    have hstr : Function.update l.str l.s 0#8 = str' := congrArg Prod.fst hresult
    have hread : l.fp = pos + (nextLine content pos (length - 1).toNat).length :=
      congrArg (fun r => r.2.2) hresult
    have hnext := next_line_length content pos (length - 1).toNat
    have hsame : line.length = (nextLine content pos (length - 1).toNat).length := by
      dsimp only at hfp
      omega
    refine ⟨line, hline, by omega, fun hback => ?_⟩
    rw [is_line_next hline (by omega)] at hstring
    obtain ⟨i, hi, hbyte⟩ := List.getElem_of_mem hback
    have hheld := hstring.byte hi
    rw [hbyte, ← hstr] at hheld
    exact update_clean (hclean fun _ => (by decide : 0#8 ≠ 0x08#8)) (by decide) _ hheld
  · rintro ⟨line, hline, hroom, hback⟩ str
    rw [is_line_next hline (by omega)]
    exact fgets_line flags hline hback hroom hlength str

/-- The content of a list of bytes. -/
abbrev listContent (bytes : List Byte) : Content := fun pos => bytes[pos]?

/-- The line `"a"` in a buffer of three bytes. -/
theorem fgets_law_iff_letter : FgetsLaw 6#32 (listContent [0x61#8, 0x0a#8, 0x62#8]) 0 3 :=
  (fgets_law_iff (by decide)).mpr ⟨[0x61#8, 0x0a#8], ⟨rfl, rfl, rfl⟩, by decide, by decide⟩

/-- The line `"a"` is stored behind a buffer of two bytes. -/
theorem line_behind_buffer : ¬ FgetsLaw 6#32 (listContent [0x61#8, 0x0a#8]) 0 2 := by
  intro h
  obtain ⟨str', echoed, ⟨k, hk⟩, -⟩ := h fun _ => 0x62#8
  have hcode : fgets (contentGetc (listContent [0x61#8, 0x0a#8])) 6#32 2 (fun _ => 0x62#8) 0
      (k + 2) = some (Function.update (Function.update (Function.update (fun _ => 0x62#8) 0 0x61#8)
        1 0x0a#8) 2 0#8, [], 2) := rfl
  -- both characters are read, and not the first one only
  cases (hk (k + 2) (Nat.le_add_right k 2)).symm.trans hcode

end Sirius.Stdio.User
