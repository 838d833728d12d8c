import Mathlib.Tactic
import Sirius.Library.Runs

/-!
# The keyboard decoder

`keyboard_handler` of `kernel/driver/ps2/keyboard.c`, called with each byte of the port. It keeps one
flag for both shift keys, which each release and each arrow clears, and takes the upper-case table
when the flag or caps lock is set, for letters and other keys alike. The commands that set the LEDs
are left out. `KeyEvent` are the events of the keys; what the flags stand for is said of the events
so far, the last one first.
-/

namespace Sirius.Driver

open Library

/-! ### The handler -/

/-- `ascii_minusculas` up to its last character. -/
def asciiMinusculas : List (BitVec 8) :=
  [0x00#8, 0x1b#8, 0x31#8, 0x32#8, 0x33#8, 0x34#8, 0x35#8, 0x36#8, 0x37#8, 0x38#8, 0x39#8, 0x30#8,
    0x2d#8, 0x3d#8, 0x08#8,
    0x09#8, 0x71#8, 0x77#8, 0x65#8, 0x72#8, 0x74#8, 0x79#8, 0x75#8, 0x69#8, 0x6f#8, 0x70#8, 0x5b#8,
    0x5d#8, 0x0a#8,
    0x00#8, 0x61#8, 0x73#8, 0x64#8, 0x66#8, 0x67#8, 0x68#8, 0x6a#8, 0x6b#8, 0x6c#8, 0x3b#8, 0x27#8,
    0x60#8,
    0x00#8, 0x5c#8, 0x7a#8, 0x78#8, 0x63#8, 0x76#8, 0x62#8, 0x6e#8, 0x6d#8, 0x2c#8, 0x2e#8, 0x2f#8,
    0x00#8, 0x00#8, 0x00#8,
    0x20#8]

/-- `ascii_maiusculas` up to its last character. -/
def asciiMaiusculas : List (BitVec 8) :=
  [0x00#8, 0x1b#8, 0x21#8, 0x40#8, 0x23#8, 0x24#8, 0x25#8, 0x5e#8, 0x26#8, 0x2a#8, 0x28#8, 0x29#8,
    0x5f#8, 0x2b#8, 0x08#8,
    0x09#8, 0x51#8, 0x57#8, 0x45#8, 0x52#8, 0x54#8, 0x59#8, 0x55#8, 0x49#8, 0x4f#8, 0x50#8, 0x7b#8,
    0x7d#8, 0x0a#8,
    0x00#8, 0x41#8, 0x53#8, 0x44#8, 0x46#8, 0x47#8, 0x48#8, 0x4a#8, 0x4b#8, 0x4c#8, 0x3a#8, 0x22#8,
    0x7e#8,
    0x00#8, 0x7c#8, 0x5a#8, 0x58#8, 0x43#8, 0x56#8, 0x42#8, 0x4e#8, 0x4d#8, 0x3c#8, 0x3e#8, 0x3f#8,
    0x00#8, 0x00#8, 0x00#8,
    0x20#8]

/-- A table at a scan code. -/
def tableAt (table : List (BitVec 8)) (scancode : BitVec 8) : BitVec 8 :=
  table.getD scancode.toNat 0#8

/-- The variables of the handler, and the characters put into `_stdin`. -/
structure Keyboard where
  kbdIrqAck : BitVec 64
  keyboardCharset : BitVec 8
  (shift capsLock scaps : BitVec 32)
  ledStatus : BitVec 8
  stdin : List (BitVec 8)

/-- `fputc` to `_stdin`. -/
def Keyboard.fputc (c : BitVec 8) (kb : Keyboard) : Keyboard :=
  { kb with stdin := kb.stdin ++ [c] }

/-- The end of the handler: a character is put into `_stdin`. -/
def putCharset (kb : Keyboard) : Keyboard :=
  let kb := if kb.keyboardCharset ≠ 0#8 then kb.fputc kb.keyboardCharset else kb
  { kb with keyboardCharset := 0#8 }

/-- `ESC`, `LEFT_BRACKET` and the letter. -/
def escapeSequence (letter : BitVec 8) (kb : Keyboard) : Keyboard :=
  ((kb.fputc 0x1b#8).fputc 0x5b#8).fputc letter

/-- The `switch` behind the prefix. -/
def arrowSwitch (scancode : BitVec 8) (kb : Keyboard) : Keyboard :=
  if scancode = 0x48#8 then escapeSequence 0x41#8 kb
  else if scancode = 0x50#8 then escapeSequence 0x42#8 kb
  else if scancode = 0x4d#8 then escapeSequence 0x43#8 kb
  else if scancode = 0x4b#8 then escapeSequence 0x44#8 kb
  else kb

/-- The part of the handler behind the shift keys. -/
def decodeScancode (scancode : BitVec 8) (kb : Keyboard) : Keyboard :=
  if scancode &&& 0x80#8 ≠ 0#8 ∨ scancode = 0x45#8 then
    let kb :=
      if scancode = 0xe0#8 then { kb with scaps := kb.scaps + 1#32, shift := 0#32 }
      else { kb with scaps := 0#32 }
    if scancode &&& 0x7f#8 = 0x3a#8 then
      let capsLock := if kb.capsLock = 1#32 then 0#32 else 1#32
      { kb with
        capsLock := capsLock
        ledStatus := kb.ledStatus &&& (~~~1#8 <<< 2) ||| (capsLock <<< 2).setWidth 8 }
    else kb
  else if (0#32).slt kb.scaps then arrowSwitch scancode { kb with scaps := 0#32 }
  else if kb.shift = 1#32 ∨ kb.capsLock = 1#32 then
    { kb with keyboardCharset := tableAt asciiMaiusculas scancode }
  else { kb with keyboardCharset := tableAt asciiMinusculas scancode }

/-- `keyboard_handler` with the byte of the port. -/
def keyboardHandler (kb : Keyboard) (scancode : BitVec 8) : Keyboard :=
  if scancode = 0xfa#8 then { kb with kbdIrqAck := 1#64 }
  else if scancode = 0x3b#8 then { kb with scaps := 0#32 }
  else if scancode &&& 0x80#8 ≠ 0#8 then
    let kb := if scancode = 0xaa#8 ∨ scancode = 0xb6#8 then { kb with shift := 0#32 } else kb
    putCharset (decodeScancode scancode kb)
  else if scancode = 0x2a#8 ∨ scancode = 0x36#8 then { kb with shift := 1#32, scaps := 0#32 }
  else putCharset (decodeScancode scancode kb)

/-- What `keyboard_install` sets, and what was in `_stdin`. -/
def keyboardInstall (stdin : List (BitVec 8)) : Keyboard where
  kbdIrqAck := 0#64
  keyboardCharset := 0#8
  shift := 0#32
  capsLock := 0#32
  scaps := 0#32
  ledStatus := 0#8
  stdin := stdin

/-! ### Events -/

inductive Arrow where
  | up | down | right | left

/-- The code behind the prefix, and the letter of the sequence. -/
def Arrow.code : Arrow → BitVec 8
  | up => 0x48#8
  | down => 0x50#8
  | right => 0x4d#8
  | left => 0x4b#8

def Arrow.letter : Arrow → BitVec 8
  | up => 0x41#8
  | down => 0x42#8
  | right => 0x43#8
  | left => 0x44#8

/-- A key goes down or up. The keys with a character are known by their codes. -/
inductive KeyEvent where
  | make (code : BitVec 8)
  | release (code : BitVec 8)
  | shift (right down : Bool)
  | caps (down : Bool)
  | arrow (a : Arrow) (down : Bool)

namespace KeyEvent

/-- The bytes of set 1. -/
def bytes : KeyEvent → List (BitVec 8)
  | make code => [code]
  | release code => [code ||| 0x80#8]
  | shift right down => [(if right then 0x36#8 else 0x2a#8) ||| if down then 0#8 else 0x80#8]
  | caps down => [0x3a#8 ||| if down then 0#8 else 0x80#8]
  | arrow a down => [0xe0#8, a.code ||| if down then 0#8 else 0x80#8]

/-- The code is that of a key with a character. -/
def Valid : KeyEvent → Prop
  | make code | release code => tableAt asciiMinusculas code ≠ 0#8
  | _ => True

end KeyEvent

/-- The keyboard behind an event. -/
def Keyboard.handle (kb : Keyboard) (e : KeyEvent) : Keyboard := e.bytes.foldl keyboardHandler kb

/-- That shift key is held. -/
def shiftKey (right : Bool) : List KeyEvent → Bool
  | [] => false
  | .shift r down :: log => if r = right then down else shiftKey right log
  | _ :: log => shiftKey right log

/-- At least one shift key is held. -/
def shiftHeld (log : List KeyEvent) : Bool := shiftKey false log || shiftKey true log

/-- The caps lock key is held. -/
def capsHeld : List KeyEvent → Bool
  | [] => false
  | .caps down :: _ => down
  | _ :: log => capsHeld log

/-- Caps lock is on: it changes when the key goes down. -/
def capsOn : List KeyEvent → Bool
  | [] => false
  | .caps true :: log => if capsHeld log then capsOn log else !capsOn log
  | _ :: log => capsOn log

/-- The key of a letter. -/
def IsLetter (code : BitVec 8) : Prop :=
  0x61#8 ≤ tableAt asciiMinusculas code ∧ tableAt asciiMinusculas code ≤ 0x7a#8

instance (code : BitVec 8) : Decidable (IsLetter code) := inferInstanceAs (Decidable (_ ∧ _))

/-- The key gives its upper-case or shifted character. -/
def shifted (log : List KeyEvent) (code : BitVec 8) : Bool :=
  if IsLetter code then shiftHeld log ^^ capsOn log else shiftHeld log

/-- What an event should put into `_stdin`. -/
def KeyEvent.expected (log : List KeyEvent) : KeyEvent → List (BitVec 8)
  | make code =>
      [tableAt (if shifted log code then asciiMaiusculas else asciiMinusculas) code]
  | arrow a true => [0x1b#8, 0x5b#8, a.letter]
  | _ => []

/-- The last shift or arrow key was a shift key that went down. -/
def shiftLast : List KeyEvent → Bool
  | [] => false
  | .shift _ down :: _ => down
  | .arrow _ _ :: _ => false
  | _ :: log => shiftLast log

/-- The caps lock key went up an odd number of times. -/
def capsReleases : List KeyEvent → Bool
  | [] => false
  | .caps false :: log => !capsReleases log
  | _ :: log => capsReleases log

/-- A key with two characters goes down when these two tell the same as the keys that are held and
caps lock. -/
def KeyEvent.Good (log : List KeyEvent) : KeyEvent → Prop
  | make code =>
      tableAt asciiMaiusculas code = tableAt asciiMinusculas code ∨
        (shiftLast log || capsReleases log) = shifted log code
  | _ => True

/-- The events so far next to the keyboard. -/
def KeyStep (s : Keyboard × List KeyEvent) (e : KeyEvent) (s' : Keyboard × List KeyEvent) : Prop :=
  s' = (s.1.handle e, e :: s.2)

variable {kb : Keyboard} {log : List KeyEvent} {e : KeyEvent} {code : BitVec 8}

/-! ### One event -/

/-- The flags between two events. -/
structure Decoding (kb : Keyboard) (log : List KeyEvent) : Prop where
  charset : kb.keyboardCharset = 0#8
  scaps : kb.scaps = 0#32
  shift : kb.shift = if shiftLast log then 1#32 else 0#32
  capsLock : kb.capsLock = if capsReleases log then 1#32 else 0#32

/-- The codes of the keys with a character are no others. -/
theorem ordinary_code (h : tableAt asciiMinusculas code ≠ 0#8) :
    code &&& 0x80#8 = 0#8 ∧ code ≠ 0xfa#8 ∧ code ≠ 0x3b#8 ∧ code ≠ 0x2a#8 ∧ code ≠ 0x36#8 ∧
      code ≠ 0x45#8 ∧ tableAt asciiMaiusculas code ≠ 0#8 ∧
      (code ||| 0x80#8) &&& 0x80#8 ≠ 0#8 ∧ code ||| 0x80#8 ≠ 0xfa#8 ∧ code ||| 0x80#8 ≠ 0x3b#8 ∧
      code ||| 0x80#8 ≠ 0xaa#8 ∧ code ||| 0x80#8 ≠ 0xb6#8 ∧ code ||| 0x80#8 ≠ 0xe0#8 ∧
      (code ||| 0x80#8) &&& 0x7f#8 ≠ 0x3a#8 := by
  revert h
  revert code
  decide +kernel

/-- What an event puts into `_stdin`, by the flags. -/
def KeyEvent.output (log : List KeyEvent) : KeyEvent → List (BitVec 8)
  | make code => [tableAt (if shiftLast log || capsReleases log then asciiMaiusculas
      else asciiMinusculas) code]
  | arrow a true => [0x1b#8, 0x5b#8, a.letter]
  | _ => []

theorem flags_iff (h : Decoding kb log) :
    (kb.shift = 1#32 ∨ kb.capsLock = 1#32) ↔ (shiftLast log || capsReleases log) = true := by
  rw [h.shift, h.capsLock]
  cases shiftLast log <;> cases capsReleases log <;> decide

theorem handle_make (h : Decoding kb log) (hcode : tableAt asciiMinusculas code ≠ 0#8) :
    Decoding (kb.handle (.make code)) (.make code :: log) ∧
      (kb.handle (.make code)).stdin = kb.stdin ++ KeyEvent.output log (.make code) := by
  obtain ⟨hlow, hack, hf1, hleft, hright, hnum, hupper, -⟩ := ordinary_code hcode
  have hscaps : ¬ (0#32).slt kb.scaps = true := by
    rw [h.scaps]
    decide
  have hchar : ∀ b : Bool, tableAt (if b then asciiMaiusculas else asciiMinusculas) code ≠ 0#8 :=
    fun b => by cases b <;> assumption
  have hhandle : kb.handle (.make code) = putCharset { kb with
      keyboardCharset := tableAt
        (if shiftLast log || capsReleases log then asciiMaiusculas else asciiMinusculas) code } := by
    change keyboardHandler kb code = _
    rw [keyboardHandler, if_neg hack, if_neg hf1, if_neg (not_not.mpr hlow),
      if_neg (not_or.mpr ⟨hleft, hright⟩), decodeScancode,
      if_neg (not_or.mpr ⟨not_not.mpr hlow, hnum⟩), if_neg hscaps]
    by_cases hflags : kb.shift = 1#32 ∨ kb.capsLock = 1#32
    · rw [if_pos hflags, if_pos ((flags_iff h).mp hflags)]
    · rw [if_neg hflags, if_neg fun heq => hflags ((flags_iff h).mpr heq)]
  rw [hhandle, putCharset]
  dsimp only
  rw [if_pos (hchar _)]
  exact ⟨⟨rfl, h.scaps, h.shift, h.capsLock⟩, rfl⟩

/-- A byte that only changes flags. -/
theorem put_charset_none (h : kb.keyboardCharset = 0#8) : putCharset kb = kb := by
  obtain ⟨ack, charset, shift, capsLock, scaps, led, stdin⟩ := kb
  dsimp only at h
  subst h
  rfl

theorem handle_release (h : Decoding kb log) (hcode : tableAt asciiMinusculas code ≠ 0#8) :
    Decoding (kb.handle (.release code)) (.release code :: log) ∧
      (kb.handle (.release code)).stdin = kb.stdin := by
  obtain ⟨-, -, -, -, -, -, -, hhigh, hack, hf1, hleft, hright, hprefix, hcaps⟩ :=
    ordinary_code hcode
  have hhandle : kb.handle (.release code) = putCharset { kb with scaps := 0#32 } := by
    change keyboardHandler kb (code ||| 0x80#8) = _
    rw [keyboardHandler, if_neg hack, if_neg hf1, if_pos hhigh, if_neg (not_or.mpr ⟨hleft, hright⟩)]
    dsimp only
    rw [decodeScancode, if_pos (.inl hhigh), if_neg hprefix]
    dsimp only
    rw [if_neg hcaps]
  rw [hhandle, put_charset_none (by exact h.charset)]
  exact ⟨⟨h.charset, rfl, h.shift, h.capsLock⟩, rfl⟩

theorem handle_shift (h : Decoding kb log) (right down : Bool) :
    Decoding (kb.handle (.shift right down)) (.shift right down :: log) ∧
      (kb.handle (.shift right down)).stdin = kb.stdin := by
  cases down with
  | true =>
      have hhandle : kb.handle (.shift right true) = { kb with shift := 1#32, scaps := 0#32 } := by
        cases right <;> rfl
      rw [hhandle]
      exact ⟨⟨h.charset, rfl, rfl, h.capsLock⟩, rfl⟩
  | false =>
      have hhandle : kb.handle (.shift right false) =
          putCharset { kb with shift := 0#32, scaps := 0#32 } := by
        cases right <;> rfl
      rw [hhandle, put_charset_none (by exact h.charset)]
      exact ⟨⟨h.charset, rfl, rfl, h.capsLock⟩, rfl⟩

theorem handle_caps (h : Decoding kb log) (down : Bool) :
    Decoding (kb.handle (.caps down)) (.caps down :: log) ∧
      (kb.handle (.caps down)).stdin = kb.stdin := by
  cases down with
  | true =>
      -- neither table has a character for the key
      have hhandle : kb.handle (.caps true) = putCharset { kb with keyboardCharset := 0#8 } := by
        change putCharset (decodeScancode 0x3a#8 kb) = _
        rw [decodeScancode, if_neg (by decide), h.scaps, if_neg (by decide)]
        split <;> rfl
      rw [hhandle, put_charset_none rfl]
      exact ⟨⟨rfl, h.scaps, h.shift, h.capsLock⟩, rfl⟩
  | false =>
      have hhandle : kb.handle (.caps false) = putCharset { kb with
          scaps := 0#32
          capsLock := if kb.capsLock = 1#32 then 0#32 else 1#32
          ledStatus := kb.ledStatus &&& (~~~1#8 <<< 2) |||
            ((if kb.capsLock = 1#32 then 0#32 else 1#32) <<< 2).setWidth 8 } := rfl
      rw [hhandle, put_charset_none (by exact h.charset)]
      refine ⟨⟨h.charset, rfl, h.shift, ?_⟩, rfl⟩
      rw [h.capsLock]
      change _ = if !capsReleases log then _ else _
      cases capsReleases log <;> rfl

theorem handle_arrow (h : Decoding kb log) (a : Arrow) (down : Bool) :
    Decoding (kb.handle (.arrow a down)) (.arrow a down :: log) ∧
      (kb.handle (.arrow a down)).stdin = kb.stdin ++ KeyEvent.output log (.arrow a down) := by
  -- the prefix counts `scaps` up, and the second byte finds it at 1
  have hfirst : keyboardHandler kb 0xe0#8 = { kb with scaps := 1#32, shift := 0#32 } := by
    change putCharset { kb with scaps := kb.scaps + 1#32, shift := 0#32 } = _
    rw [put_charset_none (by exact h.charset), h.scaps]
    rfl
  have hhandle : kb.handle (.arrow a down) = keyboardHandler
      { kb with scaps := 1#32, shift := 0#32 } (a.code ||| if down then 0#8 else 0x80#8) := by
    change keyboardHandler (keyboardHandler kb 0xe0#8) _ = _
    rw [hfirst]
  cases down with
  | true =>
      have hsecond : kb.handle (.arrow a true) = putCharset (escapeSequence a.letter
          { kb with scaps := 0#32, shift := 0#32 }) := by
        rw [hhandle]
        cases a <;> rfl
      rw [hsecond, put_charset_none (by exact h.charset)]
      refine ⟨⟨h.charset, rfl, rfl, h.capsLock⟩, ?_⟩
      change ((kb.stdin ++ [0x1b#8]) ++ [0x5b#8]) ++ [a.letter] = _
      rw [List.append_assoc, List.append_assoc]
      rfl
  | false =>
      have hsecond : kb.handle (.arrow a false) =
          putCharset { kb with scaps := 0#32, shift := 0#32 } := by
        rw [hhandle]
        cases a <;> rfl
      rw [hsecond, put_charset_none (by exact h.charset)]
      exact ⟨⟨h.charset, rfl, rfl, h.capsLock⟩, (List.append_nil _).symm⟩

/-- Each event keeps the flags, and puts into `_stdin` what they tell. -/
theorem Decoding.handle (h : Decoding kb log) (hvalid : e.Valid) :
    Decoding (kb.handle e) (e :: log) ∧ (kb.handle e).stdin = kb.stdin ++ e.output log := by
  cases e with
  | make code => exact handle_make h hvalid
  | release code =>
      obtain ⟨hflags, hstdin⟩ := handle_release h hvalid
      exact ⟨hflags, hstdin.trans (List.append_nil _).symm⟩
  | shift right down =>
      obtain ⟨hflags, hstdin⟩ := handle_shift h right down
      exact ⟨hflags, hstdin.trans (List.append_nil _).symm⟩
  | caps down =>
      obtain ⟨hflags, hstdin⟩ := handle_caps h down
      exact ⟨hflags, hstdin.trans (List.append_nil _).symm⟩
  | arrow a down => exact handle_arrow h a down

/-- The flags tell the right output exactly when the condition holds. -/
theorem output_eq_iff : e.output log = e.expected log ↔ e.Good log := by
  cases e with
  | make code =>
      change [tableAt (if (shiftLast log || capsReleases log) = true then _ else _) code] =
        [tableAt (if shifted log code = true then _ else _) code] ↔ _ ∨ _
      generalize (shiftLast log || capsReleases log) = told
      generalize shifted log code = should
      cases told <;> cases should <;> simp [eq_comm]
  | release code => exact iff_of_true rfl trivial
  | shift right down => exact iff_of_true rfl trivial
  | caps down => exact iff_of_true rfl trivial
  | arrow a down =>
      cases down with
      | true => exact iff_of_true rfl trivial
      | false => exact iff_of_true rfl trivial

/-! ### Streams -/

theorem Decoding.install (stdin : List (BitVec 8)) : Decoding (keyboardInstall stdin) [] :=
  ⟨rfl, rfl, rfl, rfl⟩

/-- Behind every stream of events, the next event puts the right characters into `_stdin` exactly
when it is not the press of a key with two characters for which the flags tell the wrong one. -/
theorem keyboard_stream_iff {stdin : List (BitVec 8)}
    (h : Run KeyStep (fun _ e => e.Valid) (keyboardInstall stdin, []) (kb, log))
    (hvalid : e.Valid) :
    (kb.handle e).stdin = kb.stdin ++ e.expected log ↔ e.Good log := by
  have hflags : Decoding kb log :=
    h.invariant (fun s => Decoding s.1 s.2) (.install stdin) fun s e s' hs hgood hstep => by
      cases hstep
      exact (hs.handle hgood).1
  rw [(hflags.handle hvalid).2, List.append_cancel_left_eq, output_eq_iff]

/-- The letter a behind the left shift key. -/
theorem keyboard_stream_iff_shift :
    (((keyboardInstall []).handle (.shift false true)).handle (.make 0x1e#8)).stdin =
      [] ++ [0x41#8] :=
  (keyboard_stream_iff (Run.refl.snoc (KeyEvent.shift false true) trivial rfl)
    (e := .make 0x1e#8) (by decide : tableAt asciiMinusculas 0x1e#8 ≠ 0#8)).mpr
      (.inr (by decide))

/-- The letter a with shift while caps lock is on, the digit 1 with caps lock, and the letter a with
one of two shift keys that is still held. -/
theorem wrong_characters :
    ((((((keyboardInstall []).handle (.caps true)).handle (.caps false)).handle
      (.shift false true)).handle (.make 0x1e#8)).stdin = [0x41#8] ∧
      KeyEvent.expected [.shift false true, .caps false, .caps true] (.make 0x1e#8) = [0x61#8]) ∧
    (((((keyboardInstall []).handle (.caps true)).handle (.caps false)).handle
      (.make 0x02#8)).stdin = [0x21#8] ∧
      KeyEvent.expected [.caps false, .caps true] (.make 0x02#8) = [0x31#8]) ∧
    (((((keyboardInstall []).handle (.shift false true)).handle (.shift true true)).handle
      (.shift true false)).handle (.make 0x1e#8)).stdin = [0x61#8] ∧
      KeyEvent.expected [.shift true false, .shift true true, .shift false true]
        (.make 0x1e#8) = [0x41#8] := by
  decide +kernel

end Sirius.Driver
