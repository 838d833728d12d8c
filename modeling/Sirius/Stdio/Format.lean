import Mathlib.Tactic
import Sirius.Library.Strings
import Sirius.Stdio.Numerals

/-!
# The formatters of the user library

`vsprintf`, `vfprintf` and `vsnprintf` of `user/lib/libc/stdio`. A format is the list of the bytes
of its object; a read behind the object, or of an argument that is not there, has no result. The two
formatters have the same loop and table, written twice: one stores strings up to their null byte,
the other sends characters to the stream.
-/

namespace Sirius.Stdio.User

open Library

/-- An argument as `va_arg` reads it. The strings are those in memory, up to the null byte. -/
inductive Arg where
  | int (i : BitVec 32)
  | long (l : BitVec 64)
  | str (s : Option (List Byte))
  | double (d : BitVec 64)

/-- The types that `vf` gives to the letters, `0x01` to `0x07`. -/
inductive Conversion where
  | c | s | d | u | x | g | f
  deriving DecidableEq

/-- `vf`, with `none` for -1. -/
def vf (c : Byte) : Option Conversion :=
  if c = 0x63#8 then some .c
  else if c = 0x73#8 ∨ c = 0x53#8 then some .s
  else if c = 0x64#8 ∨ c = 0x69#8 then some .d
  else if c = 0x75#8 then some .u
  else if c = 0x78#8 ∨ c = 0x58#8 then some .x
  else if c = 0x67#8 then some .g
  else if c = 0x66#8 then some .f
  else none

/-- The string in memory that starts with these bytes. -/
def cString (s : List Byte) : List Byte := s.takeWhile (· ≠ 0#8)

/-- The string `"(null)"`. -/
def nullText : List Byte := [0x28#8, 0x6e#8, 0x75#8, 0x6c#8, 0x6c#8, 0x29#8]

/-- `_vsputs_r`: what is stored. -/
def vsputsR (src : List Byte) : List Byte := cString src

/-- `fputs`: what is sent. The count is an `int` and `strlen` an `unsigned`; a negative index reads
in front of the string. -/
def fputs (str : List Byte) : Option (List Byte) :=
  let len := (cString str).length % 2 ^ 32
  if len ≤ 2 ^ 31 then some ((cString str).take len) else none

/-- `va_arg` for an `int`, a pointer, a `long` and a `double`. -/
def vaInt : List Arg → Option (BitVec 32 × List Arg)
  | .int i :: ap => some (i, ap)
  | _ => none

def vaStr : List Arg → Option (Option (List Byte) × List Arg)
  | .str s :: ap => some (s, ap)
  | _ => none

def vaLong : List Arg → Option (BitVec 64 × List Arg)
  | .long l :: ap => some (l, ap)
  | _ => none

def vaDouble : List Arg → Option (BitVec 64 × List Arg)
  | .double d :: ap => some (d, ap)
  | _ => none

section Formatters

-- `ftoa` with its precision, and the conversion to `float` and back, are left open.
variable (ftoa : BitVec 64 → Nat → List Byte) (single : BitVec 64 → BitVec 64)

/-- The `switch` of `vsprintf` for a letter with or without `l`: what is stored, and the arguments
that are left. -/
def vsprintfSwitch (l : Bool) (letter : Byte) (ap : List Arg) : Option (List Byte × List Arg) :=
  match l, vf letter with
  | false, some .c => (vaInt ap).map fun (i, ap) => (vsputsR [i.setWidth 8], ap)
  | false, some .s => (vaStr ap).map fun (s, ap) => (vsputsR (s.getD nullText), ap)
  | false, some .d => (vaInt ap).map fun (i, ap) => (vsputsR (itoa i), ap)
  | false, some .u => (vaInt ap).map fun (u, ap) => (vsputsR (utoa (u.setWidth 64) 10), ap)
  | false, some .x => (vaInt ap).map fun (u, ap) => (vsputsR (i2hex (u.setWidth 64) 8), ap)
  | _, some .g | _, some .f => (vaDouble ap).map fun (f, ap) => (vsputsR (ftoa f 2), ap)
  | true, some .d => (vaLong ap).map fun (l, ap) => (vsputsR (ltoa l 10), ap)
  | true, some .u => (vaLong ap).map fun (lu, ap) => (vsputsR (utoa lu 10), ap)
  | true, some .x => (vaLong ap).map fun (lu, ap) => (vsputsR (utoa lu 16), ap)
  | _, _ => some (vsputsR [0x25#8] ++ vsputsR [letter], ap)

/-- The `switch` of `vfprintf`: what is sent, and the arguments that are left. -/
def vfprintfSwitch (l : Bool) (letter : Byte) (ap : List Arg) : Option (List Byte × List Arg) :=
  match l, vf letter with
  | false, some .c => (vaInt ap).map fun (i, ap) => ([i.setWidth 8], ap)
  | false, some .s => do
      let (s, ap) ← vaStr ap
      (fputs (s.getD nullText)).map (·, ap)
  | false, some .d => do
      let (i, ap) ← vaInt ap
      (fputs (itoa i)).map (·, ap)
  | false, some .u => do
      let (u, ap) ← vaInt ap
      (fputs (utoa (u.setWidth 64) 10)).map (·, ap)
  | false, some .x => do
      let (u, ap) ← vaInt ap
      (fputs (i2hex (u.setWidth 64) 8)).map (·, ap)
  | false, some .g | false, some .f => do
      let (f, ap) ← vaDouble ap
      (fputs (ftoa (single f) 10)).map (·, ap)
  | true, some .d => do
      let (l, ap) ← vaLong ap
      (fputs (ltoa l 10)).map (·, ap)
  | true, some .u => do
      let (lu, ap) ← vaLong ap
      (fputs (utoa lu 10)).map (·, ap)
  | true, some .x => do
      let (lu, ap) ← vaLong ap
      (fputs (utoa lu 16)).map (·, ap)
  | true, some .g | true, some .f => do
      let (d, ap) ← vaDouble ap
      (fputs (ftoa d 10)).map (·, ap)
  | _, _ => some ([0x25#8] ++ [letter], ap)

end Formatters

/-- The loop over the format, with the `switch` and what is done with an ordinary character. -/
def formatLoop (switch : Bool → Byte → List Arg → Option (List Byte × List Arg))
    (ordinary : Byte → List Byte) : (fmt : List Byte) → (ap : List Arg) → Option (List Byte)
  | [], _ => none
  | c :: fmt, ap =>
      if c = 0#8 then some []
      else if c = 0x25#8 then
        match fmt with
        | [] => none
        | letter :: fmt =>
            if letter = 0x6c#8 then
              match fmt with
              | [] => none
              | letter :: fmt => do
                  let (out, ap) ← switch true letter ap
                  (formatLoop switch ordinary fmt ap).map (out ++ ·)
            else do
              let (out, ap) ← switch false letter ap
              (formatLoop switch ordinary fmt ap).map (out ++ ·)
      else (formatLoop switch ordinary fmt ap).map (ordinary c ++ ·)

/-- The text that `vsprintf` stores in front of its null byte. -/
def vsprintfText (ftoa : BitVec 64 → Nat → List Byte) (fmt : List Byte) (ap : List Arg) :
    Option (List Byte) := formatLoop (vsprintfSwitch ftoa) (fun c => vsputsR [c]) fmt ap

/-- `vsprintf`: the length as an `int`, and the memory with `str` at address 0. -/
def vsprintf (ftoa : BitVec 64 → Nat → List Byte) (str : Bytes) (fmt : List Byte)
    (ap : List Arg) : Option (Int × Bytes) :=
  (vsprintfText ftoa fmt ap).map fun text =>
    ((BitVec.ofNat 32 text.length).toInt,
      copyBytes str 0 (fun i => text.getD i 0#8) 0 (text.length + 1))

/-- `vfprintf`: the characters that are sent to the stream. -/
def vfprintf (ftoa : BitVec 64 → Nat → List Byte) (single : BitVec 64 → BitVec 64)
    (fmt : List Byte) (ap : List Arg) : Option (List Byte) :=
  formatLoop (vfprintfSwitch ftoa single) (fun c => [c]) fmt ap

/-- `BUFFER_SIZE` -/
def bufferSize : Nat := 65536

/-- `vsnprintf`: its result, `s` and `sn_buf`, each from its address 0 on. -/
def vsnprintf (ftoa : BitVec 64 → Nat → List Byte) (s : Bytes) (n : BitVec 32) (fmt : List Byte)
    (ap : List Arg) (snBuf : Bytes) : Option (Int × Bytes × Bytes) :=
  if n.toNat > bufferSize then some (0, s, snBuf)
  else do
    let (rv, snBuf) ← vsprintf ftoa snBuf fmt ap
    if rv ≥ bufferSize then pure (bufferSize, s, snBuf)
    else
      let s :=
        if rv > 0 then Function.update (copyBytes s 0 snBuf 0 rv.toNat) rv.toNat 0#8 else s
      pure (rv, s, snBuf)

/-! ### The bounded formatter -/

/-- Whatever `s` and the buffer held, `vsnprintf` writes `n` bytes of `s` at most and nothing behind
the buffer, and `s` holds the first `n - 1` characters of the text. -/
def BoundedText (ftoa : BitVec 64 → Nat → List Byte) (n : BitVec 32) (fmt : List Byte)
    (ap : List Arg) (text : List Byte) : Prop :=
  ∀ s snBuf, ∃ rv s' snBuf', vsnprintf ftoa s n fmt ap snBuf = some (rv, s', snBuf') ∧
    (∀ i, n.toNat ≤ i → s' i = s i) ∧ HoldsString s' 0 (text.take (n.toNat - 1)) ∧
    ∀ i, bufferSize ≤ i → snBuf' i = snBuf i

variable {ftoa : BitVec 64 → Nat → List Byte} {n : BitVec 32} {fmt text : List Byte}
  {ap : List Arg} {s s' snBuf snBuf' : Bytes} {rv : Int}

/-- The buffer behind `vsprintf`. -/
abbrev formatted (snBuf : Bytes) (text : List Byte) : Bytes :=
  copyBytes snBuf 0 (fun i => text.getD i 0#8) 0 (text.length + 1)

theorem formatted_byte {i : Nat} (h : i ≤ text.length) :
    formatted snBuf text i = text.getD i 0#8 := by
  have hcopied : formatted snBuf text (0 + i) = text.getD i 0#8 :=
    copy_bytes_start (Nat.lt_succ_of_le h)
  rwa [Nat.zero_add] at hcopied

theorem formatted_end : formatted snBuf text text.length = 0#8 := by
  rw [formatted_byte (Nat.le_refl _), List.getD_eq_default _ _ (Nat.le_refl _)]

/-- `vsnprintf` for a text that fits into the buffer. -/
theorem vsnprintf_fits (htext : vsprintfText ftoa fmt ap = some text)
    (hn : n.toNat ≤ bufferSize) (hlen : text.length < bufferSize) (s snBuf : Bytes) :
    vsnprintf ftoa s n fmt ap snBuf = some ((text.length : Int),
      (if 0 < text.length then
        Function.update (copyBytes s 0 (formatted snBuf text) 0 text.length) text.length 0#8
      else s), formatted snBuf text) := by
  have hbound : text.length < 65536 := hlen
  have hrv : (BitVec.ofNat 32 text.length).toInt = text.length := by
    rw [BitVec.toInt_ofNat']
    exact Int.bmod_eq_of_le (by omega) (by omega)
  rw [vsnprintf, if_neg (Nat.not_lt.mpr hn), vsprintf, htext]
  simp only [Option.map_some, Option.bind_eq_bind, Option.bind_some, hrv]
  rw [if_neg (by rw [bufferSize]; omega), Int.toNat_natCast]
  simp only [gt_iff_lt, Int.natCast_pos]
  rfl

/-- `vsnprintf` for a longer text writes behind the buffer. -/
theorem vsnprintf_overrun (htext : vsprintfText ftoa fmt ap = some text)
    (hn : n.toNat ≤ bufferSize)
    (h : vsnprintf ftoa s n fmt ap snBuf = some (rv, s', snBuf')) :
    snBuf' = formatted snBuf text := by
  rw [vsnprintf, if_neg (Nat.not_lt.mpr hn), vsprintf, htext] at h
  simp only [Option.map_some, Option.bind_eq_bind, Option.bind_some] at h
  split at h
  · cases h
    rfl
  · cases h
    rfl

/-- `vsnprintf` for an `n` above the size of the buffer writes nothing. -/
theorem vsnprintf_large (hn : bufferSize < n.toNat) :
    vsnprintf ftoa s n fmt ap snBuf = some (0, s, snBuf) := if_pos hn

/-- Ones hold no string. -/
theorem not_holds_ones (t : List Byte) : ¬ HoldsString (fun _ => 1#8) 0 t := fun h =>
  absurd h.terminated (by decide)

/-- The result is as it should be exactly when the text is not empty, fits into `n` bytes with its
null byte, and `n` is at most the size of the buffer. -/
theorem bounded_text_iff (htext : vsprintfText ftoa fmt ap = some text) :
    BoundedText ftoa n fmt ap text ↔
      0 < text.length ∧ text.length < n.toNat ∧ n.toNat ≤ bufferSize := by
  constructor
  · intro h
    obtain ⟨rv, s', snBuf', hresult, hkept, hstring, hbehind⟩ := h (fun _ => 1#8) (fun _ => 1#8)
    have hn : n.toNat ≤ bufferSize := by
      by_contra hlarge
      cases (vsnprintf_large (Nat.not_le.mp hlarge)).symm.trans hresult
      exact not_holds_ones _ hstring
    have hlen : text.length < bufferSize := by
      by_contra hlong
      have hend := hbehind text.length (Nat.not_lt.mp hlong)
      rw [vsnprintf_overrun htext hn hresult, formatted_end] at hend
      exact absurd hend (by decide)
    cases (vsnprintf_fits htext hn hlen _ _).symm.trans hresult
    have hsome : 0 < text.length := by
      by_contra hempty
      rw [if_neg hempty] at hstring
      exact not_holds_ones _ hstring
    refine ⟨hsome, ?_, hn⟩
    by_contra hlong
    -- the null byte is behind the `n` bytes
    have hend := hkept text.length (Nat.not_lt.mp hlong)
    rw [if_pos hsome, Function.update_self] at hend
    exact absurd hend (by decide)
  · rintro ⟨hsome, hlen, hn⟩ s snBuf
    refine ⟨_, _, _, vsnprintf_fits htext hn (hlen.trans_le hn) s snBuf, fun i hi => ?_, ?_,
      fun i hi => ?_⟩
    · rw [if_pos hsome, Function.update_of_ne (by omega), copy_bytes_outside (by omega)]
    · rw [if_pos hsome, List.take_of_length_le (by omega)]
      refine .of_bytes (fun i hi => ?_) (by rw [Nat.zero_add, Function.update_self])
      rw [Function.update_of_ne (by omega), copy_bytes_start hi, formatted_byte hi.le,
        List.getD_eq_getElem _ _ hi]
    · exact copy_bytes_outside (.inr (by omega))

/-- `"ab"` in eight bytes. -/
theorem bounded_text_iff_two :
    BoundedText (fun _ _ => []) 8#32 [0x61#8, 0x62#8, 0#8] [] [0x61#8, 0x62#8] :=
  (bounded_text_iff (n := 8#32) (show vsprintfText (fun _ _ => []) [0x61#8, 0x62#8, 0#8] [] =
    some [0x61#8, 0x62#8] from rfl)).mpr ⟨by decide, by decide, by decide⟩

/-- The empty format leaves `s` without a null byte, and two characters for two bytes get one behind
them. -/
theorem text_not_bounded :
    ¬ BoundedText (fun _ _ => []) 8#32 [0#8] [] [] ∧
      ¬ BoundedText (fun _ _ => []) 2#32 [0x61#8, 0x62#8, 0#8] [] [0x61#8, 0x62#8] := by
  constructor
  · intro h
    obtain ⟨rv, s', snBuf', hresult, -, hstring, -⟩ := h (fun _ => 1#8) (fun _ => 1#8)
    cases (show vsnprintf (fun _ _ => []) (fun _ => 1#8) 8#32 [0#8] [] (fun _ => 1#8) =
      some (0, fun _ => 1#8, formatted (fun _ => 1#8) []) from rfl).symm.trans hresult
    exact not_holds_ones _ hstring
  · intro h
    obtain ⟨rv, s', snBuf', hresult, hkept, -⟩ := h (fun _ => 1#8) (fun _ => 1#8)
    have hfits := vsnprintf_fits (show vsprintfText (fun _ _ => []) [0x61#8, 0x62#8, 0#8] [] =
      some [0x61#8, 0x62#8] from rfl) (show (2#32).toNat ≤ bufferSize by decide) (by decide)
      (fun _ => 1#8) (fun _ => 1#8)
    cases hfits.symm.trans hresult
    exact absurd (hkept 2 (by decide)) (by decide)

end Sirius.Stdio.User
