import Sirius.Stdio.Pipe

/-!
# The standard streams

`kernel/file/std.c` and `user/lib/sys/file.c`. A thread has a stream `stdin` of one-byte cells and a
stream `stdout` of two-byte cells, the character below and its colour above. The kernel and the user
library each implement both ends, with the same lazy wrap of the offsets as a pipe.
-/

namespace Sirius.Stdio

open Library

/-- `EOF` -/
def eof : Int := -1

/-- `std_open_file`; `flag` is 2 for `stdin`, 3 for `stdout` and 4 for `stderr`. -/
def stdOpenFile (flag : BitVec 32) (heap : Bytes) : File :=
  { File.cleared heap with
    bsize := bufsiz
    buffer := fillBytes heap 0 bufsiz 0#8
    mode := 2
    flags := flag }

/-! ### Writing -/

/-- What `std_putc` and `stdputc_r` share: `half` goes into `stdout`, the byte `c` into any other
stream. What is written to `stderr` goes to `stdout` as well, which is another stream. -/
def putCell (half : BitVec 16) (c : Byte) (fp : File) : File :=
  let fp := if fp.level ≥ fp.bsize ∨ fp.off ≥ fp.bsize then { fp with off := 0, level := 0 } else fp
  let size := if fp.flags = 3#32 then 2 else 1
  let buffer := if fp.flags = 3#32 then writeHalf fp.buffer fp.off half.toNat
    else Function.update fp.buffer fp.off c
  let off := (fp.off + size) % 2 ^ 32
  { fp with
    buffer := buffer
    off := off
    fsize := if off > fp.fsize then (fp.fsize + size) % 2 ^ 32 else fp.fsize }

/-- `std_putc` of the kernel. -/
def Kernel.stdPutc (c : BitVec 32) (fp : File) : BitVec 32 × File :=
  (c, putCell (c.setWidth 16) (c.setWidth 8) fp)

/-- The cell of a character in the colours of the terminal. -/
def colourCell (termFgColor termBgColor c : BitVec 32) : BitVec 16 :=
  let bg := if 15 < termBgColor.toInt ∨ termBgColor.toInt < 0 then 0#32 else termBgColor
  let fg := if 15 < termFgColor.toInt ∨ termFgColor.toInt < 0 then 0#32 else termFgColor
  let bg := if fg = 15#32 ∧ bg = 15#32 then 0#32 else bg
  let clor := ((bg <<< 4 &&& 0xf0#32) ||| (fg &&& 0xf#32)).setWidth 8
  (c.setWidth 8).setWidth 16 ||| clor.setWidth 16 <<< 8

/-- `stdputc_r` of the user library. -/
def User.stdputcR (termFgColor termBgColor c : BitVec 32) (fp : File) : BitVec 32 × File :=
  (c, putCell (colourCell termFgColor termBgColor c) (c.setWidth 8) fp)

/-! ### Reading

`none` stands for a call that waits. It has wrapped the read offset already, so looking again later
is the same as calling again. -/

/-- What `std_getc` and `stdgetc_r` share; `cell` is the value that a cell of `stdout` is read
with. -/
def getCell (cell : Bytes → Nat → Nat) (fp : File) : Option Int × File :=
  let fp := if fp.off2 ≥ fp.bsize then { fp with off2 := 0 } else fp
  if fp.flags = 2#32 then
    if fp.off ≤ fp.off2 ∧ fp.off ≥ fp.off2 then (none, fp)
    else (some (fp.buffer fp.off2).toNat, { fp with off2 := (fp.off2 + 1) % 2 ^ 32 })
  else if fp.flags = 4#32 then
    if fp.off = 0 then (some eof, fp)
    else if fp.off2 ≥ fp.off then (some eof, fp)
    else (some (fp.buffer fp.off2).toNat, { fp with off2 := (fp.off2 + 1) % 2 ^ 32 })
  else if fp.flags = 3#32 then
    if fp.off2 = fp.off then (some eof, fp)
    else (some (cell fp.buffer fp.off2), { fp with off2 := (fp.off2 + 2) % 2 ^ 32 })
  else (some 0, fp)

/-- `std_getc` of the kernel. -/
def Kernel.stdGetc (fp : File) : Option Int × File :=
  if fp.fsize = 0 then (some eof, fp) else getCell readHalf fp

/-- `stdgetc_r` of the user library. -/
def User.stdgetcR (fp : File) : Option Int × File := getCell (fun m a => (m a).toNat) fp

/-- What `getkey` and `getkeyw` share; `empty` is the result when there is no key. -/
def getKey (empty : Option Int) (stdin : File) : Option Int × File :=
  let fp := if stdin.off2 ≥ stdin.bsize then { stdin with off2 := 0 } else stdin
  if fp.flags = 2#32 then
    if fp.off ≤ fp.off2 ∧ fp.off ≥ fp.off2 then (empty, fp)
    else (some (fp.buffer fp.off2).toNat, { fp with off2 := (fp.off2 + 1) % 2 ^ 32 })
  else (some 0, fp)

/-- `getkey` -/
def User.getkey (stdin : File) : Option Int × File := getKey (some 0) stdin

/-- `getkeyw` -/
def User.getkeyw (stdin : File) : Option Int × File := getKey none stdin

/-! ### Runs of the two ends -/

/-- The stream of a run. -/
inductive StdStream where
  | stdin
  | stdout
  deriving DecidableEq, Repr

/-- The flag with which `fopen` opens the stream. -/
def StdStream.flags : StdStream → BitVec 32
  | .stdin => 2#32
  | .stdout => 3#32

/-- The bytes of a cell. -/
def StdStream.cellSize : StdStream → Nat
  | .stdin => 1
  | .stdout => 2

/-- Which function writes. The user library writes in the colours of the terminal. -/
inductive StdWriter where
  | kernel
  | user (termFgColor termBgColor : BitVec 32)

/-- Which function reads. -/
inductive StdReader where
  | kernel
  | user
  | getkey
  | getkeyw
  deriving DecidableEq, Repr

/-- The write call. -/
def StdWriter.write (writer : StdWriter) (c : BitVec 32) (fp : File) : BitVec 32 × File :=
  match writer with
  | .kernel => Kernel.stdPutc c fp
  | .user fg bg => User.stdputcR fg bg c fp

/-- What a write puts into `stdout`. -/
def StdWriter.half (writer : StdWriter) (c : BitVec 32) : BitVec 16 :=
  match writer with
  | .kernel => c.setWidth 16
  | .user fg bg => colourCell fg bg c

/-- The cell that a write makes. -/
def StdStream.cell (std : StdStream) (writer : StdWriter) (c : BitVec 32) : Nat :=
  match std with
  | .stdin => (c.setWidth 8).toNat
  | .stdout => (writer.half c).toNat

/-- The read call. -/
def StdReader.read (reader : StdReader) (fp : File) : Option Int × File :=
  match reader with
  | .kernel => Kernel.stdGetc fp
  | .user => User.stdgetcR fp
  | .getkey => User.getkey fp
  | .getkeyw => User.getkeyw fp

/-- The function reads this stream: `getkey` and `getkeyw` read `stdin` only. -/
def StdReader.Reads : StdReader → StdStream → Prop
  | .kernel, _ | .user, _ => True
  | .getkey, std | .getkeyw, std => std = .stdin

/-- The value that a function returns for a cell: `stdgetc_r` returns the characters of `stdout`
without their colours, and everything else is returned as it is. -/
def StdReader.view : StdReader → StdStream → Nat → Int
  | .user, .stdout, cell => (cell % 2 ^ 8 : Nat)
  | _, _, cell => cell

/-- The call says that there is nothing to read: it waits, or it returns `EOF`, or it is a call of
`getkey` that returns 0. -/
def StdReader.ReportsNothing (reader : StdReader) (r : Option Int) : Prop :=
  r = none ∨ r = some eof ∨ (reader = .getkey ∧ r = some 0)

instance (reader : StdReader) (r : Option Int) : Decidable (reader.ReportsNothing r) :=
  inferInstanceAs (Decidable (_ ∨ _ ∨ _))

/-- A stream with the cells written to it and the values that were read, each with the function
that returned it. -/
structure Console where
  fp : File
  written : List Nat
  delivered : List (StdReader × Int)

/-- A call at one of the two ends. -/
inductive ConsoleCall where
  | write (writer : StdWriter) (c : BitVec 32)
  | read (reader : StdReader)

/-- The stream after a call. -/
def Console.call (std : StdStream) (s : Console) : ConsoleCall → Console
  | .write writer c =>
      { s with
        fp := (writer.write c s.fp).2
        written := s.written ++ [std.cell writer c] }
  | .read reader =>
      let (r, fp) := reader.read s.fp
      { s with
        fp := fp
        delivered := s.delivered ++
          if reader.ReportsNothing r then [] else r.toList.map fun r => (reader, r) }

/-- The calls of the runs: the number of unread bytes stays below the buffer size, and the reading
function reads this stream. -/
def Console.Allowed (std : StdStream) (s : Console) : ConsoleCall → Prop
  | .write _ _ => std.cellSize * (s.written.length + 1 - s.delivered.length) < bufsiz
  | .read reader => reader.Reads std

/-- A read call that can go right: the offsets do not both stand at the end of the buffer, and
`getkey` is not called when the next character is 0. -/
def Console.Avoids (std : StdStream) (s : Console) : ConsoleCall → Prop
  | .write _ _ => True
  | .read reader => ¬ AtBufferEnd s.fp ∧
      (reader = .getkey → ∀ cell, s.written[s.delivered.length]? = some cell →
        reader.view std cell ≠ 0)

/-- The values read are those of the first cells written. -/
def Console.InOrder (std : StdStream) (s : Console) : Prop :=
  s.delivered.length ≤ s.written.length ∧
    ∀ (k : Nat) reader r, s.delivered[k]? = some (reader, r) →
      ∃ cell, s.written[k]? = some cell ∧ r = reader.view std cell

/-- A read call does what the law says: it says that there is nothing to read exactly when
everything written has been read, and otherwise it returns the next character. -/
def Console.ReadsInOrder (std : StdStream) (s : Console) (reader : StdReader) : Prop :=
  (reader.ReportsNothing (reader.read s.fp).1 ↔ s.delivered.length = s.written.length) ∧
    (s.call std (.read reader)).InOrder std

/-- A step of the stream. -/
def ConsoleStep (std : StdStream) (s : Console) (call : ConsoleCall) (s' : Console) : Prop :=
  s' = s.call std call

/-- The stream as `std_open_file` returns it. -/
def Console.opened (std : StdStream) (heap : Bytes) : Console :=
  ⟨stdOpenFile std.flags heap, [], []⟩

/-- The runs of a stream in which unread characters never fill the buffer. -/
def ConsoleRun (std : StdStream) : Console → Console → Prop :=
  Run (ConsoleStep std) (Console.Allowed std)

/-- The runs in which, besides, every read call can go right. -/
def SafeConsoleRun (std : StdStream) : Console → Console → Prop :=
  Run (ConsoleStep std) fun s call => s.Allowed std call ∧ s.Avoids std call

end Sirius.Stdio
