import Sirius.Library.LazyRing
import Sirius.Stdio.Pipe

/-!
# The pipe is a queue

`PipeInv` relates the two offsets and the buffer of a pipe to the numbers of messages written and
delivered. The pipe is a lazily wrapped ring of 512 messages (`Pipe.ring`), and its calls are the
calls of the ring; every call keeps `PipeInv`, except a read while both offsets stand at the end of
the buffer. `pipe_fifo` is the result on runs; `read_at_buffer_end` is what that one read does.
-/

namespace Sirius.Stdio

open Library

/-- The offsets are those after `written` and `delivered` messages, the delivered messages are
the first written ones, and the buffer holds the others in their slots. -/
structure PipeInv (pipe : Pipe) : Prop where
  level : pipe.fp.level = 0
  bsize : pipe.fp.bsize = bufsiz
  off : pipe.fp.off = offsetAfter pipe.written.length
  off2 : pipe.fp.off2 = offsetAfter pipe.delivered.length
  order : pipe.delivered <+: pipe.written
  room : pipe.written.length < pipe.delivered.length + 512
  unread : ∀ k, pipe.delivered.length ≤ k → (hk : k < pipe.written.length) →
    messageAt pipe.fp.buffer (pipeSize * (k % 512)) = pipe.written[k]

theorem pipe_inv_opened (heap : Bytes) : PipeInv (Pipe.opened heap) := by
  constructor <;> simp [Pipe.opened, pipeOpenFile, File.cleared, offsetAfter]

section Calls

variable {pipe : Pipe}

/-- The pipe as a ring of messages. -/
def Pipe.ring (pipe : Pipe) : LazyRing Message where
  slots k := messageAt pipe.fp.buffer (pipeSize * k)
  off := pipe.fp.off / pipeSize
  off2 := pipe.fp.off2 / pipeSize

theorem pipe_size_pos : 0 < pipeSize := Nat.zero_lt_succ 15

/-- An end of the pipe stands where the end of the ring does. -/
theorem offset_after_ring (n : Nat) : offsetAfter n = pipeSize * LazyRing.offsetAfter 512 n := by
  rw [offsetAfter, LazyRing.offsetAfter, mul_ite, Nat.mul_zero]

theorem PipeInv.ring_off (h : PipeInv pipe) : pipe.fp.off = pipeSize * pipe.ring.off := by
  show _ = pipeSize * (pipe.fp.off / pipeSize)
  rw [h.off, offset_after_ring, Nat.mul_div_cancel_left _ pipe_size_pos]

theorem PipeInv.ring_off2 (h : PipeInv pipe) : pipe.fp.off2 = pipeSize * pipe.ring.off2 := by
  show _ = pipeSize * (pipe.fp.off2 / pipeSize)
  rw [h.off2, offset_after_ring, Nat.mul_div_cancel_left _ pipe_size_pos]

/-- The ring holds the messages that were written and not delivered. -/
theorem PipeInv.queue (h : PipeInv pipe) :
    pipe.ring.Queue 512 pipe.written pipe.delivered.length where
  off := Nat.eq_of_mul_eq_mul_left pipe_size_pos
    (h.ring_off.symm.trans (h.off.trans (offset_after_ring _)))
  off2 := Nat.eq_of_mul_eq_mul_left pipe_size_pos
    (h.ring_off2.symm.trans (h.off2.trans (offset_after_ring _)))
  le := h.order.length_le
  room := h.room
  unread := h.unread

theorem PipeInv.at_end_iff (h : PipeInv pipe) : AtBufferEnd pipe.fp ↔ pipe.ring.AtEnd 512 := by
  rw [AtBufferEnd, LazyRing.AtEnd, h.ring_off, h.ring_off2, h.bsize]
  simp only [pipeSize, bufsiz]
  omega

/-- The wrapped offset of an end is that of the ring. -/
theorem wrapped_message_offset (pos : Nat) :
    (if pipeSize * pos ≥ bufsiz then 0 else pipeSize * pos) = pipeSize * LazyRing.wrap 512 pos :=
  LazyRing.mul_wrap pipe_size_pos 512 pos

theorem PipeInv.write_offset (h : PipeInv pipe) :
    writeOffset pipe.fp = pipeSize * (pipe.written.length % 512) := by
  rw [writeOffset, h.bsize, h.ring_off, wrapped_message_offset, h.queue.write_slot]

theorem PipeInv.read_offset (h : PipeInv pipe) :
    readOffset pipe.fp = pipeSize * LazyRing.wrap 512 pipe.ring.off2 := by
  rw [readOffset, h.bsize, h.ring_off2, wrapped_message_offset]

/-- A write puts its message behind the unread ones and leaves their slots alone. -/
theorem write_inv (h : PipeInv pipe) (writer : Writer) (buf : Bytes)
    (hroom : pipe.HasRoom (.write writer buf)) : PipeInv (pipe.call (.write writer buf)) := by
  have hwrite := writer_write_eq writer buf pipe.fp h.level (by rw [h.bsize]; decide)
  rw [h.write_offset] at hwrite
  have hslot : pipe.written.length % 512 < 512 := Nat.mod_lt _ (Nat.zero_lt_succ 511)
  have hnew : pipe.written.length + 1 < pipe.delivered.length + 512 := by
    simp only [Pipe.HasRoom, pipeSize, bufsiz] at hroom
    omega
  have hput := h.queue.put hnew (messageAt buf 0)
  constructor
  case level => simp only [Pipe.call, hwrite, h.level]
  case bsize => simp only [Pipe.call, hwrite, h.bsize]
  case off =>
      simp only [Pipe.call, hwrite, List.length_append, List.length_singleton, offset_after_ring,
        LazyRing.offset_after_succ, pipeSize]
      omega
  case off2 => simp only [Pipe.call, hwrite, h.off2]
  case order => exact h.order.trans (List.prefix_append _ _)
  case room => exact hput.room
  case unread =>
      intro k hlow hhigh
      refine Eq.trans ?_ (hput.unread k hlow hhigh)
      -- the message in a slot of the buffer is the one in the slot of the ring
      show messageAt ((pipe.call (.write writer buf)).fp.buffer) (pipeSize * (k % 512)) =
        Function.update pipe.ring.slots (LazyRing.wrap 512 pipe.ring.off) (messageAt buf 0) (k % 512)
      simp only [Pipe.call, hwrite]
      rw [h.queue.write_slot]
      by_cases hsame : k % 512 = pipe.written.length % 512
      · rw [hsame, Function.update_self, message_at_copy]
      · rw [Function.update_of_ne hsame]
        funext i
        have hbyte := i.isLt
        refine copy_bytes_outside ?_
        simp only [pipeSize]
        omega

/-- A read is the read of the ring. -/
theorem PipeInv.read_eq (h : PipeInv pipe) (reader : Reader) (buf : Bytes) :
    reader.read buf pipe.fp = ((pipe.ring.get 512).1,
      { pipe.fp with off2 := pipeSize * (pipe.ring.get 512).2.off2 }) := by
  have hslot : LazyRing.wrap 512 pipe.ring.off2 < 512 := by
    rw [h.queue.read_slot]
    exact Nat.mod_lt _ (Nat.zero_lt_succ 511)
  have hempty : pipe.fp.off = pipeSize * LazyRing.wrap 512 pipe.ring.off2 ↔
      pipe.ring.off = LazyRing.wrap 512 pipe.ring.off2 := by
    rw [h.ring_off, Nat.mul_right_inj pipe_size_pos.ne']
  have hnext : (pipeSize * LazyRing.wrap 512 pipe.ring.off2 + pipeSize) % 2 ^ 32 =
      pipeSize * (LazyRing.wrap 512 pipe.ring.off2 + 1) := by
    simp only [pipeSize]
    omega
  rw [reader_read_eq, h.read_offset, LazyRing.get, hnext]
  by_cases hnone : pipe.ring.off = LazyRing.wrap 512 pipe.ring.off2
  · rw [if_pos (hempty.mpr hnone), if_pos hnone]
  · rw [if_neg (mt hempty.mp hnone), if_neg hnone]
    rfl

/-- Outside the end of the buffer a read waits exactly when no message is unread. -/
theorem read_waits_iff (h : PipeInv pipe) (hend : ¬ AtBufferEnd pipe.fp) (reader : Reader)
    (buf : Bytes) :
    (reader.read buf pipe.fp).1 = none ↔ pipe.delivered.length = pipe.written.length := by
  rw [h.read_eq]
  exact h.queue.get_none_iff (mt h.at_end_iff.mpr hend)

/-- Outside the end of the buffer a read keeps the invariant. -/
theorem read_inv (h : PipeInv pipe) (hend : ¬ AtBufferEnd pipe.fp) (reader : Reader)
    (buf : Bytes) : PipeInv (pipe.call (.read reader buf)) := by
  have hread := h.read_eq reader buf
  rcases Nat.eq_or_lt_of_le h.order.length_le with hall | hlt
  · -- nothing is unread: the read waits and leaves the offset where it is
    rw [h.queue.get_empty (mt h.at_end_iff.mpr hend) hall, ← h.ring_off2] at hread
    have hcall : pipe.call (.read reader buf) = pipe := by
      simp only [Pipe.call, hread, Option.toList_none, List.append_nil]
    rwa [hcall]
  · obtain ⟨hnext, hqueue⟩ := h.queue.get hlt
    have hdelivered : pipe.delivered ++ [pipe.written[pipe.delivered.length]] =
        pipe.written.take (pipe.delivered.length + 1) := by
      rw [List.take_add_one, ← List.prefix_iff_eq_take.mp h.order]
      simp [hlt]
    rw [hnext] at hread
    have hlength : (pipe.call (.read reader buf)).delivered.length = pipe.delivered.length + 1 := by
      simp only [Pipe.call, hread, Option.toList_some, List.length_append, List.length_singleton]
    constructor
    case level => simp only [Pipe.call, hread, h.level]
    case bsize => simp only [Pipe.call, hread, h.bsize]
    case off => simp only [Pipe.call, hread, h.off]
    case off2 =>
        rw [hlength, offset_after_ring, ← hqueue.off2]
        simp only [Pipe.call, hread]
    case order =>
        simp only [Pipe.call, hread, Option.toList_some, hdelivered]
        exact List.take_prefix _ _
    case room =>
        rw [hlength]
        exact hqueue.room
    case unread =>
        intro k hlow hhigh
        rw [hlength] at hlow
        simp only [Pipe.call, hread]
        exact h.unread k (by omega) hhigh

/-- Outside the end of the buffer a read delivers one more message if one is unread. -/
theorem read_delivers (h : PipeInv pipe) (hend : ¬ AtBufferEnd pipe.fp) (reader : Reader)
    (buf : Bytes) (hlt : pipe.delivered.length < pipe.written.length) :
    (pipe.call (.read reader buf)).delivered.length = pipe.delivered.length + 1 := by
  have hsome : (reader.read buf pipe.fp).1 ≠ none := by
    rw [Ne, read_waits_iff h hend]
    omega
  obtain ⟨message, hmessage⟩ := Option.ne_none_iff_exists'.mp hsome
  simp [Pipe.call, hmessage]

/-- A read with both offsets at the end of the buffer returns a message although every written
message has been read. -/
theorem read_at_buffer_end (h : PipeInv pipe) (hend : AtBufferEnd pipe.fp) (reader : Reader)
    (buf : Bytes) :
    pipe.delivered = pipe.written ∧ (reader.read buf pipe.fp).1 ≠ none := by
  obtain ⟨hall, hsome⟩ := h.queue.get_at_end (h.at_end_iff.mp hend)
  refine ⟨h.order.eq_of_length hall, fun hnone => ?_⟩
  rw [h.read_eq, hsome] at hnone
  cases hnone

end Calls

/-- Every step of a safe run keeps the invariant. -/
theorem safe_step_inv {pipe next : Pipe} (call : Call) (h : PipeInv pipe)
    (hgood : pipe.HasRoom call ∧ pipe.Avoids call) (hstep : PipeStep pipe call next) :
    PipeInv next := by
  obtain rfl := hstep
  cases call with
  | write writer buf => exact write_inv h writer buf hgood.1
  | read reader buf => exact read_inv h hgood.2 reader buf

/-- The invariant holds in every state of a safe run. -/
theorem safe_run_inv {heap : Bytes} {pipe : Pipe} (hrun : SafePipeRun (Pipe.opened heap) pipe) :
    PipeInv pipe :=
  Run.invariant _ hrun (pipe_inv_opened heap) fun _ call _ h hgood hstep =>
    safe_step_inv call h hgood hstep

/-- A safe run in which `n` messages are each read with `pipe_read_2x` right after they were
written. -/
theorem exchanges_run (heap : Bytes) (n : Nat) :
    ∃ pipe, SafePipeRun (Pipe.opened heap) pipe ∧ pipe.written.length = n ∧
      pipe.delivered.length = n := by
  induction n with
  | zero => exact ⟨Pipe.opened heap, Run.refl, rfl, rfl⟩
  | succ n ih =>
      obtain ⟨pipe, hrun, hwritten, hdelivered⟩ := ih
      have hroom : pipe.HasRoom (.write .user fun _ => 0#8) := by
        simp [Pipe.HasRoom, hwritten, hdelivered, pipeSize, bufsiz]
      have hwrite := hrun.snoc (.write .user fun _ => 0#8) ⟨hroom, trivial⟩ rfl
      generalize hafter : pipe.call (.write .user fun _ => 0#8) = after at hwrite
      have hlength : after.written.length = n + 1 := by
        simp [← hafter, Pipe.call, hwritten]
      have hpending : after.delivered.length = n := by
        rw [← hafter, ← hdelivered]
        rfl
      have h := safe_run_inv hwrite
      have hend : ¬ AtBufferEnd after.fp := fun hend => by
        have := congrArg List.length (read_at_buffer_end h hend .user2x fun _ => 0#8).1
        omega
      refine ⟨_, hwrite.snoc (.read .user2x fun _ => 0#8) ⟨trivial, hend⟩ rfl, hlength, ?_⟩
      rw [read_delivers h hend _ _ (by omega), hpending]

end Sirius.Stdio
