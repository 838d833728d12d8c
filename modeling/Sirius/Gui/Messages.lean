import Mathlib.Tactic
import Sirius.Library.Runs

/-!
# The message queue of the GUI

`user/gui/message.c` keeps messages in a buffer of `MSG_MAX` cells. A write that finds the buffer
used up starts again at its first cell, whether the messages in it were read or not. A read only
looks whether anything was written since the last start, not whether a message is left, so a read
of an empty queue steps over the cell of the next message.
-/

namespace Sirius.Gui

open Library

/-- `MSG_MAX` -/
def msgMax : Nat := 10

/-- `MSG_T` -/
structure Msg where
  (offset1 offset2 size : Nat)
  buf : Nat → BitVec 32

/-- `msg_write` -/
def msgWrite (id : BitVec 32) (msg : Msg) : Msg :=
  let msg :=
    if msg.offset1 ≥ msgMax then { msg with offset2 := 0, offset1 := 0, size := 0 } else msg
  { msg with
    buf := Function.update msg.buf msg.offset1 id
    offset1 := msg.offset1 + 1
    size := msg.size + 1 }

/-- `msg_read`: its result and the queue after it. -/
def msgRead (msg : Msg) : BitVec 32 × Msg :=
  if msg.size < 1 then (0#32, msg)
  else
    let offset2 := if msg.offset2 ≥ msgMax then 0 else msg.offset2
    (msg.buf offset2,
      { msg with buf := Function.update msg.buf offset2 0#32, offset2 := offset2 + 1 })

/-- `msg_init` -/
def msgInit (msg : Msg) : Msg := { msg with offset2 := 0, offset1 := 0, size := 0 }

/-! ### Histories -/

/-- The calls. -/
inductive MsgCall where
  | write (id : BitVec 32)
  | read
  | init

/-- The queue, with what was written and the results that were not 0 since the last `msg_init`. -/
structure MsgHistory where
  msg : Msg
  (written returned : List (BitVec 32))

namespace MsgHistory

/-- Nothing was called yet. -/
def start : MsgHistory := ⟨⟨0, 0, 0, fun _ => 0#32⟩, [], []⟩

/-- One call. -/
def call (h : MsgHistory) : MsgCall → MsgHistory
  | .write id => ⟨msgWrite id h.msg, h.written ++ [id], h.returned⟩
  | .read =>
      ⟨(msgRead h.msg).2, h.written,
        if (msgRead h.msg).1 = 0#32 then h.returned else h.returned ++ [(msgRead h.msg).1]⟩
  | .init => ⟨msgInit h.msg, [], []⟩

def Step (h : MsgHistory) (c : MsgCall) (h' : MsgHistory) : Prop := h' = h.call c

/-- The messages that were written and not yet returned. -/
def unread (h : MsgHistory) : List (BitVec 32) := h.written.drop h.returned.length

/-- The results are the messages in the order of the writes, and the next `msg_read` returns 0
exactly when no message is unread. -/
def Fifo (h : MsgHistory) : Prop :=
  h.returned <+: h.written ∧ ((msgRead h.msg).1 = 0#32 ↔ h.unread = [])

/-- A message is not 0 and is not written over unread messages at the end of the buffer; an empty
queue is read only when nothing was written since `msg_init` or when its buffer is used up. -/
def InStep (h : MsgHistory) : MsgCall → Prop
  | .write id => id ≠ 0#32 ∧ (h.msg.offset1 < msgMax ∨ h.unread = [])
  | .read => h.unread ≠ [] ∨ h.msg.size = 0 ∨ msgMax ≤ h.msg.offset1
  | .init => True

end MsgHistory

/-- The cells of the queue hold the messages. -/
structure HoldsMessages (msg : Msg) (messages : List (BitVec 32)) : Prop where
  inBuffer : msg.offset1 ≤ msgMax
  counted : msg.size = msg.offset1
  nonzero : 0#32 ∉ messages
  cells : (msg.offset2 + messages.length = msg.offset1 ∧
      (∀ k (hk : k < messages.length), msg.buf (msg.offset2 + k) = messages[k]) ∧
        ∀ i < msg.offset2, msg.buf i = 0#32) ∨
    (msg.offset1 = msgMax ∧ messages = [] ∧ ∀ i < msgMax, msg.buf i = 0#32)

variable {msg : Msg} {messages : List (BitVec 32)} {id : BitVec 32} {h h' : MsgHistory}
  {c : MsgCall}

namespace HoldsMessages

/-- A queue that starts at its first cell. -/
theorem restart (msg : Msg) : HoldsMessages (msgInit msg) [] where
  inBuffer := Nat.zero_le _
  counted := rfl
  nonzero := List.not_mem_nil
  cells := .inl ⟨rfl, fun _ hk => absurd hk (Nat.not_lt_zero _), fun _ hi =>
    absurd hi (Nat.not_lt_zero _)⟩

/-- A write behind the last message. -/
theorem append (h : HoldsMessages msg messages) (hid : id ≠ 0#32) (hroom : msg.offset1 < msgMax) :
    HoldsMessages (msgWrite id msg) (messages ++ [id]) := by
  obtain ⟨hplace, hcells, hread⟩ | ⟨hfull, -, -⟩ := h.cells
  · have hmsg : msgWrite id msg = ⟨msg.offset1 + 1, msg.offset2, msg.size + 1,
        Function.update msg.buf msg.offset1 id⟩ := by
      rw [msgWrite, if_neg (Nat.not_le_of_lt hroom)]
    rw [hmsg]
    refine ⟨hroom, congrArg (· + 1) h.counted, ?_, .inl ⟨?_, fun k hk => ?_, fun i hi => ?_⟩⟩
    · rw [List.mem_append, List.mem_singleton, not_or]
      exact ⟨h.nonzero, hid.symm⟩
    · rw [List.length_append, List.length_singleton, ← Nat.add_assoc, hplace]
    · rcases Nat.lt_or_ge k messages.length with hlt | hge
      · have hne : msg.offset2 + k ≠ msg.offset1 := by omega
        rw [List.getElem_append_left hlt]
        exact (Function.update_of_ne hne ..).trans (hcells k hlt)
      · obtain rfl : k = messages.length := by
          rw [List.length_append, List.length_singleton] at hk
          omega
        rw [List.getElem_concat_length rfl]
        dsimp only
        rw [hplace, Function.update_self]
    · have hlt : i < msg.offset2 := hi
      have hne : i ≠ msg.offset1 := by omega
      exact (Function.update_of_ne hne ..).trans (hread i hlt)
  · exact absurd hfull hroom.ne

/-- A write when the buffer is used up and all messages were read. -/
theorem wrap (hid : id ≠ 0#32) (hfull : msgMax ≤ msg.offset1) :
    HoldsMessages (msgWrite id msg) [id] := by
  have hmsg : msgWrite id msg = msgWrite id (msgInit msg) := by
    rw [msgWrite, if_pos hfull]
    rfl
  rw [hmsg]
  exact (restart msg).append hid (Nat.succ_pos 9)

/-- A read of a message. -/
theorem pop (h : HoldsMessages msg (id :: messages)) :
    (msgRead msg).1 = id ∧ HoldsMessages (msgRead msg).2 messages := by
  obtain ⟨hplace, hcells, hread⟩ | ⟨-, hnil, -⟩ := h.cells
  · rw [List.length_cons] at hplace
    have hsize : ¬ msg.size < 1 := by
      have := h.counted
      omega
    have hoffset : ¬ msg.offset2 ≥ msgMax := by
      have := h.inBuffer
      omega
    have hmsg : msgRead msg = (msg.buf msg.offset2, ⟨msg.offset1, msg.offset2 + 1, msg.size,
        Function.update msg.buf msg.offset2 0#32⟩) := by
      rw [msgRead, if_neg hsize, if_neg hoffset]
    rw [hmsg]
    refine ⟨hcells 0 (Nat.succ_pos _), h.inBuffer, h.counted,
      fun hmem => h.nonzero (List.mem_cons_of_mem _ hmem), .inl ⟨?_, fun k hk => ?_, fun i hi => ?_⟩⟩
    · dsimp only
      omega
    · have hcell := hcells (k + 1) (Nat.succ_lt_succ hk)
      rw [List.getElem_cons_succ] at hcell
      have hne : msg.offset2 + 1 + k ≠ msg.offset2 := by omega
      have hsame : msg.offset2 + 1 + k = msg.offset2 + (k + 1) := by omega
      rw [← hcell, ← hsame]
      exact Function.update_of_ne hne ..
    · rcases Nat.eq_or_lt_of_le (Nat.le_of_lt_succ hi) with rfl | hlt
      · exact Function.update_self ..
      · exact (Function.update_of_ne hlt.ne ..).trans (hread i hlt)
  · exact absurd hnil (List.cons_ne_nil _ _)

/-- A read of an empty queue that leaves it in order. -/
theorem empty (h : HoldsMessages msg []) (hin : msg.size = 0 ∨ msgMax ≤ msg.offset1) :
    (msgRead msg).1 = 0#32 ∧ HoldsMessages (msgRead msg).2 [] := by
  rcases hin with hsize | hfull
  · have hmsg : msgRead msg = (0#32, msg) := if_pos (by omega)
    rw [hmsg]
    exact ⟨rfl, h⟩
  · have hend : msg.offset1 = msgMax := Nat.le_antisymm h.inBuffer hfull
    have hzero : ∀ i < msgMax, msg.buf i = 0#32 := by
      obtain ⟨hplace, -, hread⟩ | ⟨-, -, hzero⟩ := h.cells
      · intro i hi
        rw [List.length_nil, Nat.add_zero] at hplace
        exact hread i (by omega)
      · exact hzero
    have hsize : ¬ msg.size < 1 := by
      rw [h.counted, hend]
      decide
    rw [msgRead, if_neg hsize]
    generalize hoffset : (if msg.offset2 ≥ msgMax then 0 else msg.offset2) = offset2
    have hlt : offset2 < msgMax := by
      rw [← hoffset]
      split
      · decide
      · omega
    refine ⟨hzero offset2 hlt, h.inBuffer, h.counted, h.nonzero, .inr ⟨hend, rfl, fun i hi => ?_⟩⟩
    rcases eq_or_ne i offset2 with rfl | hne
    · exact Function.update_self ..
    · exact (Function.update_of_ne hne ..).trans (hzero i hi)

end HoldsMessages

/-! ### Runs -/

/-- The unread messages lie in the queue. -/
structure InOrder (h : MsgHistory) : Prop where
  holds : HoldsMessages h.msg h.unread
  returned : h.written = h.returned ++ h.unread

theorem InOrder.of_append (messages : List (BitVec 32))
    (hwritten : h.written = h.returned ++ messages)
    (hmsg : HoldsMessages h.msg messages) : InOrder h := by
  have hunread : h.unread = messages := by
    rw [MsgHistory.unread, hwritten, List.drop_left]
  exact ⟨hunread ▸ hmsg, by rw [hunread, hwritten]⟩

/-- A call that meets the condition keeps the order. -/
theorem InOrder.call (h : MsgHistory) (horder : InOrder h) (hin : h.InStep c) :
    InOrder (h.call c) := by
  cases c with
  | write id =>
      obtain ⟨hid, hroom⟩ := hin
      refine InOrder.of_append (h.unread ++ [id]) ?_ ?_
      · exact (congrArg (· ++ [id]) horder.returned).trans (List.append_assoc ..)
      · rcases Nat.lt_or_ge h.msg.offset1 msgMax with hlt | hge
        · exact horder.holds.append hid hlt
        · rw [hroom.resolve_left (Nat.not_lt_of_le hge)]
          exact HoldsMessages.wrap hid hge
  | read =>
      cases hunread : h.unread with
      | nil =>
          obtain ⟨hzero, hmsg⟩ := (hunread ▸ horder.holds).empty
            (hin.resolve_left fun hne => hne hunread)
          refine InOrder.of_append [] ?_ hmsg
          have hwritten := horder.returned
          rw [hunread] at hwritten
          rw [MsgHistory.call, if_pos hzero]
          exact hwritten
      | cons id messages =>
          have hholds := hunread ▸ horder.holds
          obtain ⟨hid, hmsg⟩ := hholds.pop
          have hne : (msgRead h.msg).1 ≠ 0#32 := fun hzero =>
            hholds.nonzero (hzero ▸ hid ▸ List.mem_cons_self)
          refine InOrder.of_append messages ?_ hmsg
          have hwritten := horder.returned
          rw [hunread] at hwritten
          rw [MsgHistory.call, if_neg hne, hid, List.append_assoc]
          exact hwritten
  | init => exact InOrder.of_append [] rfl (HoldsMessages.restart _)

/-- In order, the results are those of a queue; a read that meets the condition returns 0 exactly
when no message is unread. -/
theorem InOrder.fifo (horder : InOrder h) :
    h.returned <+: h.written ∧
      (h.InStep .read → ((msgRead h.msg).1 = 0#32 ↔ h.unread = [])) := by
  refine ⟨⟨h.unread, horder.returned.symm⟩, fun hin => ?_⟩
  cases hunread : h.unread with
  | nil =>
      exact iff_of_true ((hunread ▸ horder.holds).empty
        (hin.resolve_left fun hne => hne hunread)).1 rfl
  | cons id messages =>
      have hholds := hunread ▸ horder.holds
      refine iff_of_false (fun hzero => hholds.nonzero ?_) (List.cons_ne_nil _ _)
      rw [← hzero, hholds.pop.1]
      exact List.mem_cons_self

/-- Along every run whose calls meet the condition, the results are those of a queue. -/
theorem messages_fifo (hrun : Run MsgHistory.Step MsgHistory.InStep .start h) :
    h.returned <+: h.written ∧
      (h.InStep .read → ((msgRead h.msg).1 = 0#32 ↔ h.unread = [])) := by
  have hstart : InOrder .start :=
    InOrder.of_append [] rfl (HoldsMessages.restart MsgHistory.start.msg)
  refine (hrun.invariant InOrder hstart fun h c h' horder hin hstep => ?_).fifo
  rw [hstep]
  exact InOrder.call h horder hin

/-- Two messages are written and returned, with a read of the empty queue behind them. -/
theorem messages_fifo_two :
    ((((MsgHistory.start.call (.write 5#32)).call (.write 7#32)).call .read).call .read).returned <+:
      [5#32, 7#32] := by
  have hfirst : MsgHistory.start.InStep (.write 5#32) := ⟨by decide, .inr rfl⟩
  have hsecond : (MsgHistory.start.call (.write 5#32)).InStep (.write 7#32) :=
    ⟨by decide, .inl (by decide)⟩
  have hthird : ((MsgHistory.start.call (.write 5#32)).call (.write 7#32)).InStep .read :=
    .inl (by decide)
  have hfourth : (((MsgHistory.start.call (.write 5#32)).call (.write 7#32)).call .read).InStep
      .read := .inl (by decide)
  exact (messages_fifo ((((Run.refl.snoc _ hfirst rfl).snoc _ hsecond rfl).snoc _ hthird rfl).snoc _
    hfourth rfl)).1

/-- Few messages are unread, and none is 0. -/
def MsgHistory.FewUnread (h : MsgHistory) (c : MsgCall) : Prop :=
  (h.call c).unread.length < msgMax ∧ c ≠ .write 0#32

/-- A read of the empty queue makes the next read pass over the next message. -/
theorem message_passed_over :
    ¬ ∀ h, Run MsgHistory.Step MsgHistory.FewUnread .start h → h.Fifo := by
  intro hall
  have hrun : Run MsgHistory.Step MsgHistory.FewUnread .start
      ((((MsgHistory.start.call (.write 5#32)).call .read).call .read).call (.write 7#32)) :=
    (((Run.refl.snoc (.write 5#32) ⟨by decide, by simp⟩ rfl).snoc .read ⟨by decide, by simp⟩
      rfl).snoc .read ⟨by decide, by simp⟩ rfl).snoc (.write 7#32) ⟨by decide, by simp⟩ rfl
  have hread := (hall _ hrun).2.mp (by decide)
  exact absurd hread (by decide)

end Sirius.Gui
