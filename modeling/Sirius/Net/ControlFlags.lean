import Sirius.Library.Runs
import Sirius.Net.SocketTransmit

/-!
# Control flags of a stream socket

One socket shared by a program that calls `send` and `shutdown` of the user library, by the loop
that calls `socket_server_transmit`, and by the segments that arrive. Each store of a library call
is a step of its own. `protocol_flags` is both where a call stores the flags of its segment and
where the receive path stores those of a segment that arrived, so a segment carries what its call
stored unless a segment with other flags is put into the receive buffer in between.
-/

namespace Sirius.Net

open Library

/-- The point in a library call: the next statement that it executes. -/
inductive LibraryCall where
  | idle
  | sendWait (message : Bytes) (length : Nat)
  | sendLength (message : Bytes) (length : Nat)
  | sendCopy (message : Bytes) (length : Nat)
  | sendFlags (message : Bytes) (length : Nat)
  | sendTransmit (message : Bytes) (length : Nat)
  | sendPoll (message : Bytes) (length : Nat)
  | shutdownWait
  | shutdownFlags
  | shutdownLength
  | shutdownTransmit
  | shutdownPoll
  | shutdownConnect
  | shutdownClear

/-- What a call stores for its segment. -/
structure Request where
  flags : BitVec 8
  message : Bytes
  length : Nat

/-- `TCP_PSH | TCP_ACK`, the flags that `send` stores. -/
def sendRequest (message : Bytes) (length : Nat) : Request :=
  ⟨tcpFlagPsh ||| tcpFlagAck, message, length⟩

/-- `TCP_FIN | TCP_ACK` and no payload, what `shutdown` stores. -/
def shutdownRequest : Request := ⟨tcpFlagFin ||| tcpFlagAck, noData, 0⟩

/-- The checks of `send` before it waits. -/
def KernelSocket.sendable (fd : KernelSocket) : Bool :=
  fd.bound ∧ fd.destIp ||| fd.destPort.setWidth 32 ≠ 0#32

/-- The next statement of a call. The loops that wait for the flag 1 stay where they are. -/
def LibraryCall.next (fd : KernelSocket) : LibraryCall → LibraryCall × KernelSocket
  | .idle => (.idle, fd)
  | .sendWait m n => if fd.pending then (.sendWait m n, fd) else (.sendLength m n, fd)
  | .sendLength m n => (.sendCopy m n, { fd with length2 := n })
  | .sendCopy m n => (.sendFlags m n, { fd with buf2 := copyBytes fd.buf2 0 m 0 n })
  | .sendFlags m n => (.sendTransmit m n, { fd with protocolFlags := tcpFlagPsh ||| tcpFlagAck })
  | .sendTransmit m n => (.sendPoll m n, { fd with flags := fd.flags ||| 1#8 })
  | .sendPoll m n => if fd.pending then (.sendPoll m n, fd) else (.idle, fd)
  | .shutdownWait =>
      if fd.pending then (.shutdownWait, fd)
      else if fd.type = sockStream ∧ fd.connect &&& 1#8 ≠ 0#8 then (.shutdownFlags, fd)
      else (.shutdownClear, fd)
  | .shutdownFlags => (.shutdownLength, { fd with protocolFlags := tcpFlagFin ||| tcpFlagAck })
  | .shutdownLength => (.shutdownTransmit, { fd with length2 := 0 })
  | .shutdownTransmit => (.shutdownPoll, { fd with flags := fd.flags ||| 1#8 })
  | .shutdownPoll => if fd.pending then (.shutdownPoll, fd) else (.shutdownConnect, fd)
  | .shutdownConnect => (.shutdownClear, { fd with connect := 0#8 })
  | .shutdownClear => (.idle, { fd with flags := 0#8 })

/-- The request that the next statement makes, by setting the flag 1. -/
def LibraryCall.submits : LibraryCall → Option Request
  | .sendTransmit m n => some (sendRequest m n)
  | .shutdownTransmit => some shutdownRequest
  | _ => none

/-- The request that was made and that the call waits for. -/
def LibraryCall.awaits : LibraryCall → Option Request
  | .sendPoll m n => some (sendRequest m n)
  | .shutdownPoll => some shutdownRequest
  | _ => none

/-- The socket, the call in progress, the requests made so far and the segments sent so far. -/
structure StreamState where
  fd : KernelSocket
  call : LibraryCall
  requests : List Request
  sent : List Sent

/-- What happens at the socket. The counter of the ports and the address of the host are any, and
`recv` stands for the store with which a program takes a packet out of the receive buffer. -/
inductive StreamEvent where
  | send (message : Bytes) (length : Nat)
  | shutdown
  | step
  | transmit (yourIp : BitVec 32) (port : BitVec 16)
  | arrive (p : Packet)
  | recv

/-- A packet is put into the receive buffer: the socket is bound to its port and has room. -/
def KernelSocket.takes (fd : KernelSocket) (p : Packet) : Bool :=
  fd.toSocket.accepts p.destPort && !fd.full

/-- `socket_server_receive` and `socket_server_receive_offline` at the socket. -/
def KernelSocket.receive (fd : KernelSocket) (p : Packet) : KernelSocket :=
  if fd.takes p then { fd with toSocket := fd.toSocket.fill p } else fd

/-- The state after an event. A call begins when none is in progress. -/
def StreamState.after (s : StreamState) : StreamEvent → StreamState
  | .send message length =>
      match s.call with
      | .idle => if s.fd.sendable then { s with call := .sendWait message length } else s
      | _ => s
  | .shutdown =>
      match s.call with
      | .idle => if s.fd.bound then { s with call := .shutdownWait } else s
      | _ => s
  | .step =>
      { s with
        fd := (s.call.next s.fd).2
        call := (s.call.next s.fd).1
        requests := s.requests ++ s.call.submits.toList }
  | .transmit yourIp port =>
      let (sent, fd, _) := transmitSocket yourIp port s.fd
      { s with fd := fd, sent := s.sent ++ sent.toList }
  | .arrive p => { s with fd := s.fd.receive p }
  | .recv => { s with fd := { s.fd with toSocket := s.fd.toSocket.clean } }

/-- A step of the socket. -/
def StreamStep (s : StreamState) (e : StreamEvent) (s' : StreamState) : Prop := s' = s.after e

/-- The flags that the call in progress has stored and that were not sent yet. -/
def StreamState.stored (s : StreamState) : Option (BitVec 8) :=
  match s.call with
  | .sendTransmit _ _ => some (tcpFlagPsh ||| tcpFlagAck)
  | .shutdownLength | .shutdownTransmit => some (tcpFlagFin ||| tcpFlagAck)
  | .sendPoll _ _ => if s.fd.pending then some (tcpFlagPsh ||| tcpFlagAck) else none
  | .shutdownPoll => if s.fd.pending then some (tcpFlagFin ||| tcpFlagAck) else none
  | _ => none

/-- No TCP segment with other flags is put into the receive buffer between the store of the flags
and the transmission. -/
def StreamState.Quiet (s : StreamState) : StreamEvent → Prop
  | .arrive p => s.fd.takes p = true → p.protocol = ipProtocolTcp →
      ∀ flags, s.stored = some flags → p.flags = flags
  | _ => True

/-- The runs without such a segment. -/
def QuietRun : StreamState → StreamState → Prop := Run StreamStep fun s e => s.Quiet e

/-- A stream socket that `socket` made, with no transmission pending. -/
structure StreamState.Fresh (s : StreamState) : Prop where
  stream : s.fd.type = sockStream
  known : s.fd.known = true
  clear : s.fd.pending = false
  call : s.call = .idle
  requests : s.requests = []
  sent : s.sent = []

/-- A segment carries the flags and the payload of a request. -/
def Request.CarriedBy (r : Request) (segment : Sent) : Prop :=
  ∃ srcIp destIp srcPort destPort buf,
    segment = .tcpSendPayload srcIp destIp srcPort destPort r.flags buf r.length ∧
      ∀ i < r.length, buf i = r.message i

/-- The segments sent are those of the first requests, in their order. -/
def StreamState.InOrder (s : StreamState) : Prop :=
  s.sent.length ≤ s.requests.length ∧ ∀ (k : Nat) segment, s.sent[k]? = some segment →
    ∃ r, s.requests[k]? = some r ∧ r.CarriedBy segment

variable {s s' : StreamState} {fd : KernelSocket} {r : Request} {p : Packet}

/-! ### The invariant -/

/-- The fields of the socket hold a request. -/
structure Request.StoredIn (r : Request) (fd : KernelSocket) : Prop where
  flags : fd.protocolFlags = r.flags
  length : fd.length2 = r.length
  payload : ∀ i < r.length, fd.buf2 i = r.message i

/-- What a call has stored at each point. -/
def LibraryCall.Stored (fd : KernelSocket) : LibraryCall → Prop
  | .sendCopy _ n => fd.length2 = n
  | .sendFlags m n => fd.length2 = n ∧ ∀ i < n, fd.buf2 i = m i
  | .sendTransmit m n => (sendRequest m n).StoredIn fd
  | .shutdownLength => fd.protocolFlags = tcpFlagFin ||| tcpFlagAck
  | .shutdownTransmit => shutdownRequest.StoredIn fd
  | _ => True

/-- A call in progress belongs to a socket that takes part, and what it stored is there. While a
transmission is pending, the last request is not sent and the call waits for it. -/
structure StreamInv (s : StreamState) : Prop where
  stream : s.fd.type = sockStream
  known : s.fd.known = true
  bound : s.call ≠ .idle → s.fd.bound = true
  stored : s.call.Stored s.fd
  pending : s.fd.pending = true → ∃ r, s.call.awaits = some r ∧ r.StoredIn s.fd ∧
    s.requests[s.sent.length]? = some r ∧ s.requests.length = s.sent.length + 1
  quiet : s.fd.pending = false → s.sent.length = s.requests.length
  order : s.InOrder

/-! ### Flags -/

theorem pending_receive (flags : BitVec 8) : (flags ||| 2#8) &&& 1#8 = flags &&& 1#8 := by
  revert flags
  decide

theorem bound_receive (flags : BitVec 8) : (flags ||| 2#8) &&& 0x80#8 = flags &&& 0x80#8 := by
  revert flags
  decide

theorem pending_clean (flags : BitVec 8) : (flags &&& ~~~2#8) &&& 1#8 = flags &&& 1#8 := by
  revert flags
  decide

theorem bound_clean (flags : BitVec 8) : (flags &&& ~~~2#8) &&& 0x80#8 = flags &&& 0x80#8 := by
  revert flags
  decide

/-! ### Arriving segments -/

theorem receive_pending (fd : KernelSocket) (p : Packet) :
    (fd.receive p).pending = fd.pending := by
  unfold KernelSocket.receive
  split
  · simp only [KernelSocket.pending, Socket.fill, pending_receive]
  · rfl

theorem receive_bound (fd : KernelSocket) (p : Packet) : (fd.receive p).bound = fd.bound := by
  unfold KernelSocket.receive
  split
  · simp only [KernelSocket.bound, Socket.fill, bound_receive]
  · rfl

theorem receive_flags (fd : KernelSocket) (p : Packet) :
    (fd.receive p).protocolFlags =
      if fd.takes p = true ∧ p.protocol = ipProtocolTcp then p.flags else fd.protocolFlags := by
  unfold KernelSocket.receive
  by_cases htakes : fd.takes p = true
  · simp only [htakes, if_true, true_and, Socket.fill]
  · simp only [htakes, if_false, false_and, Bool.false_eq_true]

/-- What the receive path leaves alone. -/
theorem receive_keeps (fd : KernelSocket) (p : Packet) :
    (fd.receive p).type = fd.type ∧ (fd.receive p).known = fd.known ∧
      (fd.receive p).length2 = fd.length2 ∧ (fd.receive p).buf2 = fd.buf2 := by
  unfold KernelSocket.receive
  split <;> exact ⟨rfl, rfl, rfl, rfl⟩

/-- The flags stored for a segment survive a packet that has the same ones. -/
theorem receive_kept {flags : BitVec 8} (hflags : fd.protocolFlags = flags)
    (hquiet : fd.takes p = true → p.protocol = ipProtocolTcp → p.flags = flags) :
    (fd.receive p).protocolFlags = flags := by
  rw [receive_flags]
  split
  · rename_i htcp
    exact hquiet htcp.1 htcp.2
  · exact hflags

theorem Request.StoredIn.receive (h : r.StoredIn fd)
    (hquiet : fd.takes p = true → p.protocol = ipProtocolTcp → p.flags = r.flags) :
    r.StoredIn (fd.receive p) := by
  obtain ⟨-, -, hlength, hbuf⟩ := receive_keeps fd p
  exact ⟨receive_kept h.flags hquiet, hlength.trans h.length, by rw [hbuf]; exact h.payload⟩

/-! ### Transmission -/

/-- A socket without a pending transmission sends nothing. -/
theorem transmit_idle (yourIp : BitVec 32) (port : BitVec 16) (h : fd.pending = false) :
    transmitSocket yourIp port fd = (none, fd, port) := by
  rw [transmitSocket, h, Bool.and_false]
  rfl

/-- The segment that a stream socket sends carries the flags and the payload in its fields. -/
theorem transmit_stream (yourIp : BitVec 32) (port : BitVec 16) (hbound : fd.bound = true)
    (hpending : fd.pending = true) (hstream : fd.type = sockStream) (hknown : fd.known = true)
    (hsyn : fd.protocolFlags ≠ tcpFlagSyn) :
    ∃ srcIp destIp srcPort destPort fd' port',
      transmitSocket yourIp port fd =
        (some (.tcpSendPayload srcIp destIp srcPort destPort fd.protocolFlags fd.buf2 fd.length2),
          fd', port') ∧
      fd'.flags = fd.flags &&& ~~~1#8 ∧ fd'.type = fd.type ∧ fd'.known = fd.known := by
  rw [transmitSocket, hbound, hpending, hknown]
  by_cases hport : htons fd.srcPort = 0#16
  · simp only [Bool.and_self, if_true, hport, KernelSocket.sends, if_false, hstream, hsyn]
    exact ⟨_, _, _, _, _, _, rfl, rfl, rfl, hknown⟩
  · simp only [Bool.and_self, if_true, hport, KernelSocket.sends, if_false, hstream, hsyn]
    exact ⟨_, _, _, _, _, _, rfl, rfl, rfl, hknown⟩

/-- A stream socket with a pending transmission sends, and only a request with the flags of the
socket is carried. -/
theorem transmit_carries (yourIp : BitVec 32) (port : BitVec 16) (hbound : fd.bound = true)
    (hpending : fd.pending = true) (hstream : fd.type = sockStream) (hknown : fd.known = true) :
    ∃ segment fd' port', transmitSocket yourIp port fd = (some segment, fd', port') ∧
      ∀ r : Request, r.CarriedBy segment → fd.protocolFlags = r.flags := by
  by_cases hsyn : fd.protocolFlags = tcpFlagSyn
  · have hconnect : ∃ srcIp destIp srcPort destPort fd' port',
        transmitSocket yourIp port fd =
          (some (.tcpConnect srcIp destIp srcPort destPort), fd', port') := by
      rw [transmitSocket, hbound, hpending, hknown]
      by_cases hport : htons fd.srcPort = 0#16
      · simp only [Bool.and_self, if_true, hport, KernelSocket.sends, hstream, hsyn]
        exact ⟨_, _, _, _, _, _, rfl⟩
      · simp only [Bool.and_self, if_true, hport, KernelSocket.sends, if_false, hstream, hsyn]
        exact ⟨_, _, _, _, _, _, rfl⟩
    obtain ⟨srcIp, destIp, srcPort, destPort, fd', port', hconnect⟩ := hconnect
    refine ⟨_, _, _, hconnect, fun r hcarried => ?_⟩
    obtain ⟨_, _, _, _, _, hsegment, -⟩ := hcarried
    cases hsegment
  · obtain ⟨srcIp, destIp, srcPort, destPort, fd', port', htransmit, -⟩ :=
      transmit_stream yourIp port hbound hpending hstream hknown hsyn
    refine ⟨_, _, _, htransmit, fun r hcarried => ?_⟩
    obtain ⟨_, _, _, _, _, hsegment, -⟩ := hcarried
    exact (Sent.tcpSendPayload.inj hsegment).2.2.2.2.1

/-! ### Steps -/

theorem stream_fresh_inv (h : s.Fresh) : StreamInv s where
  stream := h.stream
  known := h.known
  bound := fun hcall => absurd h.call hcall
  stored := by rw [h.call]; trivial
  pending := fun hpending => by rw [h.clear] at hpending; cases hpending
  quiet := fun _ => by rw [h.sent, h.requests]; rfl
  order := ⟨by rw [h.sent]; exact Nat.zero_le _, fun k segment hk => by
    rw [h.sent] at hk
    cases hk⟩

/-- A call that waits for its segment has stored nothing else. -/
theorem stored_of_awaits {call : LibraryCall} (h : call.awaits = some r) (fd : KernelSocket) :
    call.Stored fd := by
  cases call <;> trivial

/-- No request is a `TCP_SYN` segment, which goes out through `tcp_connect`. -/
theorem awaits_flags_ne_syn {call : LibraryCall} (h : call.awaits = some r) :
    r.flags ≠ tcpFlagSyn := by
  cases call with
  | sendPoll m n =>
      cases h
      exact show tcpFlagPsh ||| tcpFlagAck ≠ tcpFlagSyn by decide
  | shutdownPoll =>
      cases h
      exact show tcpFlagFin ||| tcpFlagAck ≠ tcpFlagSyn by decide
  | _ => cases h

/-- While the flag 1 is set, the stored flags are those of the request. -/
theorem stored_pending (hpending : s.fd.pending = true) (hawaits : s.call.awaits = some r) :
    s.stored = some r.flags := by
  unfold StreamState.stored
  cases hcall : s.call with
  | sendPoll m n =>
      rw [hcall] at hawaits
      cases hawaits
      rw [hpending]
      rfl
  | shutdownPoll =>
      rw [hcall] at hawaits
      cases hawaits
      rw [hpending]
      rfl
  | _ =>
      rw [hcall] at hawaits
      cases hawaits

/-- A packet with the stored flags, or one that is not put into the buffer, keeps the invariant. -/
theorem stream_arrive_inv (h : StreamInv s) (hquiet : s.Quiet (.arrive p)) :
    StreamInv (s.after (.arrive p)) := by
  obtain ⟨htype, hknown, hlength, hbuf⟩ := receive_keeps s.fd p
  constructor
  case stream => exact htype.trans h.stream
  case known => exact hknown.trans h.known
  case bound => exact fun hcall => (receive_bound s.fd p).trans (h.bound hcall)
  case stored =>
      have hstored := h.stored
      show s.call.Stored (s.fd.receive p)
      cases hcall : s.call with
      | sendCopy m n =>
          rw [hcall] at hstored
          exact hlength.trans hstored
      | sendFlags m n =>
          rw [hcall] at hstored
          exact ⟨hlength.trans hstored.1, by rw [hbuf]; exact hstored.2⟩
      | sendTransmit m n =>
          rw [hcall] at hstored
          refine Request.StoredIn.receive hstored fun htakes htcp => hquiet htakes htcp _ ?_
          rw [StreamState.stored, hcall]
          rfl
      | shutdownLength =>
          rw [hcall] at hstored
          refine receive_kept hstored fun htakes htcp => hquiet htakes htcp _ ?_
          rw [StreamState.stored, hcall]
      | shutdownTransmit =>
          rw [hcall] at hstored
          refine Request.StoredIn.receive hstored fun htakes htcp => hquiet htakes htcp _ ?_
          rw [StreamState.stored, hcall]
          rfl
      | _ => trivial
  case pending =>
      intro hpending
      have hpending : s.fd.pending = true := (receive_pending s.fd p).symm.trans hpending
      obtain ⟨r, hawaits, hstored, hlast⟩ := h.pending hpending
      exact ⟨r, hawaits, hstored.receive fun htakes htcp =>
        hquiet htakes htcp _ (stored_pending hpending hawaits), hlast⟩
  case quiet => exact fun hpending => h.quiet ((receive_pending s.fd p).symm.trans hpending)
  case order => exact h.order

/-- A pending request is sent as it was stored. -/
theorem stream_transmit_inv (h : StreamInv s) (yourIp : BitVec 32) (port : BitVec 16) :
    StreamInv (s.after (.transmit yourIp port)) := by
  cases hpending : s.fd.pending with
  | false =>
      simp only [StreamState.after, transmit_idle yourIp port hpending, Option.toList_none,
        List.append_nil]
      exact h
  | true =>
      -- the call that waits has stored the last request
      obtain ⟨r, hawaits, hstored, hlast, hcount⟩ := h.pending hpending
      have hcall : s.call ≠ .idle := fun hidle => by
        rw [hidle] at hawaits
        cases hawaits
      have hsyn : s.fd.protocolFlags ≠ tcpFlagSyn := by
        rw [hstored.flags]
        exact awaits_flags_ne_syn hawaits
      obtain ⟨srcIp, destIp, srcPort, destPort, fd', port', htransmit, hflags, htype, hknown⟩ :=
        transmit_stream yourIp port (h.bound hcall) hpending h.stream h.known hsyn
      simp only [StreamState.after, htransmit, Option.toList_some]
      have hclear : fd'.pending = false := by
        rw [KernelSocket.pending, hflags, pending_sent]
        rfl
      constructor
      case stream => exact htype.trans h.stream
      case known => exact hknown.trans h.known
      case bound =>
          intro _
          have hbound := h.bound hcall
          rw [KernelSocket.bound, hflags, bound_sent]
          exact hbound
      case stored => exact stored_of_awaits hawaits fd'
      case pending =>
          intro hagain
          rw [hclear] at hagain
          cases hagain
      case quiet =>
          intro _
          rw [List.length_append, List.length_singleton]
          exact hcount.symm
      case order =>
          refine ⟨?_, fun k segment hk => ?_⟩
          · rw [List.length_append, List.length_singleton]
            exact hcount.ge
          · rcases Nat.lt_or_ge k s.sent.length with hold | hnew
            · rw [List.getElem?_append_left hold] at hk
              exact h.order.2 k segment hk
            · obtain ⟨hbound, hvalue⟩ := List.getElem?_eq_some_iff.mp hk
              rw [List.length_append, List.length_singleton] at hbound
              obtain rfl : k = s.sent.length := by omega
              rw [List.getElem_concat_length rfl] at hvalue
              refine ⟨r, hlast, srcIp, destIp, srcPort, destPort, s.fd.buf2, ?_, hstored.payload⟩
              rw [← hvalue, hstored.flags, hstored.length]

/-- A statement of a call that makes no request, starts no call and leaves the flags alone. -/
theorem stream_store_inv (h : StreamInv s) (hclear : s.fd.pending = false) {fd : KernelSocket}
    {call : LibraryCall} (hflags : fd.flags = s.fd.flags) (htype : fd.type = s.fd.type)
    (hknown : fd.known = s.fd.known) (hcall : call ≠ .idle → s.call ≠ .idle)
    (hstored : call.Stored fd) : StreamInv { s with fd := fd, call := call } where
  stream := htype.trans h.stream
  known := hknown.trans h.known
  bound := fun hnew => by
    have hbound := h.bound (hcall hnew)
    rw [KernelSocket.bound, hflags]
    exact hbound
  stored := hstored
  pending := fun hpending => by
    have hset : s.fd.pending = true := by
      rw [KernelSocket.pending, ← hflags]
      exact hpending
    rw [hclear] at hset
    cases hset
  quiet := fun _ => h.quiet hclear
  order := h.order

/-- The statement that sets the flag 1 makes the request that is stored. -/
theorem stream_submit_inv (h : StreamInv s) (hclear : s.fd.pending = false)
    {call : LibraryCall} (hstored : r.StoredIn s.fd) (hcall : s.call ≠ .idle)
    (hawaits : call.awaits = some r) :
    StreamInv { s with
      fd := { s.fd with flags := s.fd.flags ||| 1#8 }, call := call
      requests := s.requests ++ [r] } where
  stream := h.stream
  known := h.known
  bound := fun _ => by
    have hbound := h.bound hcall
    show decide ((s.fd.flags ||| 1#8) &&& 0x80#8 ≠ 0#8) = true
    rw [bound_request]
    exact hbound
  stored := stored_of_awaits hawaits _
  pending := fun _ => by
    have hcount := h.quiet hclear
    refine ⟨r, hawaits, ⟨hstored.flags, hstored.length, hstored.payload⟩, ?_, ?_⟩
    · rw [hcount, List.getElem?_concat_length]
    · rw [List.length_append, List.length_singleton, hcount]
  quiet := fun hagain => by
    have hset : decide ((s.fd.flags ||| 1#8) &&& 1#8 ≠ 0#8) = true :=
      decide_eq_true (pending_request s.fd.flags)
    exact absurd (hset.symm.trans hagain) (by decide)
  order := by
    refine ⟨?_, fun k segment hk => ?_⟩
    · show s.sent.length ≤ (s.requests ++ [r]).length
      rw [List.length_append]
      exact Nat.le_add_right_of_le h.order.1
    · obtain ⟨r', hr', hcarried⟩ := h.order.2 k segment hk
      obtain ⟨hlt, -⟩ := List.getElem?_eq_some_iff.mp hr'
      exact ⟨r', (List.getElem?_append_left hlt).trans hr', hcarried⟩

/-- `shutdown` takes the socket out of the network. -/
theorem stream_clear_inv (h : StreamInv s) (hclear : s.fd.pending = false) :
    StreamInv { s with fd := { s.fd with flags := 0#8 }, call := .idle } where
  stream := h.stream
  known := h.known
  bound := fun hcall => absurd rfl hcall
  stored := trivial
  pending := fun hpending => absurd hpending (by simp [KernelSocket.pending])
  quiet := fun _ => h.quiet hclear
  order := h.order

/-- A statement of the call in progress keeps the invariant. -/
theorem stream_call_inv (h : StreamInv s) : StreamInv (s.after .step) := by
  have hstored := h.stored
  -- only a call that waits runs while a transmission is pending
  have hwaits : s.call.awaits = none → s.fd.pending = false := fun hnone => by
    rw [← Bool.not_eq_true]
    intro hpending
    obtain ⟨r, hawaits, -⟩ := h.pending hpending
    rw [hnone] at hawaits
    cases hawaits
  have hsame : StreamInv { s with requests := s.requests ++ [] } := by
    rw [List.append_nil]
    exact h
  have hstore : ∀ {fd call}, s.call ≠ .idle → s.fd.pending = false → fd.flags = s.fd.flags →
      fd.type = s.fd.type → fd.known = s.fd.known → call.Stored fd →
      StreamInv { s with fd := fd, call := call, requests := s.requests ++ [] } :=
    fun hcall hclear hflags htype hknown hstored => by
      rw [List.append_nil]
      exact stream_store_inv h hclear hflags htype hknown (fun _ => hcall) hstored
  rw [StreamState.after]
  cases hcall : s.call with
  | idle =>
      rw [hcall] at hsame
      exact hsame
  | sendWait m n =>
      rw [hcall] at hwaits hstored
      have hclear := hwaits rfl
      simp only [LibraryCall.next, hclear, if_false, Bool.false_eq_true]
      exact hstore (by rw [hcall]; exact nofun) hclear rfl rfl rfl trivial
  | sendLength m n =>
      rw [hcall] at hwaits
      exact hstore (by rw [hcall]; exact nofun) (hwaits rfl) rfl rfl rfl rfl
  | sendCopy m n =>
      rw [hcall] at hwaits hstored
      refine hstore (by rw [hcall]; exact nofun) (hwaits rfl) rfl rfl rfl ⟨hstored, fun i hi => ?_⟩
      have hcopy : copyBytes s.fd.buf2 0 m 0 n (0 + i) = m i := copy_bytes_start hi
      rwa [Nat.zero_add] at hcopy
  | sendFlags m n =>
      rw [hcall] at hwaits hstored
      exact hstore (by rw [hcall]; exact nofun) (hwaits rfl) rfl rfl rfl
        ⟨rfl, hstored.1, hstored.2⟩
  | sendTransmit m n =>
      rw [hcall] at hwaits hstored
      exact stream_submit_inv h (hwaits rfl) hstored (by rw [hcall]; exact nofun) rfl
  | sendPoll m n =>
      cases hpending : s.fd.pending with
      | true =>
          rw [hcall] at hsame
          simp only [LibraryCall.next, hpending, if_true]
          exact hsame
      | false =>
          simp only [LibraryCall.next, hpending, if_false, Bool.false_eq_true]
          exact hstore (by rw [hcall]; exact nofun) hpending rfl rfl rfl trivial
  | shutdownWait =>
      rw [hcall] at hwaits
      have hclear := hwaits rfl
      simp only [LibraryCall.next, hclear, if_false, Bool.false_eq_true]
      split
      · exact hstore (by rw [hcall]; exact nofun) hclear rfl rfl rfl trivial
      · exact hstore (by rw [hcall]; exact nofun) hclear rfl rfl rfl trivial
  | shutdownFlags =>
      rw [hcall] at hwaits
      exact hstore (by rw [hcall]; exact nofun) (hwaits rfl) rfl rfl rfl rfl
  | shutdownLength =>
      rw [hcall] at hwaits hstored
      exact hstore (by rw [hcall]; exact nofun) (hwaits rfl) rfl rfl rfl
        ⟨hstored, rfl, fun i hi => absurd hi (Nat.not_lt_zero i)⟩
  | shutdownTransmit =>
      rw [hcall] at hwaits hstored
      exact stream_submit_inv h (hwaits rfl) hstored (by rw [hcall]; exact nofun) rfl
  | shutdownPoll =>
      cases hpending : s.fd.pending with
      | true =>
          rw [hcall] at hsame
          simp only [LibraryCall.next, hpending, if_true]
          exact hsame
      | false =>
          simp only [LibraryCall.next, hpending, if_false, Bool.false_eq_true]
          exact hstore (by rw [hcall]; exact nofun) hpending rfl rfl rfl trivial
  | shutdownConnect =>
      rw [hcall] at hwaits
      exact hstore (by rw [hcall]; exact nofun) (hwaits rfl) rfl rfl rfl trivial
  | shutdownClear =>
      rw [hcall] at hwaits
      show StreamInv { s with
        fd := { s.fd with flags := 0#8 }, call := .idle, requests := s.requests ++ [] }
      rw [List.append_nil]
      exact stream_clear_inv h (hwaits rfl)

/-- A call begins when the socket takes part. -/
theorem stream_begin_inv (h : StreamInv s) (hcall : s.call = .idle) (hbound : s.fd.bound = true)
    {call : LibraryCall} (hstored : call.Stored s.fd) : StreamInv { s with call := call } where
  stream := h.stream
  known := h.known
  bound := fun _ => hbound
  stored := hstored
  pending := fun hpending => by
    obtain ⟨r, hawaits, -⟩ := h.pending hpending
    rw [hcall] at hawaits
    cases hawaits
  quiet := h.quiet
  order := h.order

/-- Taking a packet out of the receive buffer clears the flag 2 only. -/
theorem stream_recv_inv (h : StreamInv s) : StreamInv (s.after .recv) where
  stream := h.stream
  known := h.known
  bound := fun hcall => by
    show decide ((s.fd.flags &&& ~~~2#8) &&& 0x80#8 ≠ 0#8) = true
    rw [bound_clean]
    exact h.bound hcall
  stored := by
    have hstored := h.stored
    show s.call.Stored { s.fd with toSocket := s.fd.toSocket.clean }
    cases hcall : s.call with
    | sendTransmit m n =>
        rw [hcall] at hstored
        exact ⟨hstored.flags, hstored.length, hstored.payload⟩
    | shutdownTransmit =>
        rw [hcall] at hstored
        exact ⟨hstored.flags, hstored.length, hstored.payload⟩
    | _ =>
        rw [hcall] at hstored
        exact hstored
  pending := fun hpending => by
    have hset : s.fd.pending = true := by
      rw [KernelSocket.pending, ← pending_clean]
      exact hpending
    obtain ⟨r, hawaits, hstored, hlast⟩ := h.pending hset
    exact ⟨r, hawaits, ⟨hstored.flags, hstored.length, hstored.payload⟩, hlast⟩
  quiet := fun hpending => by
    refine h.quiet ?_
    rw [KernelSocket.pending, ← pending_clean]
    exact hpending
  order := h.order

theorem sendable_bound (h : fd.sendable = true) : fd.bound = true := (of_decide_eq_true h).1

/-- An event keeps the invariant, unless a segment with other flags is put into the buffer. -/
theorem stream_step_inv (h : StreamInv s) (e : StreamEvent) (hquiet : s.Quiet e) :
    StreamInv (s.after e) := by
  cases e with
  | send m n =>
      rw [StreamState.after]
      cases hcall : s.call with
      | idle =>
          simp only
          split
          · rename_i hsendable
            exact stream_begin_inv h hcall (sendable_bound hsendable) trivial
          · exact h
      | _ => exact h
  | shutdown =>
      rw [StreamState.after]
      cases hcall : s.call with
      | idle =>
          simp only
          split
          · rename_i hbound
            exact stream_begin_inv h hcall hbound trivial
          · exact h
      | _ => exact h
  | step => exact stream_call_inv h
  | transmit yourIp port => exact stream_transmit_inv h yourIp port
  | arrive p => exact stream_arrive_inv h hquiet
  | recv => exact stream_recv_inv h

theorem quiet_run_inv (hfresh : s.Fresh) (h : QuietRun s s') : StreamInv s' := by
  refine Run.invariant StreamInv h (stream_fresh_inv hfresh) ?_
  rintro s e s' hinv hquiet rfl
  exact stream_step_inv hinv e hquiet

/-- While a request is pending, the next segment sent is right exactly when no segment with other
flags comes first. -/
theorem stream_arrival_order (h : StreamInv s) (hpending : s.fd.pending = true) (p : Packet)
    (yourIp : BitVec 32) (port : BitVec 16) :
    ((s.after (.arrive p)).after (.transmit yourIp port)).InOrder ↔ s.Quiet (.arrive p) := by
  constructor
  · intro horder htakes htcp flags hflags
    obtain ⟨r, hawaits, -, hlast, -⟩ := h.pending hpending
    have hcall : s.call ≠ .idle := fun hidle => by
      rw [hidle] at hawaits
      cases hawaits
    obtain ⟨htype, hknown, -⟩ := receive_keeps s.fd p
    obtain ⟨segment, fd', port', htransmit, hcarries⟩ :=
      transmit_carries yourIp port ((receive_bound s.fd p).trans (h.bound hcall))
        ((receive_pending s.fd p).trans hpending) (htype.trans h.stream) (hknown.trans h.known)
    simp only [StreamState.after, htransmit, Option.toList_some] at horder
    obtain ⟨r', hr', hcarried⟩ := horder.2 s.sent.length segment List.getElem?_concat_length
    -- the segment stands where the pending request is
    obtain rfl : r = r' := Option.some.inj (hlast.symm.trans hr')
    have hsame := hcarries r hcarried
    rw [receive_flags, if_pos ⟨htakes, htcp⟩] at hsame
    exact hsame.trans (Option.some.inj ((stored_pending hpending hawaits).symm.trans hflags))
  · intro hquiet
    exact (stream_step_inv (stream_step_inv h (.arrive p) hquiet) (.transmit yourIp port)
      trivial).order

/-! ### Control flags -/

/-- In every run in which no TCP segment with other flags is put into the receive buffer between
the store of the flags and the transmission, every segment sent carries the flags and the payload
of its request; and with a request pending, such a segment makes the next one sent wrong. -/
theorem control_flags_reach_wire {s₀ s : StreamState} (hfresh : s₀.Fresh) (h : QuietRun s₀ s) :
    s.InOrder ∧ ∀ (p : Packet) (yourIp : BitVec 32) (port : BitVec 16), s.fd.pending = true →
      (((s.after (.arrive p)).after (.transmit yourIp port)).InOrder ↔ s.Quiet (.arrive p)) := by
  have hinv := quiet_run_inv hfresh h
  exact ⟨hinv.order, fun p yourIp port hpending =>
    stream_arrival_order hinv hpending p yourIp port⟩

/-- A stream socket that is bound to the port 0x5000 and connected. -/
def connectedSocket : KernelSocket :=
  { newSocket 1 afInet sockStream 6 noData noData with
    srcPort := 0x5000#16, destPort := 0x5001#16, destIp := 0x0202000a#32, connect := 1#8,
    flags := 0x80#8 }

/-- The socket before any call. -/
def connectedStream : StreamState := ⟨connectedSocket, .idle, [], []⟩

theorem connected_stream_fresh : connectedStream.Fresh := ⟨rfl, rfl, rfl, rfl, rfl, rfl⟩

/-- `shutdown` up to the statement that asks for the transmission. -/
def closingStream : StreamState :=
  ((((connectedStream.after .shutdown).after .step).after .step).after .step).after .step

theorem closing_run : QuietRun connectedStream closingStream :=
  ((((Run.refl.snoc .shutdown trivial rfl).snoc .step trivial rfl).snoc .step trivial rfl).snoc
    .step trivial rfl).snoc .step trivial rfl

/-- A segment of the peer for the socket, with the given flags. -/
def peerSegment (flags : BitVec 8) : Packet :=
  ⟨ipProtocolTcp, 0x0202000a#32, 0#32, 0x5001#16, 0x5000#16, noData, 0, 0#32, 0#32, flags⟩

/-- A segment with the flags of `shutdown` may arrive before the transmission. -/
theorem control_flags_reach_wire_shutdown :
    ((closingStream.after (.arrive (peerSegment (tcpFlagFin ||| tcpFlagAck)))).after
      (.transmit 0#32 2000#16)).InOrder :=
  ((control_flags_reach_wire connected_stream_fresh closing_run).2 _ _ _ rfl).mpr
    fun _ _ _ hstored => Option.some.inj hstored

/-- Data arrives while `shutdown` waits: the segment sent has the flags of the one that arrived,
and the `TCP_FIN` is lost. -/
theorem arrival_replaces_fin :
    ∃ s, Run StreamStep (fun _ _ => True) connectedStream s ∧ s.requests = [shutdownRequest] ∧
      (∃ srcIp destIp srcPort destPort buf, s.sent = [.tcpSendPayload srcIp destIp srcPort destPort
        (tcpFlagPsh ||| tcpFlagAck) buf 0]) ∧ ¬ s.InOrder := by
  have hrun : Run StreamStep (fun _ _ => True) connectedStream closingStream :=
    closing_run.mono fun _ _ _ => trivial
  refine ⟨_, (hrun.snoc (.arrive (peerSegment (tcpFlagPsh ||| tcpFlagAck))) trivial rfl).snoc
    (.transmit 0#32 2000#16) trivial rfl, rfl, ⟨_, _, _, _, _, rfl⟩, fun horder => ?_⟩
  have hquiet := (stream_arrival_order (quiet_run_inv connected_stream_fresh closing_run) rfl _ _
    _).mp horder rfl rfl _ rfl
  exact absurd hquiet (by decide)

end Sirius.Net
