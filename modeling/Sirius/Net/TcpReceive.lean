import Mathlib.Data.BitVec
import Sirius.Library.Runs
import Sirius.Net.Tcp

/-!
# Receiving a byte stream over TCP

The packets of one peer are pieces of its byte stream. `InSync` says that the payloads delivered so
far are a prefix of the stream and that the connection acknowledges exactly this prefix. `tcp_ack`
keeps it as long as every segment it lets through is the next one in order: it does not compare the
sequence number with the one it expects, and its test for a retransmission does not wrap around.
-/

namespace Sirius.Net

open Library

/-- The connections and sockets, with everything passed to `socket_server_receive` so far. -/
structure Receiver where
  net : TcpTable
  sockets : Sockets
  delivered : List Byte

/-- The bytes of a packet. -/
def Packet.payload (p : Packet) : List Byte := (List.range p.length).map p.buffer

/-- What happens to a connection: a packet comes in, or the local side sends a payload. -/
inductive TcpEvent
  | segment (tcp : TcpPacket)
  | payload (srcAddress dstAddress : BitVec 32) (srcPort dstPort : BitVec 16) (flags : BitVec 8)
      (data : Bytes) (len : BitVec 32)

/-- A TCP packet goes through `handler_ethernet_package_received`. -/
def Receiver.receive (tcp : TcpPacket) (s : Receiver) : Option Receiver :=
  match handlerTcp tcp s.net with
  | (none, net) => some { s with net }
  | (some p, net) => do
      let sockets ← socketServerReceive 0 p s.sockets
      pure { net, sockets, delivered := s.delivered ++ p.payload }

/-- One event. -/
def Receiver.step (s : Receiver) : TcpEvent → Option Receiver
  | .segment tcp => s.receive tcp
  | .payload srcAddress dstAddress srcPort dstPort flags data len =>
      some { s with
        net := (tcpSendPayload srcAddress dstAddress srcPort dstPort flags data len s.net).2 }

/-- The transitions of a receiver. -/
def TcpStep (s : Receiver) (event : TcpEvent) (t : Receiver) : Prop := s.step event = some t

variable {k i : Nat} {isn : BitVec 32} {stream : List Byte} {tcp : TcpPacket}
  {net net' : TcpTable} {s t u : Receiver}

/-! ### The stream of the peer -/

/-- The packet carries a piece of the stream that starts at `pos`. The first byte of the stream has
the sequence number `isn + 1`, and a FIN follows the last byte. -/
structure PieceAt (isn : BitVec 32) (stream : List Byte) (pos : Nat) (tcp : TcpPacket) :
    Prop where
  bound : pos ≤ stream.length
  seq : htonl tcp.seq = isn + 1#32 + BitVec.ofNat 32 pos
  payload : tcp.packet.payload <+: stream.drop pos
  fin : tcp.flags &&& tcpFlagFin ≠ 0#8 → pos + tcp.len.toNat = stream.length

/-- The packet answers the SYN. -/
def TcpPacket.answers (tcp : TcpPacket) : Prop := tcp.flags = tcpFlagAck ||| tcpFlagSyn

instance : Decidable tcp.answers := inferInstanceAs (Decidable (tcp.flags = _))

/-- A well-formed packet from the peer of a connection that is a piece of the peer's stream, the
SYN before its first byte included. -/
structure FromPeer (conn : TcpConnect) (isn : BitVec 32) (stream : List Byte) (tcp : TcpPacket) :
    Prop where
  addresses : tcp.src = conn.dstIp ∧ tcp.dst = conn.srcIp
  ports : htons tcp.srcPort = conn.dstPort ∧ htons tcp.dstPort = conn.srcPort
  fits : 20 + tcp.dataOffset ≤ (htons tcp.ipLen).toNat
  answer : tcp.answers → htonl tcp.seq = isn ∧ tcp.len = 0#32
  piece : ¬ tcp.answers → ∃ pos, PieceAt isn stream pos tcp

/-- A connection on which nothing but the SYN of the peer has been acknowledged. -/
structure Established (k : Nat) (isn : BitVec 32) (s : Receiver) : Prop where
  inside : k < 1024
  busy : (s.net.queueConn k).busy = 1#8
  status : (s.net.queueConn k).status = 0#8
  ack : (s.net.queueConn k).ack = isn + 1#32
  delivered : s.delivered = []

/-- The sequence number that follows the delivered bytes. -/
def Receiver.nextSeq (isn : BitVec 32) (s : Receiver) : BitVec 32 :=
  isn + 1#32 + BitVec.ofNat 32 s.delivered.length

/-- The delivered bytes are a prefix of the stream, and the connection acknowledges them and, once
it has taken the FIN, the FIN after the last of them. -/
def InSync (k : Nat) (isn : BitVec 32) (stream : List Byte) (s : Receiver) : Prop :=
  s.delivered <+: stream ∧
    ((s.net.queueConn k).ack = s.nextSeq isn ∨
      s.delivered = stream ∧ (s.net.queueConn k).status ≠ 0#8 ∧
        (s.net.queueConn k).ack = s.nextSeq isn + 1#32)

/-- The event is a payload of the local side or a piece of the stream of the peer. -/
def PeerEvent (k : Nat) (isn : BitVec 32) (stream : List Byte) (s : Receiver) : TcpEvent → Prop
  | .segment tcp => FromPeer (s.net.queueConn k) isn stream tcp
  | .payload .. => True

/-! ### What `tcp_ack` does -/

/-- `tcp_ack` finds connection `i` for the packet and takes the packet for a new one. -/
structure Accepts (net : TcpTable) (tcp : TcpPacket) (i : Nat) : Prop where
  acknowledged : tcp.acknowledged = true
  found : net.search (TcpConnect.open (htons tcp.dstPort)) = some i
  expected : (net.queueConn i).seq = htonl tcp.ack
  new : ¬ htonl tcp.seq + tcpAdvance tcp.flags tcp.len ≤ (net.queueConn i).ack

/-- No connection acknowledges anything else or changes its status. -/
def SameAcks (net net' : TcpTable) : Prop :=
  ∀ j, (net'.queueConn j).ack = (net.queueConn j).ack ∧
    (net'.queueConn j).status = (net.queueConn j).status

theorem SameAcks.refl : SameAcks net net := fun _ => ⟨rfl, rfl⟩

/-- A connection is replaced by one that differs in neither. -/
theorem SameAcks.store {conn : TcpConnect} (hack : conn.ack = (net.queueConn i).ack)
    (hstatus : conn.status = (net.queueConn i).status) : SameAcks net (net.store i conn) := by
  intro j
  simp only [TcpTable.store, Function.update_apply]
  split
  case isTrue h =>
      subst h
      exact ⟨hack, hstatus⟩
  case isFalse => exact ⟨rfl, rfl⟩

/-- Connection `i` acknowledges a packet; the other connections stay as they are. -/
structure Acknowledges (net : TcpTable) (tcp : TcpPacket) (i : Nat) (net' : TcpTable) : Prop where
  ack : (net'.queueConn i).ack = htonl tcp.seq + tcpAdvance tcp.flags tcp.len
  busy : (net'.queueConn i).busy = (net.queueConn i).busy
  other : ∀ j, j ≠ i → net'.queueConn j = net.queueConn j

theorem search_spec {p : TcpConnect → Bool} (h : net.search p = some i) :
    i < 1024 ∧ p (net.queueConn i) = true := by
  have hsome := List.find?_range_eq_some.mp h
  exact ⟨List.mem_range.mp hsome.2.1, hsome.1⟩

/-- The search stops at a connection that is established. -/
theorem Accepts.status (h : Accepts net tcp i) : (net.queueConn i).status = 0#8 := by
  have hopen := (search_spec h.found).2
  simp only [TcpConnect.open, decide_eq_true_eq] at hopen
  exact hopen.2.2

/-- The outcomes of `tcp_ack`: the packet is dropped, or a connection acknowledges it, with result
2 and a new status for a FIN and with result 0 otherwise. -/
theorem call_ack_cases (tcp : TcpPacket) (net : TcpTable) (hack : tcp.acknowledged = true) :
    ((tcp.callAck net).1 = 1 ∧ (∀ i, ¬ Accepts net tcp i) ∧ SameAcks net (tcp.callAck net).2) ∨
      ∃ i, Accepts net tcp i ∧ Acknowledges net tcp i (tcp.callAck net).2 ∧
        if tcp.flags &&& tcpFlagFin ≠ 0#8 then
          (tcp.callAck net).1 = 2 ∧ ((tcp.callAck net).2.queueConn i).status = 1#8
        else
          (tcp.callAck net).1 = 0 ∧ ((tcp.callAck net).2.queueConn i).status = 0#8 := by
  unfold TcpPacket.callAck tcpAck
  cases hfound : net.search (TcpConnect.open (htons tcp.dstPort)) with
  | none =>
      refine Or.inl ⟨rfl, fun i h => ?_, SameAcks.refl⟩
      rw [h.found] at hfound
      exact Option.some_ne_none i hfound
  | some i =>
      have hunique : ∀ j, Accepts net tcp j → j = i := fun j h =>
        Option.some.inj (h.found.symm.trans hfound)
      by_cases hseq : (net.queueConn i).seq = htonl tcp.ack
      case neg =>
          simp only [hseq, ne_eq, not_false_eq_true, if_true]
          refine Or.inl ⟨trivial, fun j h => ?_, SameAcks.refl⟩
          cases hunique j h
          exact hseq h.expected
      by_cases hnew : htonl tcp.seq + tcpAdvance tcp.flags tcp.len ≤ (net.queueConn i).ack
      case pos =>
          simp only [hseq, ne_eq, not_true_eq_false, if_false, hnew, if_true]
          refine Or.inl ⟨trivial, fun j h => ?_, SameAcks.store rfl rfl⟩
          cases hunique j h
          exact h.new hnew
      have haccepts : Accepts net tcp i := ⟨hack, hfound, hseq, hnew⟩
      refine Or.inr ⟨i, haccepts, ?_⟩
      simp only [hseq, ne_eq, not_true_eq_false, if_false, hnew]
      by_cases hfin : tcp.flags &&& tcpFlagFin = 0#8
      · simp only [hfin, not_true_eq_false, if_false]
        refine ⟨⟨?_, ?_, fun j hj => ?_⟩, trivial, ?_⟩
        · simp [tcpSend, TcpTable.store]
        · simp [tcpSend, TcpTable.store]
        · simp [tcpSend, TcpTable.store, Function.update_of_ne hj]
        · simpa [tcpSend, TcpTable.store] using haccepts.status
      · simp only [hfin, not_false_eq_true, if_true]
        refine ⟨⟨?_, ?_, fun j hj => ?_⟩, trivial, ?_⟩
        · simp [tcpSend, TcpTable.store]
        · simp [tcpSend, TcpTable.store]
        · simp [tcpSend, TcpTable.store, Function.update_of_ne hj]
        · simp [tcpSend, TcpTable.store]

/-- `tcp_finish` releases a connection and changes nothing that the peer sees. -/
theorem tcp_finish_same (srcAddress dstAddress : BitVec 32) (srcPort dstPort : BitVec 16)
    (ack : BitVec 32) : SameAcks net (tcpFinish srcAddress dstAddress srcPort dstPort ack net) := by
  unfold tcpFinish
  dsimp only
  split
  case h_1 => exact SameAcks.refl
  case h_2 i _ =>
      split
      case isTrue => exact SameAcks.refl
      case isFalse => exact SameAcks.store rfl rfl

/-- The outcomes of the handler, after those of `tcp_ack`. -/
theorem handler_tcp_cases (tcp : TcpPacket) (net : TcpTable) :
    ((handlerTcp tcp net).1 = none ∧ (∀ i, ¬ Accepts net tcp i) ∧
        SameAcks net (handlerTcp tcp net).2) ∨
      ∃ i, Accepts net tcp i ∧ Acknowledges net tcp i (handlerTcp tcp net).2 ∧
        if tcp.flags &&& tcpFlagFin ≠ 0#8 then
          (handlerTcp tcp net).1 = none ∧ ((handlerTcp tcp net).2.queueConn i).status = 1#8
        else
          (handlerTcp tcp net).1 = some tcp.packet ∧
            ((handlerTcp tcp net).2.queueConn i).status = 0#8 := by
  unfold handlerTcp
  by_cases hack : tcp.acknowledged = true
  case neg =>
      have hnone : ∀ i, ¬ Accepts net tcp i := fun i h => hack h.acknowledged
      simp only [hack, Bool.false_eq_true, if_false]
      by_cases hflags : tcp.flags = tcpFlagAck
      · simp only [hflags, if_true]
        exact Or.inl ⟨trivial, hnone, tcp_finish_same _ _ _ _ _⟩
      · simp only [hflags, if_false]
        exact Or.inl ⟨trivial, hnone, SameAcks.refl⟩
  simp only [hack, if_true]
  cases call_ack_cases tcp net hack with
  | inl h =>
      obtain ⟨hresult, hnone, hsame⟩ := h
      simp only [hresult, ne_eq, one_ne_zero, not_false_eq_true, if_true]
      exact Or.inl ⟨trivial, hnone, hsame⟩
  | inr h =>
      obtain ⟨i, haccepts, hchange, h⟩ := h
      refine Or.inr ⟨i, haccepts, ?_⟩
      by_cases hfin : tcp.flags &&& tcpFlagFin = 0#8
      · simp only [hfin, ne_eq, not_true_eq_false, if_false] at h ⊢
        simp only [h.1, not_true_eq_false, if_false]
        exact ⟨hchange, trivial, h.2⟩
      · simp only [hfin, ne_eq, not_false_eq_true, if_true] at h ⊢
        simp only [h.1, OfNat.ofNat_ne_zero, not_false_eq_true, if_true]
        exact ⟨hchange, trivial, h.2⟩

/-- The outcomes for the receiver: nothing happens for the peer, a connection takes a FIN, or it
takes a packet whose payload is delivered. -/
theorem receive_cases (h : s.receive tcp = some t) :
    ((∀ i, ¬ Accepts s.net tcp i) ∧ SameAcks s.net t.net ∧ t.delivered = s.delivered) ∨
      ∃ i, Accepts s.net tcp i ∧ Acknowledges s.net tcp i t.net ∧
        (tcp.flags &&& tcpFlagFin ≠ 0#8 ∧ t.delivered = s.delivered ∧
            (t.net.queueConn i).status = 1#8 ∨
          tcp.flags &&& tcpFlagFin = 0#8 ∧ t.delivered = s.delivered ++ tcp.packet.payload ∧
            (t.net.queueConn i).status = 0#8) := by
  unfold Receiver.receive at h
  cases handler_tcp_cases tcp s.net with
  | inl hcase =>
      obtain ⟨hpacket, hnone, hsame⟩ := hcase
      split at h
      case h_1 net hnet =>
          cases h
          rw [hnet] at hsame
          exact Or.inl ⟨hnone, hsame, rfl⟩
      case h_2 p net hnet =>
          rw [hnet] at hpacket
          cases hpacket
  | inr hcase =>
      obtain ⟨i, haccepts, hchange, hcase⟩ := hcase
      refine Or.inr ⟨i, haccepts, ?_⟩
      split at h
      case h_1 net hnet =>
          cases h
          rw [hnet] at hchange hcase
          refine ⟨hchange, Or.inl ?_⟩
          split at hcase
          case isTrue hfin => exact ⟨hfin, rfl, hcase.2⟩
          case isFalse => cases hcase.1
      case h_2 p net hnet =>
          rw [hnet] at hchange hcase
          simp only [Option.bind_eq_bind, Option.bind_eq_some_iff, Option.pure_def,
            Option.some.injEq] at h
          obtain ⟨sockets, hsockets, h⟩ := h
          cases h
          refine ⟨hchange, Or.inr ?_⟩
          split at hcase
          case isTrue => cases hcase.1
          case isFalse hfin =>
              cases hcase.1
              exact ⟨not_not.mp hfin, rfl, hcase.2⟩

/-! ### Segments in order -/

/-- Every segment that is let through is the next piece of the stream. A FIN carries no data, as
`tcp_ack` acknowledges none of it; a segment that another connection with the same port takes
delivers nothing. -/
def InOrder (k : Nat) (isn : BitVec 32) (stream : List Byte) (s : Receiver) : TcpEvent → Prop
  | .segment tcp => ∀ i, Accepts s.net tcp i →
      if i = k then
        ¬ tcp.answers ∧ PieceAt isn stream s.delivered.length tcp ∧
          (tcp.flags &&& tcpFlagFin ≠ 0#8 → tcp.len = 0#32)
      else tcp.flags &&& tcpFlagFin ≠ 0#8 ∨ tcp.len = 0#32
  | .payload .. => True

theorem payload_length (tcp : TcpPacket) : tcp.packet.payload.length = tcp.len.toNat := by
  simp [Packet.payload, TcpPacket.packet]

theorem payload_eq_nil (h : tcp.len = 0#32) : tcp.packet.payload = [] :=
  List.eq_nil_of_length_eq_zero (by rw [payload_length, h]; rfl)

/-- The flags of an accepted packet: it answers the SYN, carries data, or is a FIN. -/
theorem acknowledged_cases (h : tcp.acknowledged = true) :
    tcp.answers ∧ tcp.flags &&& tcpFlagFin = 0#8 ∧ tcpAdvance tcp.flags tcp.len = 1#32 ∨
      ¬ tcp.answers ∧ tcp.flags &&& tcpFlagFin = 0#8 ∧ tcpAdvance tcp.flags tcp.len = tcp.len ∨
      ¬ tcp.answers ∧ tcp.flags &&& tcpFlagFin ≠ 0#8 ∧ tcpAdvance tcp.flags tcp.len = 1#32 := by
  unfold TcpPacket.acknowledged at h
  simp only [decide_eq_true_eq] at h
  obtain hflags | hflags | hflags := h <;>
    simp [TcpPacket.answers, tcpAdvance, hflags, tcpFlagAck, tcpFlagSyn, tcpFlagPsh, tcpFlagFin]

/-- Delivering more bytes moves the next sequence number by their number. -/
theorem next_seq_append (h : t.delivered = s.delivered ++ tcp.packet.payload) :
    t.nextSeq isn = s.nextSeq isn + tcp.len := by
  unfold Receiver.nextSeq
  rw [h, List.length_append, payload_length, BitVec.ofNat_add, BitVec.ofNat_toNat,
    BitVec.setWidth_eq, ← BitVec.add_assoc]

/-- An event that delivers and acknowledges nothing, and opens no connection. -/
theorem InSync.frame (hs : InSync k isn stream s) (hdelivered : t.delivered = s.delivered)
    (hack : (t.net.queueConn k).ack = (s.net.queueConn k).ack)
    (hstatus : (s.net.queueConn k).status ≠ 0#8 → (t.net.queueConn k).status ≠ 0#8) :
    InSync k isn stream t := by
  have hnext : t.nextSeq isn = s.nextSeq isn := by rw [Receiver.nextSeq, hdelivered]; rfl
  obtain ⟨hpre, hs | ⟨hall, hclosed, hs⟩⟩ := hs
  · exact ⟨hdelivered ▸ hpre, Or.inl (by rw [hack, hnext, hs])⟩
  · exact ⟨hdelivered ▸ hpre,
      Or.inr ⟨hdelivered.trans hall, hstatus hclosed, by rw [hack, hnext, hs]⟩⟩

/-- What an established connection in step with the stream acknowledges. -/
theorem InSync.ack (h : InSync k isn stream s) (hopen : (s.net.queueConn k).status = 0#8) :
    (s.net.queueConn k).ack = s.nextSeq isn := by
  obtain ⟨_, hack | ⟨_, hstatus, _⟩⟩ := h
  · exact hack
  · exact absurd hopen hstatus

/-- The next piece of the stream keeps the connection in step. -/
theorem receive_in_sync (hs : InSync k isn stream s) (h : s.receive tcp = some t)
    (horder : InOrder k isn stream s (.segment tcp)) : InSync k isn stream t := by
  cases receive_cases h with
  | inl hcase =>
      obtain ⟨_, hsame, hdelivered⟩ := hcase
      exact hs.frame hdelivered (hsame k).1 fun hclosed => (hsame k).2 ▸ hclosed
  | inr hcase =>
      obtain ⟨i, haccepts, hchange, hcase⟩ := hcase
      have hgood := horder i haccepts
      by_cases hik : i = k
      case neg =>
          -- another connection took the packet
          have hother := hchange.other k (Ne.symm hik)
          rw [if_neg hik] at hgood
          have hdelivered : t.delivered = s.delivered := by
            obtain ⟨_, hdelivered, _⟩ | ⟨hfin, hdelivered, _⟩ := hcase
            · exact hdelivered
            · have hlen : tcp.len = 0#32 := hgood.resolve_left (not_not.mpr hfin)
              rw [hdelivered, payload_eq_nil hlen, List.append_nil]
          exact hs.frame hdelivered (by rw [hother]) fun hclosed => hother ▸ hclosed
      subst hik
      rw [if_pos rfl] at hgood
      obtain ⟨hanswer, hpiece, hempty⟩ := hgood
      have hseq : htonl tcp.seq = s.nextSeq isn := hpiece.seq
      have hack := hchange.ack
      obtain ⟨hfin, hdelivered, hstatus⟩ | ⟨hfin, hdelivered, hstatus⟩ := hcase
      · -- a FIN after the last byte
        have hall : s.delivered = stream := by
          refine hs.1.eq_of_length ?_
          have hlength := hpiece.fin hfin
          rw [hempty hfin] at hlength
          simpa using hlength
        have hnext : t.nextSeq isn = s.nextSeq isn := by rw [Receiver.nextSeq, hdelivered]; rfl
        refine ⟨hdelivered ▸ hs.1, Or.inr ⟨hdelivered.trans hall, ?_, ?_⟩⟩
        · rw [hstatus]
          decide
        · obtain ⟨_, hnofin, _⟩ | ⟨_, hnofin, _⟩ | ⟨_, _, hadvance⟩ :=
            acknowledged_cases haccepts.acknowledged
          · exact absurd hnofin hfin
          · exact absurd hnofin hfin
          · rw [hack, hadvance, hseq, hnext]
      · -- the next bytes of the stream
        refine ⟨?_, Or.inl ?_⟩
        · obtain ⟨rest, hrest⟩ := hs.1
          have hdrop : stream.drop s.delivered.length = rest := by
            rw [← hrest, List.drop_left]
          have hpayload := hpiece.payload
          rw [hdrop] at hpayload
          rw [hdelivered, ← hrest]
          exact (List.prefix_append_right_inj _).mpr hpayload
        · obtain ⟨hisanswer, _⟩ | ⟨_, _, hadvance⟩ | ⟨_, hisfin, _⟩ :=
            acknowledged_cases haccepts.acknowledged
          · exact absurd hisanswer hanswer
          · rw [hack, hadvance, hseq, next_seq_append hdelivered]
          · exact absurd hfin hisfin

/-- `tcp_send_payload` acknowledges nothing and opens no connection. -/
theorem tcp_send_payload_acks (srcAddress dstAddress : BitVec 32) (srcPort dstPort : BitVec 16)
    (flags : BitVec 8) (data : Bytes) (len : BitVec 32) (j : Nat)
    (h : (tcpSendPayload srcAddress dstAddress srcPort dstPort flags data len net).2 = net') :
    (net'.queueConn j).ack = (net.queueConn j).ack ∧
      ((net.queueConn j).status ≠ 0#8 → (net'.queueConn j).status ≠ 0#8) := by
  subst h
  unfold tcpSendPayload
  split
  case h_1 => exact ⟨rfl, id⟩
  case h_2 i _ =>
      by_cases hj : j = i
      · subst hj
        split <;> simp [tcpSend, TcpTable.store]
      · split <;> simp [tcpSend, TcpTable.store, Function.update_of_ne hj]

/-- Every event in order keeps the connection in step. -/
theorem step_in_sync (hs : InSync k isn stream s) {event : TcpEvent}
    (horder : InOrder k isn stream s event) (h : TcpStep s event t) : InSync k isn stream t := by
  cases event with
  | segment tcp => exact receive_in_sync hs h horder
  | payload srcAddress dstAddress srcPort dstPort flags data len =>
      simp only [TcpStep, Receiver.step, Option.some.injEq] at h
      have hnet : (tcpSendPayload srcAddress dstAddress srcPort dstPort flags data len
          s.net).2 = t.net := by
        rw [← h]
      have hdelivered : t.delivered = s.delivered := by
        rw [← h]
      obtain ⟨hack, hclosed⟩ := tcp_send_payload_acks _ _ _ _ _ _ _ k hnet
      exact hs.frame hdelivered hack hclosed

/-! ### Segments out of order -/

theorem len_lt (h : 20 + tcp.dataOffset ≤ (htons tcp.ipLen).toNat) :
    tcp.len.toNat < 2 ^ 16 := by
  have hlt := (htons tcp.ipLen).isLt
  simp only [TcpPacket.len, BitVec.toNat_sub, BitVec.toNat_setWidth, BitVec.toNat_ofNat]
  omega

/-- The bytes after a delivered prefix. -/
theorem drop_delivered (hs : s.delivered <+: stream) {bytes : List Byte} :
    bytes <+: stream.drop s.delivered.length ↔ s.delivered ++ bytes <+: stream := by
  obtain ⟨rest, hrest⟩ := hs
  rw [← hrest, List.drop_left, List.prefix_append_right_inj]

/-- What the connection itself lets through while it stays in step. -/
theorem piece_of_in_sync (hs : InSync k isn stream s)
    (hpeer : FromPeer (s.net.queueConn k) isn stream tcp) (haccepts : Accepts s.net tcp k)
    (hchange : Acknowledges s.net tcp k t.net)
    (hcase : tcp.flags &&& tcpFlagFin ≠ 0#8 ∧ t.delivered = s.delivered ∧
            (t.net.queueConn k).status = 1#8 ∨
          tcp.flags &&& tcpFlagFin = 0#8 ∧ t.delivered = s.delivered ++ tcp.packet.payload ∧
            (t.net.queueConn k).status = 0#8)
    (ht : InSync k isn stream t) :
    ¬ tcp.answers ∧ PieceAt isn stream s.delivered.length tcp ∧
      (tcp.flags &&& tcpFlagFin ≠ 0#8 → tcp.len = 0#32) := by
  have hnew := haccepts.new
  have hack := hchange.ack
  rw [hs.ack haccepts.status] at hnew
  obtain ⟨hanswer, hnofin, hadvance⟩ | ⟨hanswer, hnofin, hadvance⟩ | ⟨hanswer, hfin, hadvance⟩ :=
    acknowledged_cases haccepts.acknowledged
  · -- the SYN again: nothing has been delivered, so it is a retransmission
    obtain ⟨hfin, _⟩ | ⟨_, hdelivered, hstatus⟩ := hcase
    · exact absurd hnofin hfin
    have hsame := ht.ack hstatus
    rw [hack, next_seq_append hdelivered] at hsame
    rw [hsame, (hpeer.answer hanswer).2, BitVec.add_zero] at hnew
    exact absurd (BitVec.le_refl _) hnew
  · -- data
    obtain ⟨hfin, _⟩ | ⟨_, hdelivered, hstatus⟩ := hcase
    · exact absurd hnofin hfin
    have hsame := ht.ack hstatus
    rw [hack, hadvance, next_seq_append hdelivered] at hsame
    refine ⟨hanswer, ⟨hs.1.length_le, add_right_cancel hsame, ?_, ?_⟩, ?_⟩
    · exact (drop_delivered hs.1).mpr (hdelivered ▸ ht.1)
    · exact fun hfin => absurd hnofin hfin
    · exact fun hfin => absurd hnofin hfin
  · -- a FIN
    obtain ⟨_, hdelivered, hstatus⟩ | ⟨hnofin, _⟩ := hcase
    case inr => exact absurd hnofin hfin
    have hnext : t.nextSeq isn = s.nextSeq isn := by rw [Receiver.nextSeq, hdelivered]; rfl
    rw [hadvance] at hack hnew
    obtain ⟨_, hsame | ⟨hall, _, hsame⟩⟩ := ht
    · rw [hack, hnext] at hsame
      rw [hsame] at hnew
      exact absurd (BitVec.le_refl _) hnew
    have hseq : htonl tcp.seq = s.nextSeq isn := by
      rw [hack, hnext] at hsame
      exact add_right_cancel hsame
    obtain ⟨pos, hpiece⟩ := hpeer.piece hanswer
    have hend := hpiece.fin hfin
    rw [hdelivered] at hall
    have hlen : tcp.len = 0#32 := by
      have hpos := hseq.symm.trans hpiece.seq
      have hlt := len_lt hpeer.fits
      have hmod := congrArg BitVec.toNat (add_left_cancel hpos)
      rw [← hall] at hend
      simp only [BitVec.toNat_ofNat] at hmod
      have hzero : tcp.len.toNat = 0 := by omega
      exact BitVec.eq_of_toNat_eq hzero
    refine ⟨hanswer, ⟨hs.1.length_le, hseq, ?_, fun _ => ?_⟩, fun _ => hlen⟩
    · rw [payload_eq_nil hlen]
      exact List.nil_prefix
    · rw [hlen, hall]
      rfl

/-- What another connection takes, with `k` staying in step, has no payload. -/
theorem no_payload_of_in_sync (hs : InSync k isn stream s) (ht : InSync k isn stream t)
    (hlen : tcp.len.toNat < 2 ^ 16) (hother : t.net.queueConn k = s.net.queueConn k)
    (hdelivered : t.delivered = s.delivered ++ tcp.packet.payload) : tcp.len = 0#32 := by
  have hnext : t.nextSeq isn = s.nextSeq isn + tcp.len := next_seq_append hdelivered
  have hlength := congrArg List.length hdelivered
  rw [List.length_append, payload_length] at hlength
  obtain ⟨_, hsack | ⟨hall, _⟩⟩ := hs
  case inr =>
      have hle := ht.1.length_le
      rw [hall] at hlength
      have hzero : tcp.len.toNat = 0 := by omega
      exact BitVec.eq_of_toNat_eq hzero
  obtain ⟨_, htack | ⟨_, _, htack⟩⟩ := ht
  · rw [hother, hsack, hnext] at htack
    exact left_eq_add.mp htack
  · rw [hother, hsack, hnext, BitVec.add_assoc] at htack
    have hminus : tcp.len + 1#32 = 0#32 := left_eq_add.mp htack
    have hval := congrArg BitVec.toNat hminus
    simp only [BitVec.toNat_add, BitVec.toNat_ofNat] at hval
    omega

/-- A connection that stays in step with the stream was given the next piece of it. -/
theorem in_order_of_in_sync (hs : InSync k isn stream s)
    (hpeer : FromPeer (s.net.queueConn k) isn stream tcp) (h : s.receive tcp = some t)
    (ht : InSync k isn stream t) : InOrder k isn stream s (.segment tcp) := by
  intro i haccepts
  cases receive_cases h with
  | inl hcase => exact absurd haccepts (hcase.1 i)
  | inr hcase =>
      obtain ⟨j, hj, hchange, hcase⟩ := hcase
      cases Option.some.inj (hj.found.symm.trans haccepts.found)
      by_cases hik : i = k
      · subst hik
        rw [if_pos rfl]
        exact piece_of_in_sync hs hpeer haccepts hchange hcase ht
      · rw [if_neg hik]
        obtain ⟨hfin, _⟩ | ⟨_, hdelivered, _⟩ := hcase
        · exact Or.inl hfin
        · have hother := hchange.other k (Ne.symm hik)
          exact Or.inr (no_payload_of_in_sync hs ht (len_lt hpeer.fits) hother hdelivered)

/-! ### Whole runs -/

/-- A new connection has delivered nothing and acknowledges the SYN. -/
theorem Established.in_sync (h : Established k isn s) : InSync k isn stream s := by
  refine ⟨h.delivered ▸ List.nil_prefix, Or.inl ?_⟩
  rw [h.ack, Receiver.nextSeq, h.delivered]
  exact (BitVec.add_zero _).symm

/-- The connection that `tcp_connect` puts into the table. -/
theorem tcp_connect_spec {srcAddress dstAddress : BitVec 32} {srcPort dstPort : BitVec 16}
    (h : tcpConnect srcAddress dstAddress srcPort dstPort net = (0, net')) :
    ∃ k < 1024, (∀ j, j ≠ k → net'.queueConn j = net.queueConn j) ∧
      net'.queueConn k =
        ⟨srcAddress, dstAddress, srcPort, dstPort, 1#32, 0#32, 0#32, tcpFlagSyn, 0#8, 1#8⟩ := by
  unfold tcpConnect at h
  split at h
  case h_1 => cases congrArg Prod.fst h
  case h_2 k hfree =>
      simp only [tcpSend, Prod.mk.injEq, true_and] at h
      subst h
      refine ⟨k, (search_spec hfree).1, fun j hj => ?_, ?_⟩
      · simp [TcpTable.store, Function.update_of_ne hj]
      · simp [TcpTable.store]

/-- `tcp_connect` and the answer of the peer establish a connection, unless another connection
uses the port or the sequence number after the SYN is 0. -/
theorem connect_established {srcAddress dstAddress : BitVec 32} {srcPort dstPort : BitVec 16}
    (hconnect : tcpConnect srcAddress dstAddress srcPort dstPort net = (0, s.net))
    (hport : ∀ j, TcpConnect.open srcPort (net.queueConn j) = false) (hs : s.delivered = [])
    (hanswer : tcp.answers) (hlen : tcp.len = 0#32) (hto : htons tcp.dstPort = srcPort)
    (hack : htonl tcp.ack = 1#32) (hseq : htonl tcp.seq + 1#32 ≠ 0#32)
    (hreceive : s.receive tcp = some t) : ∃ k, Established k (htonl tcp.seq) t := by
  obtain ⟨k, hinside, hother, hconn⟩ := tcp_connect_spec hconnect
  have hfound : s.net.search (TcpConnect.open srcPort) = some k := by
    refine List.find?_range_eq_some.mpr ⟨?_, List.mem_range.mpr hinside, fun j hj => ?_⟩
    · simp [hconn, TcpConnect.open]
    · rw [hother j hj.ne, hport, Bool.not_false]
  have hflags : tcp.acknowledged = true := by
    simp [TcpPacket.acknowledged, show tcp.flags = tcpFlagAck ||| tcpFlagSyn from hanswer]
  obtain ⟨_, hnofin, hadvance⟩ | ⟨hdata, _⟩ | ⟨hdata, _⟩ := acknowledged_cases hflags
  case inr.inl => exact absurd hanswer hdata
  case inr.inr => exact absurd hanswer hdata
  have haccepts : Accepts s.net tcp k := by
    refine ⟨hflags, hto ▸ hfound, by rw [hack, hconn], ?_⟩
    rw [hadvance, hconn]
    exact fun hle => hseq (BitVec.le_zero_iff.mp hle)
  cases receive_cases hreceive with
  | inl hcase => exact absurd haccepts (hcase.1 k)
  | inr hcase =>
      obtain ⟨i, hi, hchange, hcase⟩ := hcase
      cases Option.some.inj (hi.found.symm.trans haccepts.found)
      obtain ⟨hfin, _⟩ | ⟨_, hdelivered, hstatus⟩ := hcase
      · exact absurd hnofin hfin
      have hnil : t.delivered = [] := by
        rw [hdelivered, hs, List.nil_append, payload_eq_nil hlen]
      exact ⟨k, hinside, by rw [hchange.busy, hconn], hstatus, hadvance ▸ hchange.ack, hnil⟩

/-- The runs of a connection with its peer. -/
abbrev PeerRun (k : Nat) (isn : BitVec 32) (stream : List Byte) : Receiver → Receiver → Prop :=
  Run TcpStep fun s event => PeerEvent k isn stream s event

/-- The runs in which every segment that is let through is the next one in order. -/
abbrev InOrderRun (k : Nat) (isn : BitVec 32) (stream : List Byte) : Receiver → Receiver → Prop :=
  Run TcpStep fun s event => PeerEvent k isn stream s event ∧ InOrder k isn stream s event

/-- In every state of a run in order, the delivered bytes are a prefix of the stream of the peer and
the connection acknowledges exactly them. The condition is exact: a packet that comes next leaves
the connection in step if and only if it is in order. -/
theorem tcp_receive (k : Nat) (isn : BitVec 32) (stream : List Byte) (s t : Receiver)
    (hstart : Established k isn s) (hrun : InOrderRun k isn stream s t) :
    InSync k isn stream t ∧
      ∀ tcp u, FromPeer (t.net.queueConn k) isn stream tcp → t.receive tcp = some u →
        (InSync k isn stream u ↔ InOrder k isn stream t (.segment tcp)) := by
  have hsync : InSync k isn stream t :=
    hrun.invariant (InSync k isn stream) hstart.in_sync
      fun _ _ _ hs hgood hstep => step_in_sync hs hgood.2 hstep
  refine ⟨hsync, fun tcp u hpeer hreceive => ?_⟩
  exact ⟨in_order_of_in_sync hsync hpeer hreceive, receive_in_sync hsync hreceive⟩

/-- A connection with a peer whose stream starts at sequence number 1. -/
def receiverOne : Receiver where
  net := ⟨fun i => ⟨2#32, 1#32, 7#16, 9#16, 1#32, 1#32, 0#32, tcpFlagAck, 0#8,
    if i = 0 then 1#8 else 0#8⟩, []⟩
  sockets := ⟨[], fun _ => ⟨0#8, ⟨0, 0#32, 0#32, 0#16, 0#16, noData, 0, 0#32, 0#32, 0#8⟩⟩, 0⟩
  delivered := []

/-- A packet with one byte of data, whose sequence number is `v`. -/
def segmentOne (v : Byte) : TcpPacket where
  ipLen := htons 41#16
  src := 1#32
  dst := 2#32
  srcPort := htons 9#16
  dstPort := htons 7#16
  seq := htonl (v.setWidth 32)
  ack := htonl 1#32
  off := 0x50#8
  flags := tcpFlagAck ||| tcpFlagPsh
  buf := fun _ => v

theorem receiver_one_established : Established 0 0#32 receiverOne := by
  refine ⟨by decide, rfl, rfl, rfl, rfl⟩

theorem receiver_one_accepts {tcp : TcpPacket} (h : Accepts receiverOne.net tcp i) : i = 0 := by
  have hopen := (search_spec h.found).2
  simp only [TcpConnect.open, receiverOne, decide_eq_true_eq] at hopen
  by_contra hi
  rw [if_neg hi] at hopen
  exact absurd hopen.2.1 (by decide)

/-- The packet with the byte 1 is the first piece of the stream 1, 2; the one with the byte 2 is
the second piece. -/
theorem segment_one_piece : PieceAt 0#32 [1#8, 2#8] 0 (segmentOne 1#8) :=
  ⟨by decide, by decide, by decide, by decide⟩

theorem segment_two_piece : PieceAt 0#32 [1#8, 2#8] 1 (segmentOne 2#8) :=
  ⟨by decide, by decide, by decide, by decide⟩

theorem segment_one_from_peer (v : Byte) {stream : List Byte} {pos : Nat}
    (h : PieceAt isn stream pos (segmentOne v)) :
    FromPeer (receiverOne.net.queueConn 0) isn stream (segmentOne v) :=
  have hports : htons (htons 9#16) = 9#16 ∧ htons (htons 7#16) = 7#16 := by decide
  have hfits : 20 + (0x50#8 >>> 4).toNat * 4 ≤ (htons (htons 41#16)).toNat := by decide
  have hanswer : ¬ (tcpFlagAck ||| tcpFlagPsh = tcpFlagAck ||| tcpFlagSyn) := by decide
  ⟨⟨rfl, rfl⟩, hports, hfits, fun h => absurd h hanswer, fun _ => ⟨pos, h⟩⟩

/-- What the two packets do when they come first. -/
theorem receiver_one_receive (v : Byte) (hv : v = 1#8 ∨ v = 2#8) :
    ∃ t, receiverOne.receive (segmentOne v) = some t ∧ t.delivered = [v] := by
  have hsome : (receiverOne.receive (segmentOne v)).map Receiver.delivered = some [v] := by
    obtain rfl | rfl := hv <;> decide +kernel
  exact Option.map_eq_some_iff.mp hsome

/-- The result after the first byte of the stream. -/
theorem tcp_receive_one_byte : ∃ t, InOrderRun 0 0#32 [1#8, 2#8] receiverOne t ∧
    t.delivered = [1#8] ∧ InSync 0 0#32 [1#8, 2#8] t := by
  obtain ⟨t, hreceive, hdelivered⟩ := receiver_one_receive 1#8 (Or.inl rfl)
  have horder : InOrder 0 0#32 [1#8, 2#8] receiverOne (.segment (segmentOne 1#8)) := by
    intro i haccepts
    rw [if_pos (receiver_one_accepts haccepts)]
    exact ⟨by decide, segment_one_piece, by decide⟩
  have hrun : InOrderRun 0 0#32 [1#8, 2#8] receiverOne t :=
    Run.refl.snoc (.segment (segmentOne 1#8))
      ⟨segment_one_from_peer 1#8 segment_one_piece, horder⟩ hreceive
  exact ⟨t, hrun, hdelivered, (tcp_receive 0 0#32 _ receiverOne t receiver_one_established hrun).1⟩

/-- A byte that comes before its predecessor is delivered all the same. -/
theorem tcp_skips_gap : ¬ ∀ (k : Nat) (isn : BitVec 32) (stream : List Byte) (s t : Receiver),
    Established k isn s → PeerRun k isn stream s t → InSync k isn stream t := by
  intro h
  obtain ⟨t, hreceive, hdelivered⟩ := receiver_one_receive 2#8 (Or.inr rfl)
  have hrun : PeerRun 0 0#32 [1#8, 2#8] receiverOne t :=
    Run.refl.snoc (.segment (segmentOne 2#8)) (segment_one_from_peer 2#8 segment_two_piece)
      hreceive
  have hdelivers := (h 0 0#32 _ receiverOne t receiver_one_established hrun).1
  rw [hdelivered] at hdelivers
  exact absurd hdelivers (by decide)

end Sirius.Net
