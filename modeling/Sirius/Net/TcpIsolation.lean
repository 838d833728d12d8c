import Sirius.Net.TcpCalls

/-!
# Isolation of TCP connections

`tcp_ack`, `tcp_finish` and `tcp_send_payload` are given the addresses and the ports of a segment,
but look a connection up by its local port and its state alone. So they work on the first such
connection, whichever peer it has. Each theorem below says exactly when that does no harm.
-/

namespace Sirius.Net

open Library

/-- The connection of a peer, by what identifies it. -/
structure Endpoint where
  remoteIp : BitVec 32
  (remotePort localPort : BitVec 16)

/-- The connection is the one with this peer. -/
def TcpConnect.with (conn : TcpConnect) (peer : Endpoint) : Prop :=
  conn.dstIp = peer.remoteIp ∧ conn.dstPort = peer.remotePort ∧ conn.srcPort = peer.localPort

/-- The peer that the arguments of a call name: the sender of an incoming segment, the receiver of
an outgoing one. -/
def TcpCall.peer : TcpCall → Endpoint
  | .connect _ dstAddress srcPort dstPort => ⟨dstAddress, dstPort, srcPort⟩
  | .sendPayload _ dstAddress srcPort dstPort .. => ⟨dstAddress, dstPort, srcPort⟩
  | .ack srcAddress _ srcPort dstPort .. => ⟨srcAddress, srcPort, dstPort⟩
  | .finish srcAddress _ srcPort dstPort _ => ⟨srcAddress, srcPort, dstPort⟩

/-- No field of a connection with another peer changes. -/
def Isolated (net : TcpTable) (c : TcpCall) : Prop :=
  ∀ j, ¬ (net.queueConn j).with c.peer → (c.run net).queueConn j = net.queueConn j

/-- A segment is sent on a connection, from the state of that connection. -/
structure TcpSegment.On (s : TcpSegment) (conn : TcpConnect) : Prop where
  addresses : s.srcAddress = conn.srcIp ∧ s.dstAddress = conn.dstIp
  ports : s.srcPort = conn.srcPort ∧ s.dstPort = conn.dstPort
  numbers : s.seq = conn.seq ∧ s.ack = conn.ack

/-- The call works on a connection with its peer alone: no other connection changes, and every
segment that goes out is sent on such a connection. -/
def UsesOwn (net : TcpTable) (c : TcpCall) : Prop :=
  Isolated net c ∧ ∀ segments, (c.run net).sent = segments ++ net.sent →
    ∀ s ∈ segments, ∃ j, (net.queueConn j).with c.peer ∧ s.On (net.queueConn j)

variable {net : TcpTable} {conn : TcpConnect} {c : TcpCall} {i : Nat}

/-- Only the connection that the call finds can change. -/
theorem isolated_iff : Isolated net c ↔ ∀ i, c.slot net = some i →
    (net.queueConn i).with c.peer ∨ (c.on (net.queueConn i)).1 = net.queueConn i := by
  constructor
  · intro hisolated i hslot
    refine or_iff_not_imp_left.mpr fun hother => ?_
    rw [← call_run_found hslot]
    exact hisolated i hother
  · intro hfound j hother
    by_cases hslot : c.slot net = some j
    · rw [call_run_found hslot]
      exact (hfound j hslot).resolve_left hother
    · exact call_run_other hslot

/-- `tcp_ack` changes nothing on a segment that does not acknowledge what was sent, nor on a
retransmission when the last segment sent was an acknowledgement. -/
theorem ack_same {seq ackNumber : BitVec 32} {flags : BitVec 8} {len : BitVec 32}
    {r : TcpConnect × List TcpSegment} (h : AckOutcome conn seq ackNumber flags len r) :
    r.1 = conn ↔ conn.seq ≠ ackNumber ∨
      seq + tcpAdvance flags len ≤ conn.ack ∧ conn.flags = tcpFlagAck := by
  cases h with
  | stale hseq => exact iff_of_true rfl (Or.inl hseq)
  | again hseq hold =>
      constructor
      · intro hsame
        exact Or.inr ⟨hold, (congrArg TcpConnect.flags hsame).symm⟩
      · rintro (hne | ⟨-, hflags⟩)
        · exact absurd hseq hne
        · rw [← hflags]
  | new hseq hnew =>
      refine iff_of_false (fun hsame => ?_) (fun h => ?_)
      · exact hnew (BitVec.le_of_eq (congrArg TcpConnect.ack hsame))
      · exact h.elim (fun hne => hne hseq) fun hold => hnew hold.1
  | close hseq hnew =>
      refine iff_of_false (fun hsame => ?_) (fun h => ?_)
      · exact hnew (BitVec.le_of_eq (congrArg TcpConnect.ack hsame))
      · exact h.elim (fun hne => hne hseq) fun hold => hnew hold.1

/-- `tcp_finish` changes nothing when the segment does not acknowledge what was sent. -/
theorem finish_same (srcAddress dstAddress : BitVec 32) (srcPort dstPort : BitVec 16)
    (ackNumber : BitVec 32) (hclosing : TcpConnect.closing dstPort conn = true) :
    ((TcpCall.finish srcAddress dstAddress srcPort dstPort ackNumber).on conn).1 = conn ↔
      conn.seq ≠ ackNumber := by
  simp only [TcpConnect.closing, decide_eq_true_eq] at hclosing
  by_cases hseq : conn.seq = ackNumber
  · have hfree : (TcpCall.finish srcAddress dstAddress srcPort dstPort ackNumber).on conn =
        ({ conn with busy := 0#8 }, []) := if_neg (not_not.mpr hseq)
    rw [hfree]
    refine iff_of_false (fun hsame => ?_) (not_not.mpr hseq)
    have hbusy : 0#8 = 1#8 := (congrArg TcpConnect.busy hsame).trans hclosing.2.1
    exact absurd hbusy (by decide)
  · have hkept : (TcpCall.finish srcAddress dstAddress srcPort dstPort ackNumber).on conn =
        (conn, []) := if_pos hseq
    rw [hkept]
    exact iff_of_true rfl hseq

/-- `tcp_send_payload` works on its own connection exactly when the connection that it finds is
with its peer. -/
theorem payload_uses_own (srcAddress dstAddress : BitVec 32) (srcPort dstPort : BitVec 16)
    (flags : BitVec 8) (data : Bytes) (len : BitVec 32) :
    let c := TcpCall.sendPayload srcAddress dstAddress srcPort dstPort flags data len
    UsesOwn net c ↔ ∀ i, c.slot net = some i → (net.queueConn i).with c.peer := by
  intro c
  constructor
  · intro hown i hslot
    have hopen : TcpConnect.open srcPort (net.queueConn i) = true := (slot_spec hslot).2
    simp only [TcpConnect.open, decide_eq_true_eq] at hopen
    obtain ⟨j, hwith, hon⟩ := hown.2 _ (call_run_sent hslot) _ List.mem_cons_self
    -- the segment has the addresses and ports of connection `i`
    exact ⟨hon.addresses.2.trans hwith.1, hon.ports.2.trans hwith.2.1, hopen.1⟩
  · intro hfound
    refine ⟨isolated_iff.mpr fun i hslot => Or.inl (hfound i hslot), fun segments hsent s hs => ?_⟩
    cases hslot : c.slot net with
    | none =>
        rw [call_run_none hslot] at hsent
        rw [List.self_eq_append_left.mp hsent] at hs
        cases hs
    | some i =>
        rw [call_run_sent hslot] at hsent
        rw [← List.append_cancel_right hsent] at hs
        cases List.mem_singleton.mp hs
        exact ⟨i, hfound i hslot, ⟨rfl, rfl⟩, ⟨rfl, rfl⟩, rfl, rfl⟩

/-- When the three functions leave the connections of other peers alone: the first connection in
the state that they look for with the local port is the one with the peer, or there is none, or
the segment changes nothing there. -/
theorem tcp_isolation (net : TcpTable) (srcAddress dstAddress : BitVec 32)
    (srcPort dstPort : BitVec 16) (seq ackNumber : BitVec 32) (flags : BitVec 8) (data : Bytes)
    (len : BitVec 32) :
    (Isolated net (.ack srcAddress dstAddress srcPort dstPort seq ackNumber flags len) ↔
      ∀ i, net.search (TcpConnect.open dstPort) = some i →
        (net.queueConn i).with ⟨srcAddress, srcPort, dstPort⟩ ∨
          (net.queueConn i).seq ≠ ackNumber ∨
            seq + tcpAdvance flags len ≤ (net.queueConn i).ack ∧
              (net.queueConn i).flags = tcpFlagAck) ∧
    (Isolated net (.finish srcAddress dstAddress srcPort dstPort ackNumber) ↔
      ∀ i, net.search (TcpConnect.closing dstPort) = some i →
        (net.queueConn i).with ⟨srcAddress, srcPort, dstPort⟩ ∨
          (net.queueConn i).seq ≠ ackNumber) ∧
    (UsesOwn net (.sendPayload srcAddress dstAddress srcPort dstPort flags data len) ↔
      ∀ i, net.search (TcpConnect.open srcPort) = some i →
        (net.queueConn i).with ⟨dstAddress, dstPort, srcPort⟩) := by
  refine ⟨isolated_iff.trans ?_, isolated_iff.trans ?_, payload_uses_own _ _ _ _ _ _ _⟩
  · refine forall_congr' fun i => imp_congr_right fun _ => or_congr_right ?_
    exact ack_same (ack_on_outcome _ _ _ _ _ _ _ _ _)
  · refine forall_congr' fun i => imp_congr_right fun hslot => or_congr_right ?_
    exact finish_same _ _ _ _ _ (search_spec hslot).2

/-- Two connections of the local port 7, with the peers 2 and 3. -/
def sharedPort : TcpTable :=
  ⟨fun i => ⟨1#32, if i = 0 then 2#32 else 3#32, 7#16, 9#16, 1#32, 0#32, 0#32, tcpFlagAck, 0#8,
    if i < 2 then 1#8 else 0#8⟩, []⟩

/-- A segment of peer 3 changes the connection with peer 2, and a payload for peer 3 is sent to
peer 2. -/
theorem shared_port_not_isolated :
    ¬ Isolated sharedPort
        (.ack 3#32 1#32 9#16 7#16 100#32 1#32 (tcpFlagAck ||| tcpFlagPsh) 5#32) ∧
      ¬ UsesOwn sharedPort
        (.sendPayload 1#32 3#32 7#16 9#16 (tcpFlagPsh ||| tcpFlagAck) noData 5#32) := by
  have hother : ¬ (sharedPort.queueConn 0).with ⟨3#32, 9#16, 7#16⟩ := fun h =>
    absurd h.1 (by decide)
  constructor
  · intro hisolated
    have hsame := (isolated_iff.mp hisolated 0 (slot_first rfl)).resolve_left hother
    obtain hne | ⟨hold, -⟩ := (ack_same (ack_on_outcome _ _ _ _ _ _ _ _ _)).mp hsame
    · exact hne rfl
    · exact absurd hold (by decide)
  · intro hown
    exact hother ((payload_uses_own _ _ _ _ _ _ _).mp hown 0 (slot_first rfl))

end Sirius.Net
