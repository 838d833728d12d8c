import Sirius.Net.TcpReceive

/-!
# Calls on the table of connections

`tcp_connect`, `tcp_send_payload`, `tcp_ack` and `tcp_finish` each look for one connection of the
table and work on that one. `TcpCall.slot` is the connection that a call finds, and `TcpCall.on`
what it does with it; `call_run` says that this is all that the four functions do.
-/

namespace Sirius.Net

open Library

/-- A call of one of the functions of `tcp.c`, with its arguments. -/
inductive TcpCall where
  | connect (srcAddress dstAddress : BitVec 32) (srcPort dstPort : BitVec 16)
  | sendPayload (srcAddress dstAddress : BitVec 32) (srcPort dstPort : BitVec 16)
      (flags : BitVec 8) (data : Bytes) (len : BitVec 32)
  | ack (srcAddress dstAddress : BitVec 32) (srcPort dstPort : BitVec 16) (seq ack : BitVec 32)
      (flags : BitVec 8) (len : BitVec 32)
  | finish (srcAddress dstAddress : BitVec 32) (srcPort dstPort : BitVec 16) (ack : BitVec 32)

/-- The table after the call. -/
def TcpCall.run (net : TcpTable) : TcpCall → TcpTable
  | .connect srcAddress dstAddress srcPort dstPort =>
      (tcpConnect srcAddress dstAddress srcPort dstPort net).2
  | .sendPayload srcAddress dstAddress srcPort dstPort flags data len =>
      (tcpSendPayload srcAddress dstAddress srcPort dstPort flags data len net).2
  | .ack srcAddress dstAddress srcPort dstPort seq ackNumber flags len =>
      (tcpAck srcAddress dstAddress srcPort dstPort seq ackNumber flags len net).2
  | .finish srcAddress dstAddress srcPort dstPort ackNumber =>
      tcpFinish srcAddress dstAddress srcPort dstPort ackNumber net

/-- The connection that `tcp_finish` looks for. -/
def TcpConnect.closing (port : BitVec 16) (conn : TcpConnect) : Bool :=
  conn.srcPort = port ∧ conn.busy = 1#8 ∧ conn.status = 1#8

/-- The test of the search with which a call begins. -/
def TcpCall.wants : TcpCall → TcpConnect → Bool
  | .connect .. => fun conn => conn.busy = 0#8
  | .sendPayload _ _ srcPort .. => TcpConnect.open srcPort
  | .ack _ _ _ dstPort .. => TcpConnect.open dstPort
  | .finish _ _ _ dstPort _ => TcpConnect.closing dstPort

/-- The connection that a call finds. -/
def TcpCall.slot (net : TcpTable) (c : TcpCall) : Option Nat := net.search c.wants

/-- The connection that `tcp_connect` stores before it sends. -/
def newConnect (srcAddress dstAddress : BitVec 32) (srcPort dstPort : BitVec 16) : TcpConnect :=
  { srcIp := srcAddress, dstIp := dstAddress, srcPort, dstPort, seq := 0#32, ack := 0#32,
    pack := 0#32, flags := tcpFlagSyn, status := 0#8, busy := 1#8 }

/-- The connection after `tcp_ack` acknowledged a segment. -/
def TcpConnect.acknowledge (conn : TcpConnect) (seq ack : BitVec 32) (flags : BitVec 8)
    (len : BitVec 32) : TcpConnect :=
  { conn with pack := ack, ack := seq + tcpAdvance flags len, flags := tcpFlagAck }

/-- What a call does with the connection that it finds: the connection after the call and the
segments sent, the last one first. -/
def TcpCall.on (conn : TcpConnect) : TcpCall → TcpConnect × List TcpSegment
  | .connect srcAddress dstAddress srcPort dstPort =>
      let conn := newConnect srcAddress dstAddress srcPort dstPort
      ({ conn with seq := conn.seq + 1#32 }, [conn.segment noData 0#32])
  | .sendPayload _ _ _ _ flags data len =>
      let conn := { conn with flags := flags }
      ({ conn with
          seq := conn.seq + len
          status := if flags &&& tcpFlagFin ≠ 0#8 then 1#8 else conn.status },
        [conn.segment data len])
  | .ack _ _ _ _ seq ackNumber flags len =>
      if conn.seq ≠ ackNumber then (conn, [])
      else if seq + tcpAdvance flags len ≤ conn.ack then
        let conn := { conn with flags := tcpFlagAck }
        (conn, [conn.segment noData 0#32])
      else
        let conn := conn.acknowledge seq ackNumber flags len
        if flags &&& tcpFlagFin ≠ 0#8 then
          let last := { conn with flags := tcpFlagFin ||| tcpFlagAck }
          ({ conn with flags := 0#8, seq := conn.seq + 1#32, status := 1#8 },
            [last.segment noData 0#32, conn.segment noData 0#32])
        else (conn, [conn.segment noData 0#32])
  | .finish _ _ _ _ ackNumber =>
      if conn.seq ≠ ackNumber then (conn, []) else ({ conn with busy := 0#8 }, [])

variable {net : TcpTable} {conn : TcpConnect} {i j : Nat} {c : TcpCall}

theorem store_self (net : TcpTable) (i : Nat) : net.store i (net.queueConn i) = net := by
  simp [TcpTable.store]

/-- A call works on the connection that it finds, and on nothing else. -/
theorem call_run (c : TcpCall) (net : TcpTable) :
    c.run net = match c.slot net with
      | none => net
      | some i =>
          { net.store i (c.on (net.queueConn i)).1 with
            sent := (c.on (net.queueConn i)).2 ++ net.sent } := by
  cases c with
  | connect srcAddress dstAddress srcPort dstPort =>
      unfold TcpCall.run tcpConnect TcpCall.slot TcpCall.wants
      cases hfound : net.search fun conn => conn.busy = 0#8 with
      | none => rfl
      | some i => rfl
  | sendPayload srcAddress dstAddress srcPort dstPort flags data len =>
      unfold TcpCall.run tcpSendPayload TcpCall.slot TcpCall.wants
      cases hfound : net.search (TcpConnect.open srcPort) with
      | none => simp only [hfound]
      | some i =>
          simp only [hfound, TcpCall.on, tcpSend, TcpTable.store, List.singleton_append]
          split <;> rfl
  | ack srcAddress dstAddress srcPort dstPort seq ackNumber flags len =>
      unfold TcpCall.run tcpAck TcpCall.slot TcpCall.wants
      cases hfound : net.search (TcpConnect.open dstPort) with
      | none => simp only [hfound]
      | some i =>
          simp only [hfound, TcpCall.on]
          split
          · -- the acknowledgement number is not the connection's
            simp only [store_self, List.nil_append]
          · split
            · simp only [tcpSend, TcpTable.store, List.singleton_append]
            · split
              · simp only [tcpSend, TcpTable.store, Function.update_idem, TcpConnect.acknowledge,
                  List.cons_append, List.nil_append]
                rfl
              · simp only [tcpSend, TcpTable.store, TcpConnect.acknowledge, List.singleton_append]
  | finish srcAddress dstAddress srcPort dstPort ackNumber =>
      have hclosing : (fun conn : TcpConnect =>
          decide (conn.srcPort = dstPort ∧ conn.busy = 1#8 ∧ conn.status = 1#8)) =
            TcpConnect.closing dstPort := rfl
      unfold TcpCall.run tcpFinish TcpCall.slot TcpCall.wants
      simp only [hclosing]
      cases net.search (TcpConnect.closing dstPort) with
      | none => rfl
      | some i =>
          simp only [TcpCall.on]
          split
          · simp only [store_self, List.nil_append]
          · simp only [TcpTable.store, List.nil_append]

theorem call_run_none (h : c.slot net = none) : c.run net = net := by
  rw [call_run, h]

/-- The connection that the call found. -/
theorem call_run_found (h : c.slot net = some i) :
    (c.run net).queueConn i = (c.on (net.queueConn i)).1 := by
  rw [call_run, h]
  simp [TcpTable.store]

/-- The connections that the call did not find. -/
theorem call_run_other (h : c.slot net ≠ some j) :
    (c.run net).queueConn j = net.queueConn j := by
  cases hslot : c.slot net with
  | none => rw [call_run_none hslot]
  | some i =>
      have hj : j ≠ i := fun hj => h (hj ▸ hslot)
      rw [call_run, hslot]
      simp [TcpTable.store, Function.update_of_ne hj]

theorem call_run_sent (h : c.slot net = some i) :
    (c.run net).sent = (c.on (net.queueConn i)).2 ++ net.sent := by
  rw [call_run, h]

theorem slot_spec (h : c.slot net = some i) : i < 1024 ∧ c.wants (net.queueConn i) = true :=
  search_spec h

theorem slot_first (hwants : c.wants (net.queueConn 0) = true) : c.slot net = some 0 :=
  List.find?_range_eq_some.mpr
    ⟨hwants, List.mem_range.mpr (by decide), fun _ hj => absurd hj (Nat.not_lt_zero _)⟩

/-! ### Outcomes -/

/-- What `tcp_ack` makes of the connection that it finds. -/
inductive AckOutcome (conn : TcpConnect) (seq ackNumber : BitVec 32) (flags : BitVec 8)
    (len : BitVec 32) : TcpConnect × List TcpSegment → Prop where
  /-- The segment does not acknowledge what was sent. -/
  | stale (hseq : conn.seq ≠ ackNumber) : AckOutcome conn seq ackNumber flags len (conn, [])
  /-- The segment is a retransmission. -/
  | again (hseq : conn.seq = ackNumber) (hold : seq + tcpAdvance flags len ≤ conn.ack) :
      AckOutcome conn seq ackNumber flags len ({ conn with flags := tcpFlagAck },
        [({ conn with flags := tcpFlagAck } : TcpConnect).segment noData 0#32])
  /-- The segment is new. -/
  | new (hseq : conn.seq = ackNumber) (hnew : ¬ seq + tcpAdvance flags len ≤ conn.ack)
      (hfin : flags &&& tcpFlagFin = 0#8) :
      AckOutcome conn seq ackNumber flags len (conn.acknowledge seq ackNumber flags len,
        [(conn.acknowledge seq ackNumber flags len).segment noData 0#32])
  /-- The segment is new and closes the connection, which answers with a FIN. -/
  | close (hseq : conn.seq = ackNumber) (hnew : ¬ seq + tcpAdvance flags len ≤ conn.ack)
      (hfin : flags &&& tcpFlagFin ≠ 0#8) :
      AckOutcome conn seq ackNumber flags len
        ({ conn.acknowledge seq ackNumber flags len with
            flags := 0#8, seq := conn.seq + 1#32, status := 1#8 },
          [({ conn.acknowledge seq ackNumber flags len with
              flags := tcpFlagFin ||| tcpFlagAck } : TcpConnect).segment noData 0#32,
            (conn.acknowledge seq ackNumber flags len).segment noData 0#32])

theorem ack_on_outcome (conn : TcpConnect) (srcAddress dstAddress : BitVec 32)
    (srcPort dstPort : BitVec 16) (seq ackNumber : BitVec 32) (flags : BitVec 8)
    (len : BitVec 32) :
    AckOutcome conn seq ackNumber flags len
      ((TcpCall.ack srcAddress dstAddress srcPort dstPort seq ackNumber flags len).on conn) := by
  simp only [TcpCall.on]
  split
  · rename_i hseq
    exact AckOutcome.stale hseq
  · rename_i hseq
    have hseq := not_not.mp hseq
    split
    · rename_i hold
      exact AckOutcome.again hseq hold
    · rename_i hnew
      split
      · rename_i hfin
        exact AckOutcome.close hseq hnew hfin
      · rename_i hfin
        exact AckOutcome.new hseq hnew (not_not.mp hfin)

/-! ### Incoming segments -/

/-- The call that `handler_ethernet_package_received` makes for a packet. -/
def TcpPacket.call (tcp : TcpPacket) : Option TcpCall :=
  if tcp.acknowledged then
    some (.ack tcp.src tcp.dst (htons tcp.srcPort) (htons tcp.dstPort) (htonl tcp.seq)
      (htonl tcp.ack) tcp.flags tcp.len)
  else if tcp.flags = tcpFlagAck then
    some (.finish tcp.src tcp.dst (htons tcp.srcPort) (htons tcp.dstPort) (htonl tcp.ack))
  else none

/-- The handler does with the table what the call does. -/
theorem handler_tcp_call (tcp : TcpPacket) (net : TcpTable) :
    (handlerTcp tcp net).2 = (tcp.call.map fun c => c.run net).getD net := by
  unfold handlerTcp TcpPacket.call TcpPacket.callAck
  by_cases hack : tcp.acknowledged = true
  · simp only [hack, if_true, Option.map_some, Option.getD_some, TcpCall.run,
      apply_ite Prod.snd, ite_self]
  · simp only [hack, Bool.false_eq_true, if_false]
    by_cases hflags : tcp.flags = tcpFlagAck
    · simp only [hflags, if_true, Option.map_some, Option.getD_some, TcpCall.run]
    · simp only [hflags, if_false, Option.map_none, Option.getD_none]

end Sirius.Net
