import Sirius.Net.TcpCalls

/-!
# Sequence numbers of a TCP connection

The history of the table: for every slot the segments sent on its connection since `tcp_connect`
took it, and whether our FIN on it has been acknowledged. `seq` counts what these segments take of
the sequence numbers as long as `tcp_send_payload` sends neither a SYN nor a FIN, since it moves
`seq` by the data alone. A slot becomes free when the acknowledgement of our FIN goes to
`tcp_finish` and finds the slot there: that is, when the segment has no flag but `TCP_ACK`, and no
connection before it is closing on the same local port.
-/

namespace Sirius.Net

open Library

/-- The sequence numbers that the flags take: one for a SYN and one for a FIN. -/
def controlSpace (flags : BitVec 8) : BitVec 32 :=
  (if flags &&& tcpFlagSyn ≠ 0#8 then 1#32 else 0#32) +
    (if flags &&& tcpFlagFin ≠ 0#8 then 1#32 else 0#32)

/-- The sequence numbers that a segment takes. -/
def TcpSegment.space (s : TcpSegment) : BitVec 32 := s.length + controlSpace s.flags

/-- The sequence numbers that segments take together. -/
def sequenceSpace (segments : List TcpSegment) : BitVec 32 :=
  (segments.map TcpSegment.space).sum

/-- One of the segments is a FIN. -/
def FinSent (segments : List TcpSegment) : Prop :=
  ∃ s ∈ segments, s.flags &&& tcpFlagFin ≠ 0#8

/-- What happens to the table: a call, or a TCP packet that `handler_ethernet_package_received`
passes on. -/
inductive TcpInput where
  | call (c : TcpCall)
  | segment (tcp : TcpPacket)

/-- The call that is made. -/
def TcpInput.call? : TcpInput → Option TcpCall
  | .call c => some c
  | .segment tcp => tcp.call

/-- The slot that the call finds. -/
def TcpInput.slot (net : TcpTable) (e : TcpInput) : Option Nat := e.call?.bind fun c => c.slot net

/-- An acknowledgement of a peer, with its addresses and ports. -/
structure PeerAck where
  (srcAddress dstAddress : BitVec 32)
  (srcPort dstPort : BitVec 16)
  ack : BitVec 32

/-- The acknowledgement that comes in. -/
def TcpInput.carries : TcpInput → Option PeerAck
  | .call (.ack srcAddress dstAddress srcPort dstPort _ ack flags _) =>
      if flags &&& tcpFlagAck ≠ 0#8 then some ⟨srcAddress, dstAddress, srcPort, dstPort, ack⟩
      else none
  | .call (.finish srcAddress dstAddress srcPort dstPort ack) =>
      some ⟨srcAddress, dstAddress, srcPort, dstPort, ack⟩
  | .segment tcp =>
      if tcp.flags &&& tcpFlagAck ≠ 0#8 then
        some ⟨tcp.src, tcp.dst, htons tcp.srcPort, htons tcp.dstPort, htonl tcp.ack⟩
      else none
  | _ => none

/-- The acknowledgement is for a connection. -/
structure PeerAck.For (a : PeerAck) (conn : TcpConnect) : Prop where
  addresses : a.srcAddress = conn.dstIp ∧ a.dstAddress = conn.srcIp
  ports : a.srcPort = conn.dstPort ∧ a.dstPort = conn.srcPort

/-- The table, the segments sent on the connection of each slot that `tcp_connect` took, the last
one first, and the slots whose FIN has been acknowledged. -/
structure TcpHistory where
  net : TcpTable
  sent : Nat → Option (List TcpSegment)
  acked : Nat → Prop

/-- No connection has been made yet. The table may hold anything. -/
def TcpHistory.start (net : TcpTable) : TcpHistory := ⟨net, fun _ => none, fun _ => False⟩

/-- The peer acknowledges all that was sent on connection `k`, our FIN included. -/
structure TcpHistory.FinAcked (h : TcpHistory) (e : TcpInput) (k : Nat)
    (segments : List TcpSegment) (a : PeerAck) : Prop where
  sent : h.sent k = some segments
  fin : FinSent segments
  carries : e.carries = some a
  peer : a.For (h.net.queueConn k)
  ack : a.ack = sequenceSpace segments

/-- The segments of a connection after a call that found it. -/
def TcpCall.extends (conn : TcpConnect) (sent : Option (List TcpSegment)) :
    TcpCall → Option (List TcpSegment)
  | c@(.connect ..) => some (c.on conn).2
  | c => sent.map ((c.on conn).2 ++ ·)

/-- The call takes a slot for a new connection. -/
def TcpCall.isConnect : TcpCall → Bool
  | .connect .. => true
  | _ => false

/-- The history after a call. -/
def TcpHistory.call (h : TcpHistory) (c : TcpCall) : TcpHistory where
  net := c.run h.net
  sent := fun k => if c.slot h.net = some k then c.extends (h.net.queueConn k) (h.sent k)
    else h.sent k
  acked := fun k => ¬ (c.isConnect = true ∧ c.slot h.net = some k) ∧ h.acked k

/-- The history after the call that an input makes. -/
def TcpHistory.called (h : TcpHistory) (e : TcpInput) : TcpHistory :=
  match e.call? with
  | none => h
  | some c => h.call c

/-- The history after an input. -/
def TcpHistory.after (h : TcpHistory) (e : TcpInput) : TcpHistory :=
  { h.called e with
    acked := fun k => (h.called e).acked k ∨ ∃ segments a, h.FinAcked e k segments a }

/-- A step of the table. -/
def TcpInputStep (h : TcpHistory) (e : TcpInput) (h' : TcpHistory) : Prop := h' = h.after e

/-- Every connection has counted what it sent, and its slot is free once its FIN is acknowledged. -/
def TcpHistory.Accounted (h : TcpHistory) : Prop :=
  ∀ k segments, h.sent k = some segments →
    (h.net.queueConn k).seq = sequenceSpace segments ∧
      (h.acked k → (h.net.queueConn k).busy = 0#8)

/-- `tcp_send_payload` sends neither a SYN nor a FIN on a connection, and an acknowledgement of our
FIN goes to `tcp_finish` and finds the slot, unless the slot is free already. -/
structure TcpHistory.Meets (h : TcpHistory) (e : TcpInput) : Prop where
  payload : ∀ srcAddress dstAddress srcPort dstPort flags data len k,
    e.call? = some (.sendPayload srcAddress dstAddress srcPort dstPort flags data len) →
      e.slot h.net = some k → h.sent k ≠ none → flags &&& (tcpFlagSyn ||| tcpFlagFin) = 0#8
  ack : ∀ k segments a, h.FinAcked e k segments a → (h.net.queueConn k).busy = 0#8 ∨
    e.call? = some (.finish a.srcAddress a.dstAddress a.srcPort a.dstPort a.ack) ∧
      e.slot h.net = some k

/-- The runs whose steps meet the condition. -/
def AccountedRun : TcpHistory → TcpHistory → Prop := Run TcpInputStep fun h e => h.Meets e

variable {h h' : TcpHistory} {net : TcpTable} {conn : TcpConnect} {c : TcpCall} {e : TcpInput}
  {k : Nat} {segments segments' : List TcpSegment}

/-! ### Sequence numbers -/

theorem control_space_zero (flags : BitVec 8) :
    controlSpace flags = 0#32 ↔ flags &&& (tcpFlagSyn ||| tcpFlagFin) = 0#8 := by
  revert flags
  decide

theorem sequence_space_append (segments segments' : List TcpSegment) :
    sequenceSpace (segments ++ segments') = sequenceSpace segments + sequenceSpace segments' := by
  rw [sequenceSpace, List.map_append, List.sum_append]
  rfl

theorem fin_sent_append (h : FinSent (segments ++ segments')) :
    FinSent segments ∨ FinSent segments' := by
  obtain ⟨s, hs, hfin⟩ := h
  cases List.mem_append.mp hs with
  | inl hs => exact Or.inl ⟨s, hs, hfin⟩
  | inr hs => exact Or.inr ⟨s, hs, hfin⟩

theorem fin_sent_singleton {s : TcpSegment} (h : FinSent [s]) : s.flags &&& tcpFlagFin ≠ 0#8 := by
  obtain ⟨t, ht, hfin⟩ := h
  rwa [List.mem_singleton.mp ht] at hfin

theorem not_fin_sent_nil : ¬ FinSent [] := fun ⟨_, hs, _⟩ => List.not_mem_nil hs

theorem sequence_space_singleton (s : TcpSegment) : sequenceSpace [s] = s.space := by
  rw [sequenceSpace, List.map_singleton, List.sum_singleton]

/-- An acknowledgement takes no sequence number. -/
theorem ack_space (hflags : conn.flags = tcpFlagAck) :
    sequenceSpace [conn.segment noData 0#32] = 0#32 :=
  calc sequenceSpace [conn.segment noData 0#32]
    _ = 0#32 + controlSpace conn.flags := sequence_space_singleton _
    _ = 0#32 := by rw [hflags]; decide

theorem fin_ack_space (hflags : conn.flags = tcpFlagFin ||| tcpFlagAck) :
    sequenceSpace [conn.segment noData 0#32] = 1#32 :=
  calc sequenceSpace [conn.segment noData 0#32]
    _ = 0#32 + controlSpace conn.flags := sequence_space_singleton _
    _ = 1#32 := by rw [hflags]; decide

theorem ack_not_fin (hflags : conn.flags = tcpFlagAck) :
    ¬ FinSent [conn.segment noData 0#32] := fun hfin => by
  have hset := fin_sent_singleton hfin
  simp only [TcpConnect.segment, hflags] at hset
  exact absurd hset (by decide)

/-! ### The four functions -/

/-- What a call keeps of a connection: `seq` moves by the sequence numbers of what is sent, the slot
stays taken, and a FIN closes the connection. -/
structure Keeps (conn : TcpConnect) (r : TcpConnect × List TcpSegment) : Prop where
  busy : r.1.busy = conn.busy
  seq : r.1.seq = sequenceSpace r.2 + conn.seq
  fin : FinSent r.2 → r.1.status = 1#8

theorem ack_keeps {seq ackNumber : BitVec 32} {flags : BitVec 8} {len : BitVec 32}
    {r : TcpConnect × List TcpSegment} (h : AckOutcome conn seq ackNumber flags len r) :
    Keeps conn r := by
  cases h with
  | stale => exact ⟨rfl, (BitVec.zero_add _).symm, fun hfin => absurd hfin not_fin_sent_nil⟩
  | again =>
      refine ⟨rfl, ?_, fun hfin => absurd hfin (ack_not_fin rfl)⟩
      rw [ack_space rfl, BitVec.zero_add]
  | new =>
      refine ⟨rfl, ?_, fun hfin => absurd hfin (ack_not_fin rfl)⟩
      rw [ack_space rfl, BitVec.zero_add]
      rfl
  | close =>
      refine ⟨rfl, ?_, fun _ => rfl⟩
      rw [← List.singleton_append, sequence_space_append, fin_ack_space rfl, ack_space rfl,
        BitVec.add_zero, BitVec.add_comm]

/-- `tcp_send_payload` moves `seq` by the data alone. -/
theorem payload_seq (conn : TcpConnect) (srcAddress dstAddress : BitVec 32)
    (srcPort dstPort : BitVec 16) (flags : BitVec 8) (data : Bytes) (len : BitVec 32) :
    let r := (TcpCall.sendPayload srcAddress dstAddress srcPort dstPort flags data len).on conn
    r.1.seq + controlSpace flags = sequenceSpace r.2 + conn.seq := by
  have hspace : sequenceSpace [({ conn with flags := flags } : TcpConnect).segment data len] =
      len + controlSpace flags := sequence_space_singleton _
  show conn.seq + len + controlSpace flags = sequenceSpace _ + conn.seq
  rw [TcpCall.on, hspace, BitVec.add_comm (len + controlSpace flags), BitVec.add_assoc]

theorem payload_keeps (srcAddress dstAddress : BitVec 32) (srcPort dstPort : BitVec 16)
    {flags : BitVec 8} (data : Bytes) (len : BitVec 32)
    (hflags : flags &&& (tcpFlagSyn ||| tcpFlagFin) = 0#8) :
    Keeps conn ((TcpCall.sendPayload srcAddress dstAddress srcPort dstPort flags data len).on
      conn) where
  busy := rfl
  seq := by
    rw [← payload_seq, (control_space_zero flags).mpr hflags, BitVec.add_zero]
  fin := fun hfin => if_pos (fin_sent_singleton hfin)

/-! ### Steps -/

/-- Every connection has counted what it sent; a connection whose FIN was sent is closing, and its
slot is free once the FIN is acknowledged. -/
structure Account (conn : TcpConnect) (segments : List TcpSegment) (acked : Prop) : Prop where
  seq : conn.seq = sequenceSpace segments
  busy : conn.busy = 0#8 ∨ conn.busy = 1#8
  closing : FinSent segments → conn.busy = 1#8 → conn.status = 1#8
  free : acked → conn.busy = 0#8

def TcpHistory.Inv (h : TcpHistory) : Prop :=
  ∀ k segments, h.sent k = some segments → Account (h.net.queueConn k) segments (h.acked k)

theorem Account.not_fin {acked : Prop} (h : Account conn segments acked) {port : BitVec 16}
    (hopen : TcpConnect.open port conn = true) : ¬ FinSent segments := fun hfin => by
  simp only [TcpConnect.open, decide_eq_true_eq] at hopen
  have hclosing := h.closing hfin hopen.2.1
  rw [hopen.2.2] at hclosing
  exact absurd hclosing (by decide)

/-- A call on an open connection that moves `seq` by what it sends. -/
theorem Account.keeps {acked : Prop} (h : Account conn segments acked) {port : BitVec 16}
    (hopen : TcpConnect.open port conn = true) {r : TcpConnect × List TcpSegment}
    (hkeeps : Keeps conn r) : Account r.1 (r.2 ++ segments) acked where
  seq := by rw [hkeeps.seq, sequence_space_append, h.seq]
  busy := by rw [hkeeps.busy]; exact h.busy
  closing := fun hfin _ => by
    cases fin_sent_append hfin with
    | inl hnew => exact hkeeps.fin hnew
    | inr hold => exact absurd hold (h.not_fin hopen)
  free := fun hacked => by rw [hkeeps.busy]; exact h.free hacked

theorem Account.mono {acked acked' : Prop} (h : Account conn segments acked)
    (himp : acked' → acked) : Account conn segments acked' :=
  ⟨h.seq, h.busy, h.closing, fun hacked => h.free (himp hacked)⟩

/-- `tcp_connect` starts the account of a slot. -/
theorem connect_account (srcAddress dstAddress : BitVec 32) (srcPort dstPort : BitVec 16)
    {acked : Prop} (hacked : ¬ acked) :
    let r := (TcpCall.connect srcAddress dstAddress srcPort dstPort).on conn
    Account r.1 r.2 acked where
  seq := by
    have hspace : sequenceSpace
        [(newConnect srcAddress dstAddress srcPort dstPort).segment noData 0#32] =
          0#32 + controlSpace tcpFlagSyn := sequence_space_singleton _
    have hseq : 0#32 + 1#32 = 0#32 + controlSpace tcpFlagSyn := by decide
    exact hseq.trans hspace.symm
  busy := Or.inr rfl
  closing := fun hfin => absurd (fin_sent_singleton hfin) (by
    show ¬ tcpFlagSyn &&& tcpFlagFin ≠ 0#8
    decide)
  free := fun h => absurd h hacked

/-- `tcp_finish` frees the slot or leaves it alone. -/
theorem finish_account {acked : Prop} (h : Account conn segments acked)
    (srcAddress dstAddress : BitVec 32) (srcPort dstPort : BitVec 16) (ackNumber : BitVec 32) :
    let r := (TcpCall.finish srcAddress dstAddress srcPort dstPort ackNumber).on conn
    Account r.1 (r.2 ++ segments) acked := by
  simp only [TcpCall.on]
  split
  · exact h
  · have hbusy : ¬ 0#8 = 1#8 := by decide
    exact ⟨h.seq, Or.inl rfl, fun _ hset => absurd hset hbusy, fun _ => rfl⟩

theorem call_found (hslot : c.slot h.net = some k) :
    (h.call c).net.queueConn k = (c.on (h.net.queueConn k)).1 := call_run_found hslot

theorem call_sent_found (hslot : c.slot h.net = some k) :
    (h.call c).sent k = c.extends (h.net.queueConn k) (h.sent k) := by
  simp only [TcpHistory.call, hslot, if_true]

theorem call_sent_other (hslot : c.slot h.net ≠ some k) : (h.call c).sent k = h.sent k := by
  simp only [TcpHistory.call, hslot, if_false]

/-- A call keeps the accounts, unless it sends a SYN or a FIN as a payload. -/
theorem call_inv (hinv : h.Inv)
    (hpayload : ∀ srcAddress dstAddress srcPort dstPort flags data len k,
      c = .sendPayload srcAddress dstAddress srcPort dstPort flags data len →
        c.slot h.net = some k → h.sent k ≠ none → flags &&& (tcpFlagSyn ||| tcpFlagFin) = 0#8) :
    (h.call c).Inv := by
  intro k segments' hsent
  by_cases hslot : c.slot h.net = some k
  case neg =>
      have hconn : (h.call c).net.queueConn k = h.net.queueConn k := call_run_other hslot
      rw [hconn]
      rw [call_sent_other hslot] at hsent
      exact (hinv k segments' hsent).mono And.right
  rw [call_sent_found hslot] at hsent
  have hwants := (slot_spec hslot).2
  rw [call_found hslot]
  cases c with
  | connect srcAddress dstAddress srcPort dstPort =>
      cases hsent
      exact connect_account _ _ _ _ fun hacked => hacked.1 ⟨rfl, hslot⟩
  | sendPayload srcAddress dstAddress srcPort dstPort flags data len =>
      obtain ⟨segments, hold, rfl⟩ := Option.map_eq_some_iff.mp hsent
      have hflags := hpayload _ _ _ _ _ _ _ k rfl hslot (by rw [hold]; exact Option.some_ne_none _)
      exact ((hinv k segments hold).keeps hwants (payload_keeps _ _ _ _ _ _ hflags)).mono And.right
  | ack srcAddress dstAddress srcPort dstPort seq ackNumber flags len =>
      obtain ⟨segments, hold, rfl⟩ := Option.map_eq_some_iff.mp hsent
      exact ((hinv k segments hold).keeps hwants
        (ack_keeps (ack_on_outcome _ _ _ _ _ _ _ _ _))).mono And.right
  | finish srcAddress dstAddress srcPort dstPort ackNumber =>
      obtain ⟨segments, hold, rfl⟩ := Option.map_eq_some_iff.mp hsent
      exact (finish_account (hinv k segments hold) _ _ _ _ _).mono And.right

/-! ### Acknowledgements -/

theorem input_slot (hcall : e.call? = some c) : e.slot net = c.slot net := by
  simp only [TcpInput.slot, hcall, Option.bind_some]

/-- The acknowledgement of a peer goes to `tcp_ack` or to `tcp_finish`. -/
theorem carries_call {a : PeerAck} (hcall : e.call? = some c) (hcarries : e.carries = some a) :
    (∃ seq flags len,
        c = .ack a.srcAddress a.dstAddress a.srcPort a.dstPort seq a.ack flags len) ∨
      c = .finish a.srcAddress a.dstAddress a.srcPort a.dstPort a.ack := by
  cases e with
  | call c' =>
      cases hcall
      cases c with
      | connect => cases hcarries
      | sendPayload => cases hcarries
      | ack srcAddress dstAddress srcPort dstPort seq ackNumber flags len =>
          simp only [TcpInput.carries, Option.ite_none_right_eq_some, Option.some.injEq] at hcarries
          obtain ⟨-, rfl⟩ := hcarries
          exact Or.inl ⟨seq, flags, len, rfl⟩
      | finish =>
          cases hcarries
          exact Or.inr rfl
  | segment tcp =>
      simp only [TcpInput.carries, Option.ite_none_right_eq_some, Option.some.injEq] at hcarries
      obtain ⟨-, rfl⟩ := hcarries
      simp only [TcpInput.call?, TcpPacket.call] at hcall
      split at hcall
      · exact Or.inl ⟨_, _, _, (Option.some.inj hcall).symm⟩
      · split at hcall
        · exact Or.inr (Option.some.inj hcall).symm
        · cases hcall

/-- A connection that a call other than `tcp_connect` finds is not free. -/
theorem open_busy {port : BitVec 16} (h : TcpConnect.open port conn = true) : conn.busy = 1#8 := by
  simp only [TcpConnect.open, decide_eq_true_eq] at h
  exact h.2.1

theorem one_ne_free (h : conn.busy = 1#8) : conn.busy ≠ 0#8 := by
  rw [h]
  decide

/-- After the acknowledgement of our FIN the slot is free exactly when it was free before or
`tcp_finish` finds it. -/
theorem fin_acked_free {a : PeerAck} (hinv : h.Inv) (hacked : h.FinAcked e k segments a) :
    ((h.called e).net.queueConn k).busy = 0#8 ↔
      (h.net.queueConn k).busy = 0#8 ∨
        e.call? = some (.finish a.srcAddress a.dstAddress a.srcPort a.dstPort a.ack) ∧
          e.slot h.net = some k := by
  cases hcall : e.call? with
  | none =>
      have hslot : e.slot h.net = none := by simp only [TcpInput.slot, hcall, Option.bind_none]
      simp only [TcpHistory.called, hcall, hslot, reduceCtorEq, false_and, or_false]
  | some c =>
      have hcalled : h.called e = h.call c := by rw [TcpHistory.called, hcall]
      have hslot : e.slot h.net = c.slot h.net := input_slot hcall
      rw [hcalled, hslot]
      by_cases hfound : c.slot h.net = some k
      case neg =>
          have hsame : (h.call c).net.queueConn k = h.net.queueConn k := call_run_other hfound
          rw [hsame, and_iff_right_of_imp fun hk => absurd hk hfound]
          exact (or_iff_left hfound).symm
      have hwants := (slot_spec hfound).2
      rw [call_found hfound]
      obtain ⟨seq, flags, len, rfl⟩ | rfl := carries_call hcall hacked.carries
      · have hbusy := one_ne_free (open_busy hwants)
        rw [(ack_keeps (ack_on_outcome _ _ _ _ _ _ _ _ _)).busy]
        refine iff_of_false hbusy fun h => h.elim hbusy fun h => ?_
        cases h.1
      · have hseq : (h.net.queueConn k).seq = a.ack :=
          (hinv k segments hacked.sent).seq.trans hacked.ack.symm
        have hfree : (TcpCall.finish a.srcAddress a.dstAddress a.srcPort a.dstPort a.ack).on
            (h.net.queueConn k) = ({ h.net.queueConn k with busy := 0#8 }, []) :=
          if_neg (not_not.mpr hseq)
        rw [hfree]
        exact iff_of_true rfl (Or.inr ⟨rfl, hfound⟩)

theorem called_inv (hinv : h.Inv) (hmeets : h.Meets e) : (h.called e).Inv := by
  rw [TcpHistory.called]
  cases hcall : e.call? with
  | none => exact hinv
  | some c =>
      refine call_inv hinv fun srcAddress dstAddress srcPort dstPort flags data len k hc hslot => ?_
      exact hmeets.payload srcAddress dstAddress srcPort dstPort flags data len k (hc ▸ hcall)
        ((input_slot hcall).trans hslot)

/-- An input that meets the condition keeps the accounts. -/
theorem input_inv (hinv : h.Inv) (hmeets : h.Meets e) : (h.after e).Inv := by
  intro k segments' hsent
  have haccount : Account ((h.called e).net.queueConn k) segments' ((h.called e).acked k) :=
    called_inv hinv hmeets k segments' hsent
  refine ⟨haccount.seq, haccount.busy, haccount.closing, fun hacked => ?_⟩
  cases hacked with
  | inl hacked => exact haccount.free hacked
  | inr hacked =>
      obtain ⟨segments, a, hacked⟩ := hacked
      exact (fin_acked_free hinv hacked).mpr (hmeets.ack k segments a hacked)

theorem Inv.accounted (hinv : h.Inv) : h.Accounted := fun k segments hsent =>
  ⟨(hinv k segments hsent).seq, (hinv k segments hsent).free⟩

theorem start_inv (net : TcpTable) : (TcpHistory.start net).Inv := fun _ _ hsent => nomatch hsent

/-- The segments of a connection are kept by a call, or start again. -/
theorem called_sent (hsent : h.sent k = some segments) :
    ∃ segments', (h.called e).sent k = some segments' := by
  rw [TcpHistory.called]
  cases hcall : e.call? with
  | none => exact ⟨segments, hsent⟩
  | some c =>
      by_cases hslot : c.slot h.net = some k
      · show ∃ segments', (h.call c).sent k = some segments'
        rw [call_sent_found hslot, hsent]
        cases c <;> exact ⟨_, rfl⟩
      · exact ⟨segments, (call_sent_other hslot).trans hsent⟩

/-- Only an input that meets the condition keeps what the connections have counted. -/
theorem meets_of_accounted (hinv : h.Inv) (haccounted : (h.after e).Accounted) : h.Meets e where
  payload := fun srcAddress dstAddress srcPort dstPort flags data len k hcall hslot htracked => by
    obtain ⟨segments, hsent⟩ := Option.ne_none_iff_exists'.mp htracked
    rw [input_slot hcall] at hslot
    have hcalled : h.called e =
        h.call (.sendPayload srcAddress dstAddress srcPort dstPort flags data len) := by
      rw [TcpHistory.called, hcall]
    have hconn : (h.called e).net.queueConn k =
        ((TcpCall.sendPayload srcAddress dstAddress srcPort dstPort flags data len).on
          (h.net.queueConn k)).1 := by
      rw [hcalled, call_found hslot]
    have hafter : (h.after e).sent k =
        some (((TcpCall.sendPayload srcAddress dstAddress srcPort dstPort flags data len).on
          (h.net.queueConn k)).2 ++ segments) := by
      show (h.called e).sent k = _
      rw [hcalled, call_sent_found hslot, hsent]
      rfl
    have hseq : ((h.called e).net.queueConn k).seq = _ := (haccounted k _ hafter).1
    have hlaw := payload_seq (h.net.queueConn k) srcAddress dstAddress srcPort dstPort flags data len
    rw [hconn, sequence_space_append, ← (hinv k segments hsent).seq, ← hlaw] at hseq
    exact (control_space_zero flags).mp (left_eq_add.mp hseq)
  ack := fun k segments a hacked => by
    obtain ⟨segments', hsent⟩ := called_sent (e := e) hacked.sent
    exact (fin_acked_free hinv hacked).mp
      ((haccounted k segments' hsent).2 (Or.inr ⟨segments, a, hacked⟩))

/-- In every state of a run whose inputs meet the condition, `seq` of every connection counts the
data, the SYN and the FIN sent on it, and the slot is free once our FIN is acknowledged. The next
input keeps this exactly when it meets the condition. -/
theorem tcp_accounting (hrun : AccountedRun (.start net) h) :
    h.Accounted ∧ ∀ e, (h.after e).Accounted ↔ h.Meets e := by
  have hinv : h.Inv := by
    refine Run.invariant TcpHistory.Inv hrun (start_inv net) ?_
    rintro h e h' hinv hmeets rfl
    exact input_inv hinv hmeets
  exact ⟨Inv.accounted hinv, fun e =>
    ⟨meets_of_accounted hinv, fun hmeets => Inv.accounted (input_inv hinv hmeets)⟩⟩

/-! ### A connection in the first slot -/

/-- A table without connections. -/
def emptyTable : TcpTable :=
  ⟨fun _ => ⟨0#32, 0#32, 0#16, 0#16, 0#32, 0#32, 0#32, 0#8, 0#8, 0#8⟩, []⟩

/-- The first slot holds the only connection made. -/
structure FirstSlot (h : TcpHistory) (conn : TcpConnect) (segments : List TcpSegment) : Prop where
  conn : h.net.queueConn 0 = conn
  sent : h.sent 0 = some segments
  other : ∀ k, k ≠ 0 → h.sent k = none

theorem after_call_sent (h : TcpHistory) (c : TcpCall) (k : Nat) :
    (h.after (.call c)).sent k = (h.call c).sent k := by
  simp only [TcpHistory.after, TcpHistory.called, TcpInput.call?]

theorem after_call_conn (h : TcpHistory) (c : TcpCall) (k : Nat) :
    (h.after (.call c)).net.queueConn k = (h.call c).net.queueConn k := by
  simp only [TcpHistory.after, TcpHistory.called, TcpInput.call?]

/-- The other slots stay without a connection. -/
theorem first_slot_other (hslot : c.slot h.net = some 0) (hother : ∀ k, k ≠ 0 → h.sent k = none)
    (hk : k ≠ 0) : (h.after (.call c)).sent k = none := by
  have hslot : c.slot h.net ≠ some k := fun hfound =>
    hk (Option.some.inj (hfound.symm.trans hslot))
  rw [after_call_sent, call_sent_other hslot, hother k hk]

theorem first_slot_connect (srcAddress dstAddress : BitVec 32) (srcPort dstPort : BitVec 16) :
    FirstSlot
      ((TcpHistory.start emptyTable).after (.call (.connect srcAddress dstAddress srcPort dstPort)))
      { newConnect srcAddress dstAddress srcPort dstPort with seq := 1#32 }
      [(newConnect srcAddress dstAddress srcPort dstPort).segment noData 0#32] := by
  have hslot : (TcpCall.connect srcAddress dstAddress srcPort dstPort).slot
      (TcpHistory.start emptyTable).net = some 0 := slot_first rfl
  constructor
  case conn => rw [after_call_conn, call_found hslot]; rfl
  case sent => rw [after_call_sent, call_sent_found hslot]; rfl
  case other => exact fun k hk => first_slot_other hslot (fun _ _ => rfl) hk

/-- A call on the connection in the first slot. -/
theorem FirstSlot.call (hfirst : FirstSlot h conn segments) (hwants : c.wants conn = true)
    (hconnect : c.isConnect = false) :
    FirstSlot (h.after (.call c)) (c.on conn).1 ((c.on conn).2 ++ segments) := by
  obtain ⟨rfl, hsent, hnone⟩ := hfirst
  have hslot : c.slot h.net = some 0 := slot_first hwants
  constructor
  case conn => rw [after_call_conn, call_found hslot]
  case sent =>
      rw [after_call_sent, call_sent_found hslot, hsent]
      cases c with
      | connect => cases hconnect
      | _ => rfl
  case other => exact fun k hk => first_slot_other hslot hnone hk

/-- Before a FIN is sent, every input but a payload meets the condition. -/
theorem FirstSlot.meets (hfirst : FirstSlot h conn segments) (hfin : ¬ FinSent segments)
    (hpayload : ∀ srcAddress dstAddress srcPort dstPort flags data len,
      e.call? ≠ some (.sendPayload srcAddress dstAddress srcPort dstPort flags data len)) :
    h.Meets e where
  payload := fun _ _ _ _ _ _ _ _ hcall => absurd hcall (hpayload _ _ _ _ _ _ _)
  ack := fun k segments' a hacked => by
    by_cases hk : k = 0
    · subst hk
      cases Option.some.inj (hfirst.sent.symm.trans hacked.sent)
      exact absurd hacked.fin hfin
    · cases (hfirst.other k hk).symm.trans hacked.sent

/-- The peer acknowledges all that was sent on the connection, a FIN included. -/
theorem FirstSlot.acked (hfirst : FirstSlot h conn segments) (hfin : FinSent segments)
    (ack : BitVec 32) (hack : ack = sequenceSpace segments) :
    (h.after (.call (.finish conn.dstIp conn.srcIp conn.dstPort conn.srcPort ack))).acked 0 :=
  Or.inr ⟨segments, ⟨conn.dstIp, conn.srcIp, conn.dstPort, conn.srcPort, ack⟩,
    { sent := hfirst.sent
      fin := hfin
      carries := rfl
      peer := by
        rw [hfirst.conn]
        exact ⟨⟨rfl, rfl⟩, rfl, rfl⟩
      ack := hack }⟩

/-- The acknowledgement of the FIN goes to `tcp_finish`, which finds the slot. -/
theorem FirstSlot.meets_finish (hfirst : FirstSlot h conn segments) (ack : BitVec 32)
    (hwants : TcpConnect.closing conn.srcPort conn = true) :
    h.Meets (.call (.finish conn.dstIp conn.srcIp conn.dstPort conn.srcPort ack)) where
  payload := fun _ _ _ _ _ _ _ _ hcall => nomatch hcall
  ack := fun k segments' a hacked => by
    by_cases hk : k = 0
    · subst hk
      cases hacked.carries
      have hslot : (TcpCall.finish conn.dstIp conn.srcIp conn.dstPort conn.srcPort ack).slot h.net =
          some 0 := slot_first (by rw [hfirst.conn]; exact hwants)
      exact Or.inr ⟨rfl, (input_slot rfl).trans hslot⟩
    · cases (hfirst.other k hk).symm.trans hacked.sent

/-- A connection is made, the peer closes it, and acknowledges the FIN that answers. -/
theorem tcp_accounting_peer_closes :
    ∃ h, AccountedRun (.start emptyTable) h ∧ h.acked 0 ∧ (h.net.queueConn 0).busy = 0#8 := by
  have hopen := first_slot_connect 1#32 2#32 7#16 9#16
  have hclosing := hopen.call (c := .ack 2#32 1#32 9#16 7#16 100#32 1#32
    (tcpFlagAck ||| tcpFlagFin) 0#32) rfl rfl
  have hlast := hclosing.call (c := .finish 2#32 1#32 9#16 7#16 2#32) rfl rfl
  have hsyn : ¬ FinSent [(newConnect 1#32 2#32 7#16 9#16).segment noData 0#32] := fun hfin =>
    absurd (fin_sent_singleton hfin) (by decide)
  have hrun : AccountedRun (.start emptyTable) _ :=
    ((Run.refl.snoc (.call (.connect 1#32 2#32 7#16 9#16)) ⟨nofun, nofun⟩ rfl).snoc
      (.call (.ack 2#32 1#32 9#16 7#16 100#32 1#32 (tcpFlagAck ||| tcpFlagFin) 0#32))
        (hopen.meets hsyn nofun) rfl).snoc
      (.call (.finish 2#32 1#32 9#16 7#16 2#32)) (hclosing.meets_finish 2#32 rfl) rfl
  have hacked := hclosing.acked ⟨_, List.mem_cons_self, by decide⟩ 2#32 rfl
  exact ⟨_, hrun, hacked, ((tcp_accounting hrun).1 0 _ hlast.sent).2 hacked⟩

/-- The connection is closed on this side: the FIN is not counted, and the slot stays taken when
the peer acknowledges it. -/
theorem own_fin_not_counted :
    ∃ h segments, Run TcpInputStep (fun _ _ => True) (.start emptyTable) h ∧
      h.sent 0 = some segments ∧ sequenceSpace segments = 2#32 ∧
      (h.net.queueConn 0).seq = 1#32 ∧ h.acked 0 ∧ (h.net.queueConn 0).busy = 1#8 ∧
      ¬ h.Accounted := by
  have hopen := first_slot_connect 1#32 2#32 7#16 9#16
  have hclosing := hopen.call (c := .sendPayload 1#32 2#32 7#16 9#16 (tcpFlagFin ||| tcpFlagAck)
    noData 0#32) rfl rfl
  have hlast := hclosing.call (c := .finish 2#32 1#32 9#16 7#16 2#32) rfl rfl
  have hrun : Run TcpInputStep (fun _ _ => True) (.start emptyTable) _ :=
    ((Run.refl.snoc (.call (.connect 1#32 2#32 7#16 9#16)) trivial rfl).snoc
      (.call (.sendPayload 1#32 2#32 7#16 9#16 (tcpFlagFin ||| tcpFlagAck) noData 0#32)) trivial
        rfl).snoc (.call (.finish 2#32 1#32 9#16 7#16 2#32)) trivial rfl
  have hacked := hclosing.acked ⟨_, List.mem_cons_self, by decide⟩ 2#32 rfl
  refine ⟨_, _, hrun, hlast.sent, rfl, ?_, hacked, ?_, fun haccounted => ?_⟩
  · rw [hlast.conn]
    rfl
  · rw [hlast.conn]
    rfl
  · have hseq := (haccounted 0 _ hlast.sent).1
    rw [hlast.conn] at hseq
    exact absurd hseq (by decide)

end Sirius.Net
