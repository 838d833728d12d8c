import Sirius.Net.Socket

/-!
# TCP connections of the kernel

The table `queue_conn` of `kernel/driver/net/tcp.c` and the TCP case of
`handler_ethernet_package_received`. A segment that `tcp_ack` accepts with result 0 has its payload
passed to `socket_server_receive`; `tcp_ack` compares sequence numbers as unsigned 32-bit numbers.
-/

namespace Sirius.Net

open Library

/-- `struct tcp_connect` -/
structure TcpConnect where
  (srcIp dstIp : BitVec 32)
  (srcPort dstPort : BitVec 16)
  (seq ack pack : BitVec 32)
  (flags status busy : BitVec 8)

/-- The arguments of `tcp_send`: a segment sent to the peer. -/
structure TcpSegment where
  (srcAddress dstAddress : BitVec 32)
  (srcPort dstPort : BitVec 16)
  (seq ack : BitVec 32)
  flags : BitVec 8
  data : Bytes
  length : BitVec 32

/-- The table `queue_conn` and the segments sent so far, the last one first. -/
structure TcpTable where
  queueConn : Nat → TcpConnect
  sent : List TcpSegment

/-- `TCP_FIN` -/
def tcpFlagFin : BitVec 8 := 0x1#8

/-- `TCP_SYN` -/
def tcpFlagSyn : BitVec 8 := 0x2#8

/-- `TCP_PSH` -/
def tcpFlagPsh : BitVec 8 := 0x8#8

/-- `TCP_ACK` -/
def tcpFlagAck : BitVec 8 := 0x10#8

/-- `htons` -/
def htons (nb : BitVec 16) : BitVec 16 := nb >>> 8 ||| nb <<< 8

/-- `htonl` -/
def htonl (nb : BitVec 32) : BitVec 32 :=
  (nb >>> 24 &&& 0xff#32) ||| (nb <<< 8 &&& 0xff0000#32) ||| (nb >>> 8 &&& 0xff00#32) |||
    (nb <<< 24 &&& 0xff000000#32)

/-- The search over the 1024 connections of the table. -/
def TcpTable.search (net : TcpTable) (p : TcpConnect → Bool) : Option Nat :=
  (List.range 1024).find? fun i => p (net.queueConn i)

/-- Store a connection into the table. -/
def TcpTable.store (net : TcpTable) (i : Nat) (conn : TcpConnect) : TcpTable :=
  { net with queueConn := Function.update net.queueConn i conn }

/-- `tcp_send`: the segment goes out and the result is the length of its data. -/
def tcpSend (s : TcpSegment) (net : TcpTable) : BitVec 32 × TcpTable :=
  (s.length, { net with sent := s :: net.sent })

/-- The arguments of `tcp_send` for a connection. -/
def TcpConnect.segment (conn : TcpConnect) (data : Bytes) (length : BitVec 32) : TcpSegment :=
  { srcAddress := conn.srcIp, dstAddress := conn.dstIp, srcPort := conn.srcPort,
    dstPort := conn.dstPort, seq := conn.seq, ack := conn.ack, flags := conn.flags, data, length }

/-- The data of a segment that has none. -/
def noData : Bytes := fun _ => 0#8

/-- `tcp_connect` -/
def tcpConnect (srcAddress dstAddress : BitVec 32) (srcPort dstPort : BitVec 16)
    (net : TcpTable) : Nat × TcpTable :=
  match net.search fun conn => conn.busy = 0#8 with
  | none => (1, net)
  | some i =>
      let conn : TcpConnect :=
        { srcIp := srcAddress, dstIp := dstAddress, srcPort, dstPort, seq := 0#32, ack := 0#32,
          pack := 0#32, flags := tcpFlagSyn, status := 0#8, busy := 1#8 }
      let (_, net) := tcpSend (conn.segment noData 0#32) net
      (0, net.store i { conn with seq := conn.seq + 1#32 })

/-- The connection that `tcp_ack` looks for. -/
def TcpConnect.open (port : BitVec 16) (conn : TcpConnect) : Bool :=
  conn.srcPort = port ∧ conn.busy = 1#8 ∧ conn.status = 0#8

/-- How far a segment moves the acknowledgement: `flags & TCP_PSH ? len : 1`. -/
def tcpAdvance (flags : BitVec 8) (len : BitVec 32) : BitVec 32 :=
  if flags &&& tcpFlagPsh ≠ 0#8 then len else 1#32

/-- `tcp_ack` -/
def tcpAck (_srcAddress _dstAddress : BitVec 32) (_srcPort dstPort : BitVec 16)
    (seq ack : BitVec 32) (flags : BitVec 8) (len : BitVec 32) (net : TcpTable) :
    Nat × TcpTable :=
  match net.search (TcpConnect.open dstPort) with
  | none => (1, net)
  | some i =>
      let conn := net.queueConn i
      if conn.seq ≠ ack then (1, net)
      else if seq + tcpAdvance flags len ≤ conn.ack then
        -- Retransmission
        let conn := { conn with flags := tcpFlagAck }
        (1, (tcpSend (conn.segment noData 0#32) (net.store i conn)).2)
      else
        let conn := { conn with
          pack := ack
          ack := seq + tcpAdvance flags len
          flags := tcpFlagAck }
        let (_, net) := tcpSend (conn.segment noData 0#32) (net.store i conn)
        if flags &&& tcpFlagFin ≠ 0#8 then
          let conn := { conn with flags := tcpFlagFin ||| tcpFlagAck }
          let (result, net) := tcpSend (conn.segment noData 0#32) net
          -- the result of `tcp_send` overwrites the flags
          let conn := { conn with
            flags := result.setWidth 8
            seq := conn.seq + 1#32
            status := 1#8 }
          (2, net.store i conn)
        else (0, net)

/-- `tcp_send_payload` -/
def tcpSendPayload (_srcAddress _dstAddress : BitVec 32) (srcPort _dstPort : BitVec 16)
    (flags : BitVec 8) (data : Bytes) (len : BitVec 32) (net : TcpTable) : Nat × TcpTable :=
  match net.search (TcpConnect.open srcPort) with
  | none => (1, net)
  | some i =>
      let conn := { net.queueConn i with flags := flags }
      let (_, net) := tcpSend (conn.segment data len) net
      let conn := { conn with seq := conn.seq + len }
      if flags &&& tcpFlagFin ≠ 0#8 then (0, net.store i { conn with status := 1#8 })
      else (0, net.store i conn)

/-- `tcp_finish` -/
def tcpFinish (_srcAddress _dstAddress : BitVec 32) (_srcPort dstPort : BitVec 16)
    (ack : BitVec 32) (net : TcpTable) : TcpTable :=
  let closing : TcpConnect → Bool := fun conn =>
    conn.srcPort = dstPort ∧ conn.busy = 1#8 ∧ conn.status = 1#8
  match net.search closing with
  | none => net
  | some i =>
      let conn := net.queueConn i
      if conn.seq ≠ ack then net else net.store i { conn with busy := 0#8 }

/-! ### Incoming packets -/

/-- A TCP packet in the receive buffer: the fields that are read of its IPv4 and its TCP header, as
they are stored, and the bytes from the TCP header on. -/
structure TcpPacket where
  ipLen : BitVec 16
  (src dst : BitVec 32)
  (srcPort dstPort : BitVec 16)
  (seq ack : BitVec 32)
  (off flags : BitVec 8)
  buf : Bytes

/-- Where the data starts, counted from the TCP header: `(tcp->off >>4)*4`. -/
def TcpPacket.dataOffset (tcp : TcpPacket) : Nat := (tcp.off >>> 4).toNat * 4

/-- `data` -/
def TcpPacket.data (tcp : TcpPacket) : Bytes := fun i => tcp.buf (tcp.dataOffset + i)

/-- `len`: the distance from the data to the end of the IPv4 packet. -/
def TcpPacket.len (tcp : TcpPacket) : BitVec 32 :=
  (htons tcp.ipLen).setWidth 32 - 20#32 - BitVec.ofNat 32 tcp.dataOffset

/-- The arguments of `socket_server_receive` for a segment; the port numbers stay in network
order. -/
def TcpPacket.packet (tcp : TcpPacket) : Packet :=
  { protocol := ipProtocolTcp, srcIp := tcp.src, destIp := tcp.dst, srcPort := tcp.srcPort,
    destPort := tcp.dstPort, buffer := tcp.data, length := tcp.len.toNat, seq := tcp.seq,
    ack := tcp.ack, flags := tcp.flags }

/-- The segments that are given to `tcp_ack`. -/
def TcpPacket.acknowledged (tcp : TcpPacket) : Bool :=
  tcp.flags = tcpFlagAck ||| tcpFlagSyn ∨ tcp.flags = tcpFlagAck ||| tcpFlagPsh ∨
    tcp.flags = tcpFlagAck ||| tcpFlagFin

/-- `tcp_ack` with the arguments it gets for a packet. -/
def TcpPacket.callAck (tcp : TcpPacket) (net : TcpTable) : Nat × TcpTable :=
  tcpAck tcp.src tcp.dst (htons tcp.srcPort) (htons tcp.dstPort) (htonl tcp.seq) (htonl tcp.ack)
    tcp.flags tcp.len net

/-- The TCP case of `handler_ethernet_package_received`, with what it passes to
`socket_server_receive`. -/
def handlerTcp (tcp : TcpPacket) (net : TcpTable) : Option Packet × TcpTable :=
  if tcp.acknowledged then
    let (result, net) := tcp.callAck net
    if result ≠ 0 then (none, net) else (some tcp.packet, net)
  else if tcp.flags = tcpFlagAck then
    (none, tcpFinish tcp.src tcp.dst (htons tcp.srcPort) (htons tcp.dstPort) (htonl tcp.ack) net)
  else (none, net)

end Sirius.Net
