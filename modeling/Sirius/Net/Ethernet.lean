import Sirius.Net.Wire

/-!
# Receiving frames

`handler_ethernet_package_received` of `kernel/driver/net/ethernet.c`. It goes through a batch of
received frames, reads the fields of their headers where they lie and gives the payload of UDP and
TCP packets to `socket_server_receive`. The length of a payload is the distance from its start to
the end of the IPv4 packet, computed from the length field of the IPv4 header.
-/

namespace Sirius.Net

open Library

/-- `ethernet_package_descriptor_t`: a received frame. -/
structure Descriptor where
  (flag count buffersize : BitVec 32)
  buf : Option Bytes

/-- The network stack: the card, the TCP connections and the sockets. -/
structure Stack where
  eth : Ethernet
  net : TcpTable
  sockets : Sockets

/-- The frame is looked at. -/
def Descriptor.skipped (prd : Descriptor) : Bool :=
  prd.buf.isNone ∨ prd.buffersize = 0#32 ∨ prd.flag ≠ 0#32

/-- `len` of a UDP packet, as an `int`. -/
def udpLen (buf : Bytes) : BitVec 32 := (htons (half buf 16)).setWidth 32 - 20#32 - 8#32

/-- The arguments of `socket_server_receive` for a UDP packet; the port numbers stay in network
order. -/
def udpPacket (buf : Bytes) : Packet :=
  { protocol := ipProtocolUdp, srcIp := word buf 26, destIp := word buf 30,
    srcPort := half buf 34, destPort := half buf 36, buffer := fun i => buf (42 + i),
    length := (udpLen buf).toNat, seq := 0#32, ack := 0#32, flags := 0#8 }

/-- The TCP packet in a frame. -/
def tcpPacket (buf : Bytes) : TcpPacket :=
  { ipLen := half buf 16, src := word buf 26, dst := word buf 30, srcPort := half buf 34,
    dstPort := half buf 36, seq := word buf 38, ack := word buf 42, off := buf 46,
    flags := buf 47, buf := fun i => buf (34 + i) }

/-- What an IPv4 packet passes to `socket_server_receive`. -/
def handlerIpv4 (buf : Bytes) (net : TcpTable) : Option Packet × TcpTable :=
  if (buf 23).toNat = ipProtocolTcp then handlerTcp (tcpPacket buf) net
  else if (buf 23).toNat = ipProtocolUdp then (some (udpPacket buf), net)
  else (none, net)

/-- What an ARP packet changes. -/
def handlerArp (buf : Bytes) (eth : Ethernet) : Ethernet :=
  let mac : Mac := array buf 22 6
  let ip : Ip := array buf 28 4
  if htons (half buf 20) = 1#16 then arpReplay ip mac (arpSaveAddress ip mac eth)
  else if htons (half buf 20) = 2#16 then arpSaveAddress ip mac eth
  else eth

/-- What is passed on goes to `socket_server_receive`. -/
def Stack.deliver (s : Stack) (passed : Option Packet × TcpTable) : Option Stack :=
  match passed with
  | (none, net) => some { s with net }
  | (some p, net) => do
      let sockets ← socketServerReceive 0 p s.sockets
      pure { s with net, sockets }

/-- The body of the loop of `handler_ethernet_package_received`. `none` is a call of `die`. -/
def handlerFrame (prd : Descriptor) (s : Stack) : Option Stack :=
  if prd.skipped then some s
  else match prd.buf with
    | none => some s
    | some buf =>
        if htons (half buf 12) = etArp then some { s with eth := handlerArp buf s.eth }
        else if htons (half buf 12) = etIpv4 then s.deliver (handlerIpv4 buf s.net)
        else some s

/-- The loop over `count` frames, the first of which is at `i`. -/
def handlerLoop (prd : Nat → Descriptor) : (count i : Nat) → Stack → Option Stack
  | 0, _, s => some s
  | count + 1, i, s => do
      let s ← handlerFrame (prd i) s
      handlerLoop prd count (i + 1) s

/-- `handler_ethernet_package_received`, where `prd` is what `get_ethernet_package` returns. The
loop runs at least once. -/
def handlerEthernetPackageReceived (prd : Option (Nat → Descriptor)) (s : Stack) :
    Option Stack :=
  if s.eth.isOnline = 0#8 then some s
  else match prd with
    | none => some s
    | some prd => handlerLoop prd (max 1 (prd 0).count.toInt.toNat) 0 s

end Sirius.Net
