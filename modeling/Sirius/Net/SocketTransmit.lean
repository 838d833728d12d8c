import Sirius.Net.Socket
import Sirius.Net.Tcp

/-!
# The sending side of the sockets

`socket_server_transmit`, the calls of the user library that ask it to send, both versions of
`bind`, and the bitmap of the ports in `driver/net/port.c`. A pointer to a socket is its position in
the list, to which `socket` appends.
-/

namespace Sirius.Net

open Library

/-- `struct socket` with the fields of the sending side. -/
structure KernelSocket extends Socket where
  type : Nat
  transportProtocol : Nat
  srcIp : BitVec 32
  destPort : BitVec 16
  destIp : BitVec 32
  connect : BitVec 8
  length2 : Nat
  buf2 : Bytes

/-- `struct sockaddr_in` -/
structure SockaddrIn where
  sinFamily : Nat
  sinPort : BitVec 16
  sAddr : BitVec 32

/-- The sockets, `current_saddr`, `socket_next_id`, the counter `port` of `socket.c`, the bitmap of
`port.c` and the addresses of the host. -/
structure SocketServer where
  sockets : List KernelSocket
  currentSaddr : Nat
  socketNextId : Nat
  port : BitVec 16
  portBitmap : Bytes
  (yourIp localIp : BitVec 32)

/-- `SOCK_STREAM` -/
def sockStream : Nat := 1

/-- `SOCK_DGRAM` -/
def sockDgram : Nat := 2

/-- `inet_addr("127.0.0.1")`; the function ignores its argument. -/
def loopbackAddr : BitVec 32 := 0x0100007f#32

/-- The socket takes part in the network, which the flag 0x80 says. -/
def KernelSocket.bound (fd : KernelSocket) : Bool := fd.flags &&& 0x80#8 ≠ 0#8

/-- A transmission of the socket is pending. -/
def KernelSocket.pending (fd : KernelSocket) : Bool := fd.flags &&& 1#8 ≠ 0#8

/-! ### Flags -/

theorem bound_or (flags : BitVec 8) : (flags ||| 0x80#8) &&& 0x80#8 ≠ 0#8 := by
  revert flags
  decide

theorem bound_request (flags : BitVec 8) : (flags ||| 1#8) &&& 0x80#8 = flags &&& 0x80#8 := by
  revert flags
  decide

theorem bound_sent (flags : BitVec 8) : (flags &&& ~~~1#8) &&& 0x80#8 = flags &&& 0x80#8 := by
  revert flags
  decide

theorem pending_request (flags : BitVec 8) : (flags ||| 1#8) &&& 1#8 ≠ 0#8 := by
  revert flags
  decide

theorem pending_sent (flags : BitVec 8) : (flags &&& ~~~1#8) &&& 1#8 = 0#8 := by
  revert flags
  decide

/-! ### Ports -/

/-- A bit of the bitmap. -/
def portBit (bmp : Bytes) (port : Nat) : Bool :=
  bmp (port / 8) &&& (1#8 <<< (port % 8)) ≠ 0#8

/-- Set a bit of the bitmap. -/
def setPortBit (bmp : Bytes) (port : Nat) : Bytes :=
  Function.update bmp (port / 8) (bmp (port / 8) ||| (1#8 <<< (port % 8)))

/-- The loops of `get_port` over the `n` bits from `port` on. -/
def getPortLoop (bmp : Bytes) : (n port : Nat) → Nat × Bytes
  | 0, port => (port, bmp)
  | n + 1, port =>
      if portBit bmp port = false then (port, setPortBit bmp port)
      else getPortLoop bmp n (port + 1)

/-- `get_port` -/
def getPort (bmp : Bytes) : BitVec 16 × Bytes :=
  let (port, bmp) := getPortLoop bmp 65536 0
  (if port ≥ 65536 then 0#16 else BitVec.ofNat 16 port, bmp)

/-- `set_port` -/
def setPort (port : BitVec 16) (bmp : Bytes) : BitVec 16 × Bytes :=
  if portBit bmp port.toNat then (0#16, bmp) else (port, setPortBit bmp port.toNat)

/-- `clean_port` -/
def cleanPort (port : BitVec 16) (bmp : Bytes) : Bytes :=
  Function.update bmp (port.toNat / 8)
    (bmp (port.toNat / 8) &&& ~~~(1#8 <<< (port.toNat % 8)))

/-- `ethernet_port_setup` -/
def ethernetPortSetup (s : SocketServer) : SocketServer :=
  { s with portBitmap := (setPort 0#16 (fillBytes s.portBitmap 0 (2 * 4096) 0#8)).2 }

/-! ### Sockets -/

/-- The record of a new socket; `buf1` and `buf2` are the buffers that `malloc` returns. -/
def newSocket (id domain type protocol : Nat) (buf1 buf2 : Bytes) : KernelSocket :=
  { id := id, domain := domain, srcPort := 0#16, recvDestPort := 0#16, recvDestIp := 0#32,
    protocolFlags := 0#8, flags := 0#8, length1 := 0, buf1 := buf1, type := type,
    transportProtocol := protocol, srcIp := 0#32, destPort := 0#16, destIp := 0#32, connect := 0#8,
    length2 := 0, buf2 := buf2 }

@[simp] theorem new_socket_bound (id domain type protocol : Nat) (buf1 buf2 : Bytes) :
    (newSocket id domain type protocol buf1 buf2).bound = false := by
  simp [newSocket, KernelSocket.bound]

/-- `init_socket`, without the table of the received rows. -/
def initSocket (domain type protocol : Nat) (buf1 buf2 : Bytes) (s : SocketServer) :
    Int × SocketServer :=
  let s := { s with port := 2000#16, sockets := [], currentSaddr := 0, socketNextId := 1 }
  if domain ≠ afLocal ∧ domain ≠ afInet then (-1, s)
  else if type ≠ sockStream ∧ type ≠ sockDgram then (-1, s)
  else
    (s.socketNextId, { s with
      sockets := [newSocket s.socketNextId domain type protocol buf1 buf2]
      socketNextId := s.socketNextId + 1 })

/-- `socket`. `none` is an access through the null pointer when the list is empty. -/
def socket (domain type protocol : Nat) (buf1 buf2 : Bytes) (s : SocketServer) :
    Option (Int × SocketServer) :=
  if domain ≠ afLocal ∧ domain ≠ afInet then some (-1, s)
  else if type ≠ sockStream ∧ type ≠ sockDgram then some (-1, s)
  else if s.sockets.isEmpty then none
  else
    some (s.socketNextId, { s with
      sockets := s.sockets ++ [newSocket s.socketNextId domain type protocol buf1 buf2]
      socketNextId := s.socketNextId + 1 })

/-- `socket_address`, the same in the kernel and in the user library. -/
def socketAddress (socket : Nat) (s : SocketServer) : Option Nat :=
  s.sockets.findIdx? fun fd => fd.id = socket

/-- Write a socket back. -/
def SocketServer.store (s : SocketServer) (i : Nat) (fd : KernelSocket) : SocketServer :=
  { s with sockets := s.sockets.set i fd }

/-- `bind` of the kernel; `saddr` is what `memcpy` leaves in the local record. `none` is an access
through the null pointer when no socket has the number. -/
def Kernel.bind (socket : Nat) (saddr : SockaddrIn) (addressLen : Nat) (s : SocketServer) :
    Option (Int × SocketServer) :=
  if addressLen = 0 then some (-1, s)
  else do
    let i ← socketAddress socket s
    let fd ← s.sockets[i]?
    if saddr.sinFamily ≠ fd.domain then some (-1, s)
    else
      let (r, bmp) := setPort (htons saddr.sinPort) s.portBitmap
      let s := { s with portBitmap := bmp }
      if r = 0#16 then some (-1, s)
      else
        let ip := if saddr.sAddr ≠ 0#32 then saddr.sAddr
          else if fd.domain = afLocal then s.localIp else s.yourIp
        let fd := { fd with srcPort := saddr.sinPort, srcIp := ip }
        if fd.srcPort = 0#16 then
          let (port, bmp) := getPort s.portBitmap
          let s := { s with portBitmap := bmp }
          let fd := { fd with srcPort := htons port }
          if fd.srcPort = 0#16 then some (-1, s.store i fd)
          else some (0, s.store i { fd with flags := fd.flags ||| 0x80#8 })
        else some (0, s.store i { fd with flags := fd.flags ||| 0x80#8 })

/-- `bind` of the user library. -/
def User.bind (socket : Nat) (saddr : SockaddrIn) (addressLen : Nat) (s : SocketServer) :
    Option (Int × SocketServer) :=
  if addressLen = 0 then some (-1, s)
  else do
    let i ← socketAddress socket s
    let fd ← s.sockets[i]?
    if saddr.sinFamily ≠ fd.domain then some (-1, s)
    else
      some (0, s.store i { fd with
        srcPort := saddr.sinPort, srcIp := saddr.sAddr, flags := fd.flags ||| 0x80#8 })

/-! ### Calls of the user library

Each is modelled up to the store that sets the flag 1; `none` is a call that waits for the flag to
be clear first. -/

/-- `connect` -/
def User.connect (socket : Nat) (saddr : SockaddrIn) (addressLen : Nat) (s : SocketServer) :
    Option SocketServer :=
  if addressLen = 0 then some s
  else match socketAddress socket s with
    | none => some s
    | some i => do
        let fd ← s.sockets[i]?
        if fd.pending then none
        else
          let fd := { fd with destPort := saddr.sinPort, destIp := saddr.sAddr }
          if saddr.sinFamily ≠ afInet then some (s.store i fd)
          else some (s.store i { fd with
            flags := fd.flags ||| 0x80#8 ||| 1#8, protocolFlags := tcpFlagSyn, length2 := 0 })

/-- `sendto` -/
def User.sendto (socket : Nat) (message : Bytes) (length : Nat) (destAddr : SockaddrIn)
    (s : SocketServer) : Option SocketServer :=
  match socketAddress socket s with
  | none => some s
  | some i => do
      let fd ← s.sockets[i]?
      if fd.bound = false then some s
      else if fd.pending then none
      else some (s.store i { fd with
        destPort := destAddr.sinPort, destIp := destAddr.sAddr, length2 := length,
        buf2 := copyBytes fd.buf2 0 message 0 length, flags := fd.flags ||| 1#8 })

/-- `shutdown` of a socket whose last segment is sent. -/
def User.shutdown (socket : Nat) (s : SocketServer) : Option SocketServer :=
  match socketAddress socket s with
  | none => some s
  | some i => do
      let fd ← s.sockets[i]?
      if fd.bound = false then some s
      else if fd.pending then none
      else some (s.store i { fd with connect := 0#8, flags := 0#8 })

/-! ### Sending -/

/-- The call with which `socket_server_transmit` sends. -/
inductive Sent where
  | udpSend (srcIp destIp : BitVec 32) (srcPort destPort : BitVec 16) (buf : Bytes) (len : Nat)
  | vmnetUdpSend (srcIp destIp : BitVec 32) (srcPort destPort : BitVec 16) (buf : Bytes) (len : Nat)
  | tcpConnect (srcIp destIp : BitVec 32) (srcPort destPort : BitVec 16)
  | tcpSendPayload (srcIp destIp : BitVec 32) (srcPort destPort : BitVec 16) (flags : BitVec 8)
      (buf : Bytes) (len : Nat)

/-- The `switch` of `socket_server_transmit`, after the addresses are filled in. -/
def KernelSocket.sends (fd : KernelSocket) : Option Sent :=
  let srcPort := htons fd.srcPort
  let destPort := htons fd.destPort
  if fd.type = sockDgram then
    if fd.domain = afInet ∧ fd.destIp ≠ loopbackAddr then
      some (.udpSend fd.srcIp fd.destIp srcPort destPort fd.buf2 fd.length2)
    else some (.vmnetUdpSend fd.srcIp fd.destIp srcPort destPort fd.buf2 fd.length2)
  else if fd.type = sockStream then
    if fd.protocolFlags = tcpFlagSyn then some (.tcpConnect fd.srcIp fd.destIp srcPort destPort)
    else some (.tcpSendPayload fd.srcIp fd.destIp srcPort destPort fd.protocolFlags fd.buf2
      fd.length2)
  else none

/-- The port that `socket_server_transmit` assigns, in network order. -/
def nextPort (port : BitVec 16) : BitVec 16 := if port < 2000#16 then 2000#16 else port

/-- The domains that `socket` accepts. -/
def KernelSocket.known (fd : KernelSocket) : Bool := fd.domain = afInet ∨ fd.domain = afLocal

/-- What `socket_server_transmit` does with the current socket: the call that sends, the socket and
the counter. -/
def transmitSocket (yourIp : BitVec 32) (port : BitVec 16) (fd : KernelSocket) :
    Option Sent × KernelSocket × BitVec 16 :=
  if fd.bound && fd.pending then
    if fd.known then
      let fd := { fd with srcIp := if fd.srcIp = 0#32 then yourIp else fd.srcIp }
      let (fd, port) :=
        if htons fd.srcPort = 0#16 then
          ({ fd with srcPort := htons (nextPort port) }, nextPort port + 1#16)
        else (fd, port)
      (fd.sends, { fd with flags := fd.flags &&& ~~~1#8 }, port)
    else (none, { fd with flags := fd.flags &&& ~~~1#8 }, port)
  else (none, fd, port)

/-- The flags after `socket_server_transmit`. -/
theorem transmit_socket_flags (yourIp : BitVec 32) (port : BitVec 16) (fd : KernelSocket) :
    (transmitSocket yourIp port fd).2.1.flags =
      if fd.bound && fd.pending then fd.flags &&& ~~~1#8 else fd.flags := by
  unfold transmitSocket
  by_cases hasks : (fd.bound && fd.pending) = true
  · by_cases hknown : fd.known = true <;> by_cases hport : htons fd.srcPort = 0#16 <;>
      simp only [hasks, hknown, hport, if_true, if_false, Bool.false_eq_true]
  · simp only [hasks, if_false, Bool.false_eq_true]

/-- The port after `socket_server_transmit`. -/
theorem transmit_socket_port (yourIp : BitVec 32) (port : BitVec 16) (fd : KernelSocket) :
    (transmitSocket yourIp port fd).2.1.srcPort =
      if (fd.bound && fd.pending) = true ∧ fd.known = true ∧ htons fd.srcPort = 0#16 then
        htons (nextPort port) else fd.srcPort := by
  unfold transmitSocket
  by_cases hasks : (fd.bound && fd.pending) = true
  · by_cases hknown : fd.known = true <;> by_cases hport : htons fd.srcPort = 0#16 <;>
      simp only [hasks, hknown, hport, if_true, if_false, Bool.false_eq_true, and_true, and_false]
  · simp only [hasks, if_false, Bool.false_eq_true, false_and]

/-- `socket_server_transmit`. `none` is an access through the null pointer when there is no
socket. -/
def socketServerTransmit (s : SocketServer) : Option (Option Sent × SocketServer) := do
  let fd ← s.sockets[s.currentSaddr]?
  let (sent, fd, port) := transmitSocket s.yourIp s.port fd
  let next := s.currentSaddr + 1
  some (sent, { s.store s.currentSaddr fd with
    port := port
    currentSaddr := if next < s.sockets.length then next else 0 })

end Sirius.Net
