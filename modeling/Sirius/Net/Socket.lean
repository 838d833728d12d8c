import Sirius.Library.Bytes

/-!
# Sockets of the kernel

The receiving side of `kernel/file/socket.c` and `kernel/file/recvfrom.c`. An incoming packet goes
straight into the buffer of the socket bound to its port; when that buffer still holds an unread
packet, it is saved in the table `sockt_receive_row`, from which `socket_execute_row` hands packets
out later. `recvfrom` empties the buffer of a socket.
-/

namespace Sirius.Net

open Library

/-- The fields of `struct socket` on the receiving side. -/
structure Socket where
  id : Nat
  domain : Nat
  srcPort : BitVec 16
  recvDestPort : BitVec 16
  recvDestIp : BitVec 32
  protocolFlags : BitVec 8
  flags : BitVec 8
  length1 : Nat
  buf1 : Bytes

/-- The arguments of `socket_server_receive` and `socket_server_receive_offline`. -/
structure Packet where
  protocol : Nat
  (srcIp destIp : BitVec 32)
  (srcPort destPort : BitVec 16)
  buffer : Bytes
  length : Nat
  (seq ack : BitVec 32)
  flags : BitVec 8

/-- `struct socket_receive_row`: a packet with its status. -/
structure Row where
  status : BitVec 8
  packet : Packet

/-- The list of sockets, the table of saved packets and the next row to use. -/
structure Sockets where
  sockets : List Socket
  socktReceiveRow : Nat → Row
  rowCur : Nat

/-- `AF_LOCAL` -/
def afLocal : Nat := 1

/-- `AF_INET` -/
def afInet : Nat := 2

/-- `IP_PROTOCOL_TCP` -/
def ipProtocolTcp : Nat := 6

/-- `ROW_NUM` -/
def rowNum : Nat := 128

/-- The socket is bound to the port. -/
def Socket.accepts (port : BitVec 16) (saddr : Socket) : Bool :=
  saddr.flags &&& 0x80#8 ≠ 0#8 ∧ (saddr.domain = afInet ∨ saddr.domain = afLocal) ∧
    saddr.srcPort = port

/-- The buffer of the socket holds a packet that has not been read. -/
def Socket.full (saddr : Socket) : Bool := saddr.flags &&& 0x2#8 ≠ 0#8

/-- Put a packet into the buffer of a socket. -/
def Socket.fill (saddr : Socket) (p : Packet) : Socket :=
  { saddr with
    length1 := p.length
    recvDestIp := p.srcIp
    recvDestPort := p.srcPort
    protocolFlags := if p.protocol = ipProtocolTcp then p.flags else saddr.protocolFlags
    buf1 := copyBytes saddr.buf1 0 p.buffer 0 p.length
    flags := saddr.flags ||| 0x2#8 }

/-- `socket_save_row`. `none` is the call of `die`, which never returns. -/
def socketSaveRow (p : Packet) (net : Sockets) : Option Sockets :=
  let old := net.socktReceiveRow net.rowCur
  if old.status ≠ 0#8 then none
  else
    let buffer := copyBytes old.packet.buffer 0 p.buffer 0 p.length
    some { net with
      rowCur := (net.rowCur + 1) % rowNum
      socktReceiveRow := Function.update net.socktReceiveRow net.rowCur
        { status := 1#8, packet := { p with buffer := buffer } } }

/-- What `socket_server_receive` does at a socket that is not bound to the port or full. -/
def saveIfFull (origem : Nat) (saddr : Socket) (p : Packet) (net : Sockets) : Option Sockets :=
  if saddr.accepts p.destPort ∧ origem = 0 then socketSaveRow p net else some net

/-- The loop of `socket_server_receive` over the sockets `saddr`. -/
def receiveLoop (origem : Nat) (p : Packet) :
    (saddr : List Socket) → Sockets → Option (List Socket × Sockets)
  | [], net => some ([], net)
  | saddr :: next, net =>
      if saddr.accepts p.destPort ∧ saddr.full = false then some (saddr.fill p :: next, net)
      else do
        let net ← saveIfFull origem saddr p net
        let (next, net) ← receiveLoop origem p next net
        pure (saddr :: next, net)

/-- `socket_server_receive` -/
def socketServerReceive (origem : Nat) (p : Packet) (net : Sockets) : Option Sockets := do
  let (sockets, net) ← receiveLoop origem p net.sockets net
  pure { net with sockets := sockets }

/-- `socket_server_receive_offline` on the list of sockets: 0 when the packet was delivered, 1 when
it has to wait. -/
def socketServerReceiveOffline (p : Packet) : List Socket → Nat × List Socket
  | [] => (1, [])
  | saddr :: next =>
      if saddr.accepts p.destPort ∧ saddr.full = false then (0, saddr.fill p :: next)
      else
        let (result, next) := socketServerReceiveOffline p next
        (result, saddr :: next)

/-- The body of the loop of `socket_execute_row`. -/
def executeRow (i : Nat) (net : Sockets) : Sockets :=
  let row := net.socktReceiveRow i
  if row.status &&& 1#8 = 0#8 then net
  else
    let (result, sockets) := socketServerReceiveOffline row.packet net.sockets
    if result = 0 then
      { net with
        sockets := sockets
        socktReceiveRow :=
          Function.update net.socktReceiveRow i { row with status := 0#8 } }
    else net

/-- The loop of `socket_execute_row` over `n` rows from `i` on. -/
def executeRows : (n i : Nat) → Sockets → Sockets
  | 0, _, net => net
  | n + 1, i, net => executeRows n (i + 1) (executeRow i net)

/-- `socket_execute_row` -/
def socketExecuteRow (net : Sockets) : Sockets := executeRows rowNum 0 net

/-- What `recvfrom` returns and writes through its pointers. -/
structure Received where
  result : Nat
  addressLen : Nat
  (sinFamily : Nat) (sinPort : BitVec 16) (sAddr : BitVec 32)
  buffer : Bytes

/-- Change the first socket with an id, as `socket_address` finds it. -/
def updateSocket (id : Nat) (f : Socket → Socket) : List Socket → List Socket
  | [] => []
  | saddr :: next => if saddr.id = id then f saddr :: next else saddr :: updateSocket id f next

/-- The packet in the buffer has been read. -/
def Socket.clean (fd : Socket) : Socket := { fd with flags := fd.flags &&& ~~~0x2#8 }

/-- `recvfrom` with a buffer and an address. `none` is the loop that waits for a packet. -/
def recvfrom (socket : Nat) (buffer : Bytes) (length : Nat) (net : Sockets) :
    Option (Received × Sockets) :=
  let empty : Received := ⟨0, 0, 0, 0#16, 0#32, buffer⟩
  if length = 0 then some (empty, net)
  else match net.sockets.find? fun saddr => saddr.id = socket with
    | none => some (empty, net)
    | some fd =>
        if fd.flags &&& 0x80#8 = 0#8 then some (empty, net)
        else if fd.full = false then none
        else
          let length := if fd.length1 < length then fd.length1 else length
          some (⟨length, 8, fd.domain, fd.recvDestPort, fd.recvDestIp,
              copyBytes buffer 0 fd.buf1 0 length⟩,
            { net with sockets := updateSocket socket Socket.clean net.sockets })

end Sirius.Net
