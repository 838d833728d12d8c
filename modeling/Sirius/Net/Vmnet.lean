import Sirius.Net.ReceiveRing
import Sirius.Net.RoundTrip

/-!
# The loopback device

`kernel/driver/net/vmnet.c`. A packet for the own host is a UDP header behind a small header of its
own; it goes into the next of 256 descriptors, each with a buffer of 8 KiB. A clear bit 0x8000 in
the status of a descriptor means that the packet has not been received. `handler_vmnet` collects
all such packets in `packege_desc_buffer` and passes them to `socket_server_receive`.
-/

namespace Sirius.Net

open Library

/-- `struct RxDesc`, where `buffer` is the memory that the field points to. -/
structure RxDesc where
  buffer : Bytes
  length : BitVec 16
  status : BitVec 16

/-- The globals of `vmnet.c`, and `packege_desc_buffer`. -/
structure Vmnet where
  rxDesc : Nat → RxDesc
  rxCur : Nat
  txCur : Nat
  packegeDescBuffer : Nat → Descriptor

/-- `VMNET_RX_BUF_NUM` and `VMNET_TX_BUF_NUM` -/
def vmnetBufNum : Nat := 256

/-- The descriptor holds no packet. -/
def RxDesc.received (d : RxDesc) : Bool := d.status &&& 0x8000#16 ≠ 0#16

/-- `vmnet_map_buf`: the memory of the descriptors and of their buffers is cleared. -/
def vmnetMapBuf (s : Vmnet) : Vmnet :=
  { s with
    rxDesc := fun _ => ⟨fun _ => 0#8, 0#16, 0x8000#16⟩
    rxCur := 0
    txCur := 0 }

theorem map_buf_received (s : Vmnet) (i : Nat) : ((vmnetMapBuf s).rxDesc i).received = true := by
  simp [vmnetMapBuf, RxDesc.received]

/-! ### Sending -/

/-- `vmnet_send_package`, up to the interrupt at its end. -/
def vmnetSendPackage (desc : Frame) (s : Vmnet) : Nat × Vmnet :=
  if 8192 < desc.buffersize.toNat then (2, s)
  else
    let dest := s.rxDesc s.txCur
    let buffer := copyBytes dest.buffer 0 desc.buf 0 desc.buffersize.toNat
    (0, { s with
      rxDesc := Function.update s.rxDesc s.txCur ⟨buffer, desc.buffersize.setWidth 16, 0#16⟩
      txCur := (s.txCur + 1) % vmnetBufNum })

/-- `vmipv4_send` -/
def vmipv4Send (buf : Bytes) (protocol : Byte) (srcAddress dstAddress length : BitVec 32)
    (s : Vmnet) : Nat × Vmnet :=
  let len := 12#32 + length
  let buf := putWord buf 0 srcAddress
  let buf := putWord buf 4 dstAddress
  let buf := Function.update buf 10 protocol
  let buf := Function.update buf 11 0#8
  let buf := putHalf buf 8 (htons (len.setWidth 16))
  let (result, s) := vmnetSendPackage ⟨len, buf⟩ s
  (if result ≠ 0 then 1 else 0, s)

/-- The UDP header and the payload that `vmnet_udp_send` writes into `buf`. -/
def vmnetUdpPackage (buf : Bytes) (srcPort dstPort : BitVec 16) (data : Bytes) (length : Nat) :
    Bytes :=
  let buf := putHalf buf 16 (htons (BitVec.ofNat 16 (8 + length)))
  let buf := putHalf buf 14 (htons dstPort)
  let buf := putHalf buf 12 (htons srcPort)
  let buf := putHalf buf 18 0#16
  copyBytes buf 20 data 0 length

/-- `vmnet_udp_send`; `buf` holds the bytes that `malloc` returns. -/
def vmnetUdpSend (buf : Bytes) (srcIp dstIp : BitVec 32) (srcPort dstPort : BitVec 16)
    (data : Bytes) (length : Nat) (s : Vmnet) : Nat × Vmnet :=
  let buf := vmnetUdpPackage buf srcPort dstPort data length
  let (_, s) := vmipv4Send buf 17#8 srcIp dstIp (BitVec.ofNat 32 (8 + length)) s
  (length, s)

/-! ### Receiving -/

/-- The packet of the current descriptor is received into `packege_desc_buffer[desc]`, and the
count in the first descriptor goes up. -/
def recieveOne (desc : Nat) (s : Vmnet) : Vmnet :=
  let rx := s.rxDesc s.rxCur
  let old := s.packegeDescBuffer desc
  let descs := Function.update s.packegeDescBuffer desc
    { old with flag := 0#32, buffersize := rx.length.setWidth 32, buf := some rx.buffer }
  let first := descs 0
  { s with
    rxDesc := Function.update s.rxDesc s.rxCur { rx with status := rx.status ||| 0x8000#16 }
    rxCur := (s.rxCur + 1) % vmnetBufNum
    packegeDescBuffer := Function.update descs 0 { first with count := first.count + 1#32 } }

/-- The loop of `vmnet_recieve_package`. Every round marks one descriptor as received, so there are
at most as many rounds as descriptors. -/
def recieveLoop : (n desc : Nat) → Vmnet → Vmnet
  | 0, _, s => s
  | n + 1, desc, s =>
      if (s.rxDesc s.rxCur).received then s else recieveLoop n (desc + 1) (recieveOne desc s)

/-- `vmnet_recieve_package` -/
def vmnetRecievePackage (s : Vmnet) : Vmnet :=
  recieveLoop vmnetBufNum 0 { s with
    packegeDescBuffer := Function.update s.packegeDescBuffer 0
      { flag := 0xffffffff#32, count := 0#32, buffersize := 0#32, buf := none } }

/-- The device as the driver of a card. -/
def vmnet : RxDriver RxDesc Unit where
  num := vmnetBufNum
  completed := fun rx => !rx.received
  length := RxDesc.length
  buffer := RxDesc.buffer
  handBack := fun rx => { rx with status := rx.status ||| 0x8000#16 }
  notify := fun _ regs => regs

/-- The receive ring of the device. -/
def Vmnet.ring (s : Vmnet) : RxRing RxDesc Unit := ⟨s.rxDesc, s.rxCur, (), s.packegeDescBuffer⟩

theorem ring_recieve_loop (n desc : Nat) (s : Vmnet) :
    (recieveLoop n desc s).ring = vmnet.recieveLoop n desc s.ring := by
  induction n generalizing desc s with
  | zero => rfl
  | succ n ih =>
      rw [recieveLoop, RxDriver.recieveLoop]
      show _ = if (!(s.rxDesc s.rxCur).received) = true then _ else _
      cases (s.rxDesc s.rxCur).received with
      | true => rfl
      | false => exact ih (desc + 1) (recieveOne desc s)

/-- `vmnet_recieve_package` is the loop of the other drivers. -/
theorem ring_vmnet_recieve_package (s : Vmnet) :
    (vmnetRecievePackage s).ring = vmnet.recievePackage s.ring := ring_recieve_loop _ _ _

/-- Receiving does not send. -/
theorem tx_cur_recieve_loop (n desc : Nat) (s : Vmnet) : (recieveLoop n desc s).txCur = s.txCur := by
  induction n generalizing desc s with
  | zero => rfl
  | succ n ih =>
      rw [recieveLoop]
      split
      · rfl
      · rw [ih]
        rfl

theorem received_or (status : BitVec 16) : (status ||| 0x8000#16) &&& 0x8000#16 ≠ 0#16 := by
  rw [BitVec.and_comm, BitVec.and_or_distrib_left]
  intro hzero
  have hbit := congrArg (fun v => v.getLsbD 15) hzero
  simp at hbit

/-- A descriptor that was received is marked. -/
theorem received_hand_back (rx : RxDesc) : (vmnet.handBack rx).received = true := by
  simpa [vmnet, RxDesc.received] using received_or rx.status

/-- The arguments of `socket_server_receive` for a UDP packet; the port numbers stay in network
order. -/
def vmnetPacket (buf : Bytes) : Packet :=
  { protocol := ipProtocolUdp, srcIp := word buf 0, destIp := word buf 4, srcPort := half buf 12,
    destPort := half buf 14, buffer := fun i => buf (20 + i),
    length := ((htons (half buf 8)).setWidth 32 - 12#32 - 8#32).toNat, seq := 0#32, ack := 0#32,
    flags := 0#8 }

/-- The body of the loop of `handler_vmnet`: the call of `socket_server_receive`, if there is
one. -/
def handlerVmnetOne (prd : Descriptor) : Option Packet :=
  if prd.skipped then none
  else match prd.buf with
    | none => none
    | some buf => if (buf 10).toNat = ipProtocolUdp then some (vmnetPacket buf) else none

/-- The loop of `handler_vmnet` over `count` descriptors, the first of which is at `i`. -/
def handlerVmnetLoop (prd : Nat → Descriptor) : (count i : Nat) → List Packet
  | 0, _ => []
  | count + 1, i => (handlerVmnetOne (prd i)).toList ++ handlerVmnetLoop prd count (i + 1)

/-- `handler_vmnet`, with its calls of `socket_server_receive` in the order it makes them. -/
def handlerVmnet (s : Vmnet) : List Packet × Vmnet :=
  let s := vmnetRecievePackage s
  let prd := s.packegeDescBuffer
  (handlerVmnetLoop prd (prd 0).count.toInt.toNat 0, s)

end Sirius.Net
