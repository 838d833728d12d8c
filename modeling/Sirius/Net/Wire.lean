import Sirius.Library.Bytes
import Sirius.Net.Tcp

/-!
# Frames of the network stack

The sending side of `kernel/driver/net`: `udp_send` and `tcp_send` write their headers and the
payload into a fresh buffer, `ipv4_send` puts the Ethernet and the IPv4 header in front, and
`send_ethernet_package` gives the buffer to the network card. All headers are packed, so a field is
a number of bytes at a fixed offset of the frame; multi-byte fields are in network order.
-/

namespace Sirius.Net

open Library

/-- `unsigned char mac[SIZE_OF_MAC]` -/
abbrev Mac := Fin 6 → Byte

/-- `unsigned char ip[SIZE_OF_IP]` -/
abbrev Ip := Fin 4 → Byte

/-- `arp_cache_t` -/
structure ArpCache where
  mac : Mac
  ip : Ip

/-- The `desc` of `send_ethernet_package`: a frame given to the network card. -/
structure Frame where
  buffersize : BitVec 32
  buf : Bytes

/-- `default_ethernet_device`, the addresses of the host, `arp_cache` and `ipv4_count`, with the
frames sent so far, the last one first. -/
structure Ethernet where
  mac : Mac
  (isEnabled isOnline : Byte)
  (yourIp routerIp : Ip)
  arpCache : Nat → ArpCache
  ipv4Count : BitVec 32
  sent : List Frame

/-- `ET_IPV4` -/
def etIpv4 : BitVec 16 := 0x0800#16

/-- `ET_ARP` -/
def etArp : BitVec 16 := 0x0806#16

/-- `IP_PROTOCOL_UDP` -/
def ipProtocolUdp : Nat := 17

/-! ### Fields of a frame -/

/-- The 16-bit field at `a`, as it is stored. -/
def half (buf : Bytes) (a : Nat) : BitVec 16 := BitVec.ofNat 16 (readHalf buf a)

/-- The 32-bit field at `a`, as it is stored. -/
def word (buf : Bytes) (a : Nat) : BitVec 32 := BitVec.ofNat 32 (readWord buf a)

/-- Store a 16-bit field. -/
def putHalf (buf : Bytes) (a : Nat) (v : BitVec 16) : Bytes := writeHalf buf a v.toNat

/-- Store a 32-bit field. -/
def putWord (buf : Bytes) (a : Nat) (v : BitVec 32) : Bytes := writeWord buf a v.toNat

/-- Store an array of bytes: `fillMac` and `fillIP`. -/
def fillArray (buf : Bytes) (a : Nat) {n : Nat} (src : Fin n → Byte) : Bytes :=
  fun i => if h : a ≤ i ∧ i < a + n then src ⟨i - a, by omega⟩ else buf i

/-- The array of bytes at `a`. -/
def array (buf : Bytes) (a n : Nat) : Fin n → Byte := fun i => buf (a + i)

/-! ### Checksums -/

/-- The loop of `net_checksum` over the 16-bit words of `len` bytes from `p` on. -/
def sumWords (m : Bytes) : (len p : Nat) → (checksum : BitVec 32) → BitVec 32
  | len + 2, p, checksum => sumWords m len (p + 2) (checksum + (half m p).setWidth 32)
  | _, _, checksum => checksum

/-- `net_checksum` over an optional pseudo header and `len` bytes from `start` on. -/
def netChecksum (phdr : Option (Bytes × Nat)) (m : Bytes) (start len : Nat) : BitVec 16 :=
  let checksum := match phdr with
    | none => 0#32
    | some (phdr, phdrLen) => sumWords phdr phdrLen 0 0#32
  let checksum := sumWords m len start checksum
  let checksum :=
    if len % 2 ≠ 0 then checksum + (m (start + len - 1)).setWidth 32 else checksum
  let checksum := (checksum &&& 0xffff#32) + (checksum >>> 16)
  let checksum := checksum + (checksum >>> 16)
  htons ((~~~checksum).setWidth 16)

/-! ### The Ethernet layer -/

/-- `send_ethernet_package` -/
def sendEthernetPackage (buf : Bytes) (size : Nat) (eth : Ethernet) : Ethernet :=
  if eth.isEnabled = 0#8 then eth
  else { eth with sent := ⟨BitVec.ofNat 32 size, buf⟩ :: eth.sent }

/-- The broadcast address. -/
def everyone : Mac := fun _ => 0xff#8

/-- The frame of `arp_request` and `arp_replay`. -/
def arpPackage (operation : BitVec 16) (dst target : Mac) (ip : Ip) (eth : Ethernet) : Bytes :=
  let buf : Bytes := fun _ => 0#8
  -- Ethernet header
  let buf := fillArray buf 0 dst
  let buf := fillArray buf 6 eth.mac
  let buf := putHalf buf 12 (htons etArp)
  -- arp header
  let buf := putHalf buf 14 (htons 0x0001#16)
  let buf := putHalf buf 16 (htons etIpv4)
  let buf := Function.update buf 18 6#8
  let buf := Function.update buf 19 4#8
  let buf := putHalf buf 20 (htons operation)
  let buf := fillArray buf 22 eth.mac
  let buf := fillArray buf 28 eth.yourIp
  let buf := fillArray buf 32 target
  fillArray buf 38 ip

/-- `arp_request` -/
def arpRequest (ip : Ip) (mac : Mac) (eth : Ethernet) : Ethernet :=
  sendEthernetPackage (arpPackage 1#16 mac (fun _ => 0#8) ip eth) 42 eth

/-- `arp_replay` -/
def arpReplay (ip : Ip) (mac : Mac) (eth : Ethernet) : Ethernet :=
  sendEthernetPackage (arpPackage 2#16 mac mac ip eth) 42 eth

/-- `arp_save_address` -/
def arpSaveAddress (ip : Ip) (mac : Mac) (eth : Ethernet) : Ethernet :=
  let known := (List.range 1024).any fun i =>
    (eth.arpCache i).ip 0 ≠ 0#8 ∧ ip = (eth.arpCache i).ip ∧ mac = (eth.arpCache i).mac
  if known then eth
  else match (List.range 1024).find? fun i => (eth.arpCache i).ip = fun _ => 0#8 with
    | none => eth
    | some i => { eth with arpCache := Function.update eth.arpCache i ⟨mac, ip⟩ }

/-- `arp_cache_get_address` -/
@[irreducible] def arpCacheGetAddress (ip : Ip) (arpCache : Nat → ArpCache) : Option Mac :=
  ((List.range 1024).find? fun i => ip = (arpCache i).ip).map fun i => (arpCache i).mac

/-- `get_hardwere_ethernet`: the hardware address of the router. The list holds the contents of
`arp_cache` after each `sleep`; the count `n` of attempts is never decreased, so `none` is the loop
that goes on waiting. -/
def getHardwereEthernet : List (Nat → ArpCache) → Ethernet → Option (Mac × Ethernet)
  | [], eth => (arpCacheGetAddress eth.routerIp eth.arpCache).map fun mac => (mac, eth)
  | arpCache :: sleeps, eth =>
      match arpCacheGetAddress eth.routerIp eth.arpCache with
      | some mac => some (mac, eth)
      | none =>
          getHardwereEthernet sleeps { arpRequest eth.routerIp everyone eth with arpCache }

/-! ### IPv4, UDP and TCP -/

/-- The IPv4 header that `ipv4_send` writes, without its checksum. -/
def ipv4Header (buf : Bytes) (protocol : Byte) (srcAddress dstAddress : BitVec 32)
    (length ipv4Count : BitVec 32) : Bytes :=
  let buf := Function.update buf 14 0x45#8
  let buf := Function.update buf 15 0#8
  let buf := putHalf buf 16 (htons ((length + 20#32).setWidth 16))
  let buf := putHalf buf 18 (htons (ipv4Count.setWidth 16))
  let buf := putHalf buf 20 (htons 0x4000#16)
  let buf := Function.update buf 22 64#8
  let buf := Function.update buf 23 protocol
  let buf := putHalf buf 24 0#16
  let buf := putWord buf 26 srcAddress
  putWord buf 30 dstAddress

/-- The hardware address that `ipv4_send` sends to. -/
def destinationMac (sleeps : List (Nat → ArpCache)) (dstAddress : BitVec 32) (eth : Ethernet) :
    Option (Mac × Ethernet) :=
  if dstAddress ≠ 0xffffffff#32 then getHardwereEthernet sleeps eth else some (everyone, eth)

/-- `ipv4_send` -/
def ipv4Send (sleeps : List (Nat → ArpCache)) (buf : Bytes) (protocol : Byte)
    (srcAddress dstAddress length : BitVec 32) (eth : Ethernet) : Option Ethernet := do
  let (mac, eth) ← destinationMac sleeps dstAddress eth
  let buf := fillArray buf 0 mac
  let buf := fillArray buf 6 eth.mac
  let buf := putHalf buf 12 (htons etIpv4)
  let buf := ipv4Header buf protocol srcAddress dstAddress length eth.ipv4Count
  let checksum := netChecksum none buf 14 20
  let buf := putHalf buf 24 (htons checksum)
  pure (sendEthernetPackage buf (length.toNat + 20 + 14)
    { eth with ipv4Count := eth.ipv4Count + 1#32 })

/-- The UDP header and the payload that `udp_send` writes into `buf`. -/
def udpPackage (buf : Bytes) (srcPort dstPort : BitVec 16) (data : Bytes) (length : Nat) :
    Bytes :=
  let buf := putHalf buf 38 (htons (BitVec.ofNat 16 (8 + length)))
  let buf := putHalf buf 36 (htons dstPort)
  let buf := putHalf buf 34 (htons srcPort)
  let buf := putHalf buf 40 0#16
  copyBytes buf 42 data 0 length

/-- `udp_send`; `buf` holds the bytes that `malloc` returns. -/
def udpSend (sleeps : List (Nat → ArpCache)) (buf : Bytes) (srcAddress dstAddress : BitVec 32)
    (srcPort dstPort : BitVec 16) (data : Bytes) (length : Nat) (eth : Ethernet) :
    Option (BitVec 32 × Ethernet) := do
  let buf := udpPackage buf srcPort dstPort data length
  let eth ← ipv4Send sleeps buf 17#8 srcAddress dstAddress (BitVec.ofNat 32 (8 + length)) eth
  pure (BitVec.ofNat 32 length, eth)

/-- The loop of `tcp_send` that ends the options at a multiple of four bytes, which takes at most
three of them. -/
def padOptions (start : Nat) : (n : Nat) → Bytes → (options : Nat) → Bytes × Nat
  | 0, buf, options => (buf, options)
  | n + 1, buf, options =>
      if (options - start) % 4 = 0 then (buf, options)
      else padOptions start n (Function.update buf options 0#8) (options + 1)

/-- The options that `tcp_send` writes behind the TCP header at `start`, and where they end. -/
def tcpOptions (buf : Bytes) (start : Nat) : Bytes × Nat :=
  let options := start + 20
  -- Maximum Segment Size (2)
  let buf := Function.update buf options 2#8
  let buf := Function.update buf (options + 1) 4#8
  let buf := putHalf buf (options + 2) (htons 1460#16)
  let options := options + (buf (options + 1)).toNat
  -- SACK Permitted
  let buf := Function.update buf options 4#8
  let buf := Function.update buf (options + 1) 2#8
  let options := options + (buf (options + 1)).toNat
  padOptions start 3 buf options

/-- The pseudo header of `tcp_send`. -/
def checksumHeader (srcAddress dstAddress : BitVec 32) (protocol : Byte) (len : BitVec 16) :
    Bytes :=
  let phdr : Bytes := fun _ => 0#8
  let phdr := putWord phdr 0 srcAddress
  let phdr := putWord phdr 4 dstAddress
  let phdr := Function.update phdr 8 0#8
  let phdr := Function.update phdr 9 protocol
  putHalf phdr 10 (htons len)

/-- The TCP header, with its options, and the payload that `tcp_send` writes into `buf`, without
the checksum, and the length `hlen` of the header. -/
def tcpPackage (buf : Bytes) (s : TcpSegment) : Bytes × Nat :=
  let buf := putHalf buf 36 (htons s.dstPort)
  let buf := putHalf buf 34 (htons s.srcPort)
  let buf := putWord buf 38 (htonl s.seq)
  let buf := putWord buf 42 (htonl s.ack)
  let buf := Function.update buf 46 0#8
  let buf := Function.update buf 47 s.flags
  let buf := putHalf buf 48 (htons 4096#16)
  let buf := putHalf buf 50 (htons 0#16)
  let buf := putHalf buf 52 (htons 0#16)
  let (buf, options) := tcpOptions buf 34
  let hlen := options - 34
  let buf := Function.update buf 46 (BitVec.ofNat 8 (hlen <<< 2))
  (copyBytes buf options s.data 0 s.length.toNat, hlen)

namespace Wire

/-- `tcp_send`, as it writes the frame of a segment; `buf` holds the bytes that `malloc` returns. -/
def tcpSend (sleeps : List (Nat → ArpCache)) (buf : Bytes) (s : TcpSegment) (eth : Ethernet) :
    Option (BitVec 32 × Ethernet) := do
  let (buf, hlen) := tcpPackage buf s
  let len := BitVec.ofNat 32 (hlen + s.length.toNat)
  let phdr := checksumHeader s.srcAddress s.dstAddress 6#8 (len.setWidth 16)
  let checksum := netChecksum (some (phdr, 12)) buf 34 len.toNat
  let buf := putHalf buf 50 (htons checksum)
  let eth ← ipv4Send sleeps buf 6#8 s.srcAddress s.dstAddress len eth
  pure (s.length, eth)

end Wire

end Sirius.Net
