import Sirius.Net.Ethernet

/-!
# What is sent is what is received

A frame of `udp_send` or `tcp_send` that reaches `handler_ethernet_package_received` has the effect
of the values the sender was given: the headers carry the protocol, the addresses and the port
numbers, and the length the receiver computes from the IPv4 header and the data offset is the
length of the payload.
-/

namespace Sirius.Net

open Library

/-- The transport protocol of a transmission, with the fields only TCP has. -/
inductive Transport
  | udp
  | tcp (seq ack : BitVec 32) (flags : Byte)

/-- The arguments of `udp_send` or `tcp_send`. -/
structure Transmission where
  transport : Transport
  (srcAddress dstAddress : BitVec 32)
  (srcPort dstPort : BitVec 16)
  data : Bytes
  length : Nat

/-- The call of the sender. -/
def Transmission.send (t : Transmission) (sleeps : List (Nat → ArpCache)) (buf : Bytes)
    (eth : Ethernet) : Option (BitVec 32 × Ethernet) :=
  match t.transport with
  | .udp =>
      udpSend sleeps buf t.srcAddress t.dstAddress t.srcPort t.dstPort t.data t.length eth
  | .tcp seq ack flags =>
      Wire.tcpSend sleeps buf
        { srcAddress := t.srcAddress, dstAddress := t.dstAddress, srcPort := t.srcPort,
          dstPort := t.dstPort, seq, ack, flags, data := t.data,
          length := BitVec.ofNat 32 t.length } eth

/-- The number of header bytes in front of the payload, without the Ethernet header. -/
def Transmission.headers (t : Transmission) : Nat :=
  match t.transport with
  | .udp => 28
  | .tcp .. => 48

/-- The IPv4 packet has a length that its length field can hold, as every payload within the limit
of Ethernet has. -/
def Transmission.Fits (t : Transmission) : Prop := t.headers + t.length < 2 ^ 16

/-- The protocol number. -/
def Transmission.protocol (t : Transmission) : Nat :=
  match t.transport with
  | .udp => ipProtocolUdp
  | .tcp .. => ipProtocolTcp

/-- The arguments of `socket_server_receive` are what the sender was given; its port numbers are in
network order. -/
structure Transmission.Extracts (t : Transmission) (p : Packet) : Prop where
  protocol : p.protocol = t.protocol
  addresses : p.srcIp = t.srcAddress ∧ p.destIp = t.dstAddress
  ports : htons p.srcPort = t.srcPort ∧ htons p.destPort = t.dstPort
  length : p.length = t.length
  payload : ∀ i < t.length, p.buffer i = t.data i

/-- What the receive path does with a packet, told by the values the sender was given: a datagram
is passed on, and a segment is passed on when `tcp_ack` lets it. -/
def Transmission.outcome (t : Transmission) (p : Packet) (net : TcpTable) :
    Option Packet × TcpTable :=
  match t.transport with
  | .udp => (some p, net)
  | .tcp seq ack flags =>
      if flags = tcpFlagAck ||| tcpFlagSyn ∨ flags = tcpFlagAck ||| tcpFlagPsh ∨
          flags = tcpFlagAck ||| tcpFlagFin then
        let (result, net) := tcpAck t.srcAddress t.dstAddress t.srcPort t.dstPort seq ack flags
          (BitVec.ofNat 32 t.length) net
        if result ≠ 0 then (none, net) else (some p, net)
      else if flags = tcpFlagAck then
        (none, tcpFinish t.srcAddress t.dstAddress t.srcPort t.dstPort ack net)
      else (none, net)

/-- A received frame holds the bytes of the frame sent; the card may have padded it. -/
structure Descriptor.Carries (prd : Descriptor) (buf : Bytes) (frame : Frame) : Prop where
  filled : prd.buf = some buf
  ready : prd.flag = 0#32
  size : prd.buffersize ≠ 0#32
  bytes : ∀ i < frame.buffersize.toNat, buf i = frame.buf i

variable {m m' buf buf' : Bytes} {a b i n start count : Nat} {v : BitVec 16} {w : BitVec 32}
  {value : Byte} {src : Fin n → Byte} {t : Transmission} {eth eth' : Ethernet}
  {sleeps : List (Nat → ArpCache)} {frame : Frame} {prd : Descriptor}

/-! ### Reading fields back -/

theorem htons_htons (nb : BitVec 16) : htons (htons nb) = nb := by
  unfold htons
  ext i hi
  simp only [BitVec.getElem_or, BitVec.getElem_ushiftRight, BitVec.getElem_shiftLeft]
  grind

theorem htonl_htonl (nb : BitVec 32) : htonl (htonl nb) = nb := by
  unfold htonl
  ext i hi
  interval_cases i <;>
    simp [BitVec.getElem_or, BitVec.getElem_and, BitVec.getElem_ushiftRight,
      BitVec.getElem_shiftLeft]

theorem fill_array_outside (h : i < a ∨ a + n ≤ i) : fillArray m a src i = m i := by
  simp only [fillArray, dite_eq_right_iff]
  intro hi
  omega

theorem half_congr (h : ∀ k < 2, m (a + k) = m' (a + k)) : half m a = half m' a :=
  congrArg (BitVec.ofNat 16) (read_half_congr h)

theorem word_congr (h : ∀ k < 4, m (a + k) = m' (a + k)) : word m a = word m' a :=
  congrArg (BitVec.ofNat 32) (read_word_congr h)

theorem half_put_half_same : half (putHalf m a v) a = v := by
  unfold half putHalf
  rw [read_write_half_same v.isLt, BitVec.ofNat_toNat, BitVec.setWidth_eq]

theorem half_put_half_other (h : b + 2 ≤ a ∨ a + 2 ≤ b) : half (putHalf m a v) b = half m b :=
  half_congr fun _ _ => write_half_outside (by omega)

theorem half_put_word_other (h : b + 2 ≤ a ∨ a + 4 ≤ b) : half (putWord m a w) b = half m b :=
  half_congr fun _ _ => write_word_outside (by omega)

theorem half_update_other (h : i < b ∨ b + 2 ≤ i) :
    half (Function.update m i value) b = half m b :=
  half_congr fun _ _ => Function.update_of_ne (by omega) _ _

theorem half_copy_other (h : b + 2 ≤ a ∨ a + count ≤ b) :
    half (copyBytes m a m' start count) b = half m b :=
  half_congr fun _ _ => copy_bytes_outside (by omega)

theorem word_put_word_same : word (putWord m a w) a = w := by
  unfold word putWord
  rw [read_write_word_same w.isLt, BitVec.ofNat_toNat, BitVec.setWidth_eq]

theorem word_put_word_other (h : b + 4 ≤ a ∨ a + 4 ≤ b) : word (putWord m a w) b = word m b :=
  word_congr fun _ _ => write_word_outside (by omega)

theorem word_put_half_other (h : b + 4 ≤ a ∨ a + 2 ≤ b) : word (putHalf m a v) b = word m b :=
  word_congr fun _ _ => write_half_outside (by omega)

theorem word_update_other (h : i < b ∨ b + 4 ≤ i) :
    word (Function.update m i value) b = word m b :=
  word_congr fun _ _ => Function.update_of_ne (by omega) _ _

theorem word_copy_other (h : b + 4 ≤ a ∨ a + count ≤ b) :
    word (copyBytes m a m' start count) b = word m b :=
  word_congr fun _ _ => copy_bytes_outside (by omega)

/-! ### The IPv4 layer -/

/-- A buffer holds an IPv4 packet whose payload is the `length` bytes of `m` from 34 on. -/
structure Ipv4Frame (buf m : Bytes) (protocol : Byte) (srcAddress dstAddress length : BitVec 32) :
    Prop where
  type : half buf 12 = htons etIpv4
  len : half buf 16 = htons ((length + 20#32).setWidth 16)
  protocol : buf 23 = protocol
  src : word buf 26 = srcAddress
  dst : word buf 30 = dstAddress
  rest : ∀ i, 34 ≤ i → i < 34 + length.toNat → buf i = m i

theorem send_ethernet_package_enabled (buf : Bytes) (size : Nat) (h : eth.isEnabled ≠ 0#8) :
    sendEthernetPackage buf size eth =
      { eth with sent := ⟨BitVec.ofNat 32 size, buf⟩ :: eth.sent } := by
  simp only [sendEthernetPackage, h, if_false]

/-- Waiting for the router leaves the device enabled. -/
theorem get_hardwere_ethernet_enabled {mac : Mac}
    (h : getHardwereEthernet sleeps eth = some (mac, eth')) :
    eth'.isEnabled = eth.isEnabled := by
  induction sleeps generalizing eth with
  | nil =>
      simp only [getHardwereEthernet, Option.map_eq_some_iff, Prod.mk.injEq] at h
      obtain ⟨_, _, _, heq⟩ := h
      rw [heq]
  | cons arpCache sleeps ih =>
      simp only [getHardwereEthernet] at h
      split at h
      case h_1 =>
          cases h
          rfl
      case h_2 =>
          rw [ih h]
          unfold arpRequest sendEthernetPackage
          split
          case isTrue => rfl
          case isFalse => rfl

/-- The frame that `ipv4_send` gives to the card: the Ethernet header, and the IPv4 header with its
checksum stored last. -/
theorem ipv4_send_sent {protocol : Byte} {srcAddress dstAddress length : BitVec 32}
    (h : ipv4Send sleeps m protocol srcAddress dstAddress length eth = some eth')
    (henabled : eth.isEnabled ≠ 0#8) :
    ∃ (mac : Mac) (ready : Ethernet) (hdr : Bytes), hdr = ipv4Header
        (putHalf (fillArray (fillArray m 0 mac) 6 ready.mac) 12 (htons etIpv4)) protocol srcAddress
        dstAddress length ready.ipv4Count ∧
      eth'.sent = ⟨BitVec.ofNat 32 (length.toNat + 34),
        putHalf hdr 24 (htons (netChecksum none hdr 14 20))⟩ :: ready.sent := by
  simp only [ipv4Send, Option.bind_eq_bind, Option.bind_eq_some_iff, Option.pure_def,
    Option.some.injEq, Prod.exists] at h
  obtain ⟨mac, ready, hready, h⟩ := h
  have hkeep : ready.isEnabled = eth.isEnabled := by
    unfold destinationMac at hready
    split at hready
    case isTrue => exact get_hardwere_ethernet_enabled hready
    case isFalse =>
        cases hready
        rfl
  rw [send_ethernet_package_enabled _ _ (by simpa [hkeep] using henabled)] at h
  subst h
  exact ⟨mac, ready, _, rfl, rfl⟩

/-- `ipv4_send` puts one frame on the wire. -/
theorem ipv4_send_frame {protocol : Byte} {srcAddress dstAddress length : BitVec 32}
    (h : ipv4Send sleeps m protocol srcAddress dstAddress length eth = some eth')
    (henabled : eth.isEnabled ≠ 0#8) :
    ∃ frame sent, eth'.sent = frame :: sent ∧
      frame.buffersize = BitVec.ofNat 32 (length.toNat + 34) ∧
      Ipv4Frame frame.buf m protocol srcAddress dstAddress length := by
  obtain ⟨mac, ready, hdr, rfl, hsent⟩ := ipv4_send_sent h henabled
  refine ⟨_, _, hsent, rfl, ?_⟩
  constructor
  case rest =>
      intro i hi _
      simp only [ipv4Header, putHalf, putWord]
      simp (disch := omega) only [write_half_outside, write_word_outside, fill_array_outside,
        Function.update_of_ne]
  case protocol =>
      simp only [ipv4Header, putHalf, putWord]
      simp (disch := omega) only [write_half_outside, write_word_outside, Function.update_self]
  all_goals
    simp (disch := omega) only [ipv4Header, half_put_half_same, half_put_half_other,
      half_put_word_other, half_update_other, word_put_word_same, word_put_word_other,
      word_put_half_other]

/-- A receive buffer with the bytes of a frame holds the packet of the frame. -/
theorem Ipv4Frame.carried {protocol : Byte} {srcAddress dstAddress length : BitVec 32}
    (h : Ipv4Frame frame.buf m protocol srcAddress dstAddress length)
    (hsize : length.toNat + 34 ≤ frame.buffersize.toNat)
    (hbytes : ∀ i < frame.buffersize.toNat, buf i = frame.buf i) :
    Ipv4Frame buf m protocol srcAddress dstAddress length where
  type := (half_congr fun k hk => hbytes _ (by omega)).trans h.type
  len := (half_congr fun k hk => hbytes _ (by omega)).trans h.len
  protocol := (hbytes _ (by omega)).trans h.protocol
  src := (word_congr fun k hk => hbytes _ (by omega)).trans h.src
  dst := (word_congr fun k hk => hbytes _ (by omega)).trans h.dst
  rest := fun i hlow hhigh => (hbytes i (by omega)).trans (h.rest i hlow hhigh)

/-- The length arithmetic of the receiver undoes that of the sender. -/
theorem payload_len (header n : Nat) (hfits : header + 20 + n < 2 ^ 16) :
    (htons (htons ((BitVec.ofNat 32 (header + n) + 20#32).setWidth 16))).setWidth 32 - 20#32 -
      BitVec.ofNat 32 header = BitVec.ofNat 32 n := by
  rw [htons_htons]
  apply BitVec.eq_of_toNat_eq
  simp only [BitVec.toNat_sub, BitVec.toNat_setWidth, BitVec.toNat_add, BitVec.toNat_ofNat]
  omega

/-! ### UDP -/

/-- The datagram that the receiver finds in a frame of `udp_send`. -/
theorem udp_packet_extracts {srcAddress dstAddress : BitVec 32} {srcPort dstPort : BitVec 16}
    {data : Bytes} (hfits : 28 + n < 2 ^ 16)
    (h : Ipv4Frame buf (udpPackage m srcPort dstPort data n) 17#8 srcAddress dstAddress
      (BitVec.ofNat 32 (8 + n))) :
    Transmission.Extracts ⟨.udp, srcAddress, dstAddress, srcPort, dstPort, data, n⟩
      (udpPacket buf) := by
  have hrest : ∀ i, 34 ≤ i → i < 42 + n → buf i = udpPackage m srcPort dstPort data n i := by
    intro i hlow hhigh
    refine h.rest i hlow ?_
    rw [BitVec.toNat_ofNat]
    omega
  have hsrc : half buf 34 = htons srcPort := by
    rw [half_congr fun k hk => hrest (34 + k) (by omega) (by omega)]
    simp (disch := omega) only [udpPackage, half_copy_other, half_put_half_other,
      half_put_half_same]
  have hdst : half buf 36 = htons dstPort := by
    rw [half_congr fun k hk => hrest (36 + k) (by omega) (by omega)]
    simp (disch := omega) only [udpPackage, half_copy_other, half_put_half_other,
      half_put_half_same]
  constructor
  case protocol => rfl
  case addresses => exact ⟨h.src, h.dst⟩
  case ports =>
      show htons (half buf 34) = srcPort ∧ htons (half buf 36) = dstPort
      rw [hsrc, hdst, htons_htons, htons_htons]
      exact ⟨rfl, rfl⟩
  case length =>
      show (udpLen buf).toNat = n
      rw [udpLen, h.len, payload_len 8 n (by omega), BitVec.toNat_ofNat]
      omega
  case payload =>
      intro i hi
      show buf (42 + i) = data i
      rw [hrest (42 + i) (by omega) (by simp only at hi; omega)]
      simp only [udpPackage]
      rw [copy_bytes_inside hi, Nat.zero_add]

/-! ### TCP -/

/-- The padding of the options leaves what is in front of it alone. -/
theorem pad_options_outside (options : Nat) (h : i < options) :
    (padOptions start n m options).1 i = m i := by
  induction n generalizing m options with
  | zero => rfl
  | succ n ih =>
      unfold padOptions
      split
      case isTrue => rfl
      case isFalse =>
          rw [ih (options + 1) (by omega)]
          exact Function.update_of_ne (by omega) _ _

/-- The options end 28 bytes after the start of the TCP header. -/
theorem tcp_options_end (m : Bytes) : (tcpOptions m 34).2 = 62 := by
  simp (disch := omega) only [tcpOptions, putHalf, write_half_outside, Function.update_self]
  rfl

/-- The options leave the header in front of them alone. -/
theorem tcp_options_outside (m : Bytes) (h : i < 54) : (tcpOptions m 34).1 i = m i := by
  simp (disch := omega) only [tcpOptions, putHalf, write_half_outside, Function.update_self]
  rw [pad_options_outside _ (by simp; omega)]
  simp (disch := omega) only [write_half_outside, Function.update_of_ne]

/-- The bytes of a segment from its TCP header on. -/
structure TcpBytes (buf : Bytes) (s : TcpSegment) : Prop where
  srcPort : half buf 34 = htons s.srcPort
  dstPort : half buf 36 = htons s.dstPort
  seq : word buf 38 = htonl s.seq
  ack : word buf 42 = htonl s.ack
  off : buf 46 = 0x70#8
  flags : buf 47 = s.flags
  payload : ∀ i < s.length.toNat, buf (62 + i) = s.data i

/-- What `tcp_send` writes behind the IPv4 header. -/
theorem tcp_package_bytes (m : Bytes) (s : TcpSegment) :
    TcpBytes (tcpPackage m s).1 s ∧ (tcpPackage m s).2 = 28 := by
  have hend := tcp_options_end
  have houtside := fun (m : Bytes) i (h : i < 54) => tcp_options_outside m h
  have hhalf : ∀ (m : Bytes) b, b < 53 → half (tcpOptions m 34).1 b = half m b :=
    fun m b hb => half_congr fun k hk => houtside m _ (by omega)
  have hword : ∀ (m : Bytes) b, b < 51 → word (tcpOptions m 34).1 b = word m b :=
    fun m b hb => word_congr fun k hk => houtside m _ (by omega)
  simp only [tcpPackage, hend]
  refine ⟨?_, trivial⟩
  constructor
  case payload =>
      intro i hi
      rw [copy_bytes_inside hi, Nat.zero_add]
  case off =>
      rw [copy_bytes_outside (by omega), Function.update_self]
      rfl
  case flags =>
      simp (disch := omega) only [copy_bytes_outside, Function.update_of_ne, houtside, putHalf,
        write_half_outside, Function.update_self]
  all_goals
    simp (disch := omega) only [half_copy_other, half_update_other, hhalf, half_put_half_other,
      half_put_word_other, half_put_half_same, word_copy_other, word_update_other, hword,
      word_put_half_other, word_put_word_other, word_put_word_same]

/-- Bytes from the TCP header on that agree hold the same segment. -/
theorem TcpBytes.carried {s : TcpSegment} (h : TcpBytes m s)
    (hbytes : ∀ i, 34 ≤ i → i < 62 + s.length.toNat → buf i = m i) : TcpBytes buf s where
  srcPort := (half_congr fun k hk => hbytes _ (by omega) (by omega)).trans h.srcPort
  dstPort := (half_congr fun k hk => hbytes _ (by omega) (by omega)).trans h.dstPort
  seq := (word_congr fun k hk => hbytes _ (by omega) (by omega)).trans h.seq
  ack := (word_congr fun k hk => hbytes _ (by omega) (by omega)).trans h.ack
  off := (hbytes _ (by omega) (by omega)).trans h.off
  flags := (hbytes _ (by omega) (by omega)).trans h.flags
  payload := fun i hi => (hbytes _ (by omega) (by omega)).trans (h.payload i hi)

/-- The frame of a segment, with its checksum. -/
theorem TcpBytes.checksum {s : TcpSegment} (h : TcpBytes m s) :
    TcpBytes (putHalf m 50 v) s where
  srcPort := (half_put_half_other (by omega)).trans h.srcPort
  dstPort := (half_put_half_other (by omega)).trans h.dstPort
  seq := (word_put_half_other (by omega)).trans h.seq
  ack := (word_put_half_other (by omega)).trans h.ack
  off := (write_half_outside (by omega)).trans h.off
  flags := (write_half_outside (by omega)).trans h.flags
  payload := fun i hi => (write_half_outside (by omega)).trans (h.payload i hi)

/-- The segment that the receiver finds in a frame of `tcp_send`. -/
theorem tcp_packet_extracts {s : TcpSegment} (hfits : 48 + s.length.toNat < 2 ^ 16)
    (h : Ipv4Frame buf m 6#8 s.srcAddress s.dstAddress
      (BitVec.ofNat 32 (28 + s.length.toNat)))
    (hbytes : TcpBytes m s) :
    TcpBytes buf s ∧ (tcpPacket buf).len = s.length ∧
      Transmission.Extracts ⟨.tcp s.seq s.ack s.flags, s.srcAddress, s.dstAddress, s.srcPort,
        s.dstPort, s.data, s.length.toNat⟩ (tcpPacket buf).packet := by
  have hbuf : TcpBytes buf s := by
    refine hbytes.carried fun i hlow hhigh => h.rest i hlow ?_
    rw [BitVec.toNat_ofNat]
    omega
  have hoff : (tcpPacket buf).dataOffset = 28 := by
    show (buf 46 >>> 4).toNat * 4 = 28
    rw [hbuf.off]
    rfl
  have hlen : (tcpPacket buf).len = s.length := by
    show (htons (half buf 16)).setWidth 32 - 20#32 - BitVec.ofNat 32 (tcpPacket buf).dataOffset =
      s.length
    rw [hoff, h.len, payload_len 28 _ (by omega), BitVec.ofNat_toNat, BitVec.setWidth_eq]
  refine ⟨hbuf, hlen, ?_⟩
  constructor
  case protocol => rfl
  case addresses => exact ⟨h.src, h.dst⟩
  case ports =>
      show htons (half buf 34) = s.srcPort ∧ htons (half buf 36) = s.dstPort
      rw [hbuf.srcPort, hbuf.dstPort, htons_htons, htons_htons]
      exact ⟨rfl, rfl⟩
  case length =>
      show (tcpPacket buf).len.toNat = s.length.toNat
      rw [hlen]
  case payload =>
      intro i hi
      show buf (34 + ((tcpPacket buf).dataOffset + i)) = s.data i
      rw [hoff, ← hbuf.payload i hi]
      congr 1
      omega

/-! ### The round trip -/

/-- What `handler_ethernet_package_received` does with one IPv4 frame. -/
theorem handler_frame_ipv4 (hcarries : prd.Carries buf frame)
    (htype : half buf 12 = htons etIpv4) (s : Stack) :
    handlerFrame prd s = s.deliver (handlerIpv4 buf s.net) := by
  have hskip : prd.skipped = false := by
    simp [Descriptor.skipped, hcarries.filled, hcarries.ready, hcarries.size]
  simp only [handlerFrame, hskip, hcarries.filled, htype, htons_htons, Bool.false_eq_true,
    if_false, if_true]
  exact if_neg (by decide)

/-- A batch of one frame. -/
theorem handler_one_frame (hcount : prd.count.toInt ≤ 1) (s : Stack)
    (honline : s.eth.isOnline ≠ 0#8) :
    handlerEthernetPackageReceived (some fun _ => prd) s = handlerFrame prd s := by
  have hmax : max 1 prd.count.toInt.toNat = 1 := by omega
  simp only [handlerEthernetPackageReceived, honline, if_false, hmax, handlerLoop]
  cases handlerFrame prd s with
  | none => rfl
  | some s => rfl

/-- `udp_send` puts one frame on the wire, and it is received as the datagram. -/
theorem udp_send_outcome {srcAddress dstAddress : BitVec 32} {srcPort dstPort : BitVec 16}
    {data : Bytes} (hfits : 28 + n < 2 ^ 16)
    (hsend : udpSend sleeps m srcAddress dstAddress srcPort dstPort data n eth = some (w, eth'))
    (henabled : eth.isEnabled ≠ 0#8) :
    ∃ frame sent, eth'.sent = frame :: sent ∧ ∀ prd buf, Descriptor.Carries prd buf frame →
      half buf 12 = htons etIpv4 ∧
        Transmission.Extracts ⟨.udp, srcAddress, dstAddress, srcPort, dstPort, data, n⟩
          (udpPacket buf) ∧
        ∀ net, handlerIpv4 buf net = (some (udpPacket buf), net) := by
  simp only [udpSend, Option.bind_eq_bind, Option.bind_eq_some_iff, Option.pure_def,
    Option.some.injEq, Prod.mk.injEq] at hsend
  obtain ⟨_, hipv4, _, rfl⟩ := hsend
  obtain ⟨frame, sent, hsent, hsize, hframe⟩ := ipv4_send_frame hipv4 henabled
  refine ⟨frame, sent, hsent, fun prd buf hcarries => ?_⟩
  have hbuf := hframe.carried
    (by rw [hsize, BitVec.toNat_ofNat, BitVec.toNat_ofNat]; omega) hcarries.bytes
  refine ⟨hbuf.type, udp_packet_extracts hfits hbuf, fun net => ?_⟩
  unfold handlerIpv4
  rw [hbuf.protocol]
  rfl

/-- `tcp_send` puts one frame on the wire, and it is received as the segment. -/
theorem tcp_send_outcome {s : TcpSegment} (hfits : 48 + s.length.toNat < 2 ^ 16)
    (hsend : Wire.tcpSend sleeps m s eth = some (w, eth')) (henabled : eth.isEnabled ≠ 0#8) :
    ∃ frame sent, eth'.sent = frame :: sent ∧ ∀ prd buf, Descriptor.Carries prd buf frame →
      half buf 12 = htons etIpv4 ∧ TcpBytes buf s ∧ (tcpPacket buf).len = s.length ∧
        Transmission.Extracts ⟨.tcp s.seq s.ack s.flags, s.srcAddress, s.dstAddress, s.srcPort,
          s.dstPort, s.data, s.length.toNat⟩ (tcpPacket buf).packet ∧
        ∀ net, handlerIpv4 buf net = handlerTcp (tcpPacket buf) net := by
  obtain ⟨hbytes, hend⟩ := tcp_package_bytes m s
  simp only [Wire.tcpSend, hend, Option.bind_eq_bind, Option.bind_eq_some_iff, Option.pure_def,
    Option.some.injEq, Prod.mk.injEq] at hsend
  obtain ⟨_, hipv4, _, rfl⟩ := hsend
  obtain ⟨frame, sent, hsent, hsize, hframe⟩ := ipv4_send_frame hipv4 henabled
  refine ⟨frame, sent, hsent, fun prd buf hcarries => ?_⟩
  have hbuf := hframe.carried
    (by rw [hsize, BitVec.toNat_ofNat, BitVec.toNat_ofNat]; omega) hcarries.bytes
  obtain ⟨hfields, hlen, hextracts⟩ := tcp_packet_extracts hfits hbuf hbytes.checksum
  refine ⟨hbuf.type, hfields, hlen, hextracts, fun net => ?_⟩
  unfold handlerIpv4
  rw [hbuf.protocol]
  rfl

/-- A frame of a transmission is received as the values the sender was given. -/
theorem transmission_outcome (hfits : t.Fits)
    (hsend : t.send sleeps m eth = some (w, eth')) (henabled : eth.isEnabled ≠ 0#8) :
    ∃ frame sent, eth'.sent = frame :: sent ∧
      ∀ prd buf, Descriptor.Carries prd buf frame → half buf 12 = htons etIpv4 ∧
        ∃ p, t.Extracts p ∧ ∀ net, handlerIpv4 buf net = t.outcome p net := by
  obtain ⟨transport, srcAddress, dstAddress, srcPort, dstPort, data, length⟩ := t
  cases transport with
  | udp =>
      obtain ⟨frame, sent, hsent, hreceived⟩ := udp_send_outcome hfits hsend henabled
      refine ⟨frame, sent, hsent, fun prd buf hcarries => ?_⟩
      obtain ⟨htype, hextracts, houtcome⟩ := hreceived prd buf hcarries
      exact ⟨htype, udpPacket buf, hextracts, houtcome⟩
  | tcp seq ack flags =>
      have hsmall : 48 + length < 2 ^ 16 := hfits
      have hlength : (BitVec.ofNat 32 length).toNat = length := by
        rw [BitVec.toNat_ofNat]
        omega
      obtain ⟨frame, sent, hsent, hreceived⟩ :=
        tcp_send_outcome (by simp only [hlength]; exact hfits) hsend henabled
      refine ⟨frame, sent, hsent, fun prd buf hcarries => ?_⟩
      obtain ⟨htype, hfields, hlen, hextracts, houtcome⟩ := hreceived prd buf hcarries
      simp only [hlength] at hextracts
      refine ⟨htype, (tcpPacket buf).packet, hextracts, fun net => ?_⟩
      have hports : htons (tcpPacket buf).srcPort = srcPort ∧
          htons (tcpPacket buf).dstPort = dstPort := hextracts.ports
      have haddresses : (tcpPacket buf).src = srcAddress ∧ (tcpPacket buf).dst = dstAddress :=
        hextracts.addresses
      have hseq : htonl (tcpPacket buf).seq = seq := by
        rw [show (tcpPacket buf).seq = htonl seq from hfields.seq, htonl_htonl]
      have hack : htonl (tcpPacket buf).ack = ack := by
        rw [show (tcpPacket buf).ack = htonl ack from hfields.ack, htonl_htonl]
      have hflags : (tcpPacket buf).flags = flags := hfields.flags
      rw [houtcome]
      simp only [handlerTcp, TcpPacket.acknowledged, TcpPacket.callAck, Transmission.outcome,
        hports, haddresses, hseq, hack, hflags, hlen, decide_eq_true_eq]

/-- Datagram encode/decode round trip: when `udp_send` or `tcp_send` returns, with the device
enabled, it has put one frame on the wire. Wherever a receive buffer carries that frame in a batch
of `handler_ethernet_package_received`, the protocol, the addresses, the port numbers, the length
and the bytes of the payload that are extracted are those the sender was given, and the packet is
treated as these values say. -/
theorem datagram_round_trip (t : Transmission) (hfits : t.Fits) (sleeps : List (Nat → ArpCache))
    (heap : Bytes) (eth eth' : Ethernet) (result : BitVec 32)
    (hsend : t.send sleeps heap eth = some (result, eth')) (henabled : eth.isEnabled ≠ 0#8) :
    ∃ frame sent, eth'.sent = frame :: sent ∧
      ∀ prd buf, Descriptor.Carries prd buf frame → ∃ p, t.Extracts p ∧
        (∀ s, handlerFrame prd s = s.deliver (t.outcome p s.net)) ∧
        ∀ s : Stack, s.eth.isOnline ≠ 0#8 → prd.count.toInt ≤ 1 →
          handlerEthernetPackageReceived (some fun _ => prd) s =
            s.deliver (t.outcome p s.net) := by
  obtain ⟨frame, sent, hsent, hreceived⟩ := transmission_outcome hfits hsend henabled
  refine ⟨frame, sent, hsent, fun prd buf hcarries => ?_⟩
  obtain ⟨htype, p, hextracts, houtcome⟩ := hreceived prd buf hcarries
  have hframe : ∀ s, handlerFrame prd s = s.deliver (t.outcome p s.net) := by
    intro s
    rw [handler_frame_ipv4 hcarries htype, houtcome]
  refine ⟨p, hextracts, hframe, fun s honline hcount => ?_⟩
  rw [handler_one_frame hcount s honline, hframe]

/-- A card that is enabled, on a host that has sent nothing. -/
def freshEthernet : Ethernet where
  mac := fun _ => 0x52#8
  isEnabled := 1#8
  isOnline := 1#8
  yourIp := fun _ => 10#8
  routerIp := fun _ => 1#8
  arpCache := fun _ => ⟨fun _ => 0#8, fun _ => 0#8⟩
  ipv4Count := 0#32
  sent := []

/-- A broadcast datagram with one byte from port 68 to port 67. -/
def broadcastByte : Transmission where
  transport := .udp
  srcAddress := 0#32
  dstAddress := 0xffffffff#32
  srcPort := 68#16
  dstPort := 67#16
  data := fun _ => 7#8
  length := 1

theorem datagram_round_trip_broadcast :
    ∃ eth', broadcastByte.send [] noData freshEthernet = some (1#32, eth') ∧
      ∃ frame sent, eth'.sent = frame :: sent ∧
        ∀ prd buf, Descriptor.Carries prd buf frame → ∃ p, broadcastByte.Extracts p ∧
          (∀ s, handlerFrame prd s = s.deliver (broadcastByte.outcome p s.net)) ∧
          ∀ s : Stack, s.eth.isOnline ≠ 0#8 → prd.count.toInt ≤ 1 →
            handlerEthernetPackageReceived (some fun _ => prd) s =
              s.deliver (broadcastByte.outcome p s.net) :=
  ⟨_, rfl, datagram_round_trip broadcastByte (by unfold Transmission.Fits; decide) [] noData
    freshEthernet _ 1#32 rfl (by decide)⟩

end Sirius.Net
