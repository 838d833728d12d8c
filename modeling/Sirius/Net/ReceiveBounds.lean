import Sirius.Net.Ethernet
import Sirius.Net.TcpReceive

/-!
# The length of a received payload

`handler_ethernet_package_received` computes the length of a payload from the length field of the
IPv4 header and, for TCP, from the data offset. Neither is compared with the number of bytes that
were received or with the size of a socket buffer before the length reaches `memcpy`. `frameCopies`
follows the calls of `memcpy` that a frame leads to; they are in bounds exactly when the header
fields are.
-/

namespace Sirius.Net

open Library

/-- A call of `memcpy` out of a frame: where the payload starts in the frame and its length. -/
structure Memcpy where
  start : Nat
  length : BitVec 32
  deriving DecidableEq

/-- `SOCKET_BUF_SIZE` -/
def socketBufSize : Nat := 8192

/-- `if(length) memcpy(..)`: the lengths that are copied. -/
def Packet.copies (p : Packet) : List Nat := if p.length = 0 then [] else [p.length]

/-- The lengths that `socket_save_row` passes to `memcpy`. -/
def saveRowCopies (p : Packet) (net : Sockets) : List Nat :=
  if (net.socktReceiveRow net.rowCur).status ≠ 0#8 then [] else p.copies

/-- The lengths that the loop of `socket_server_receive` passes to `memcpy`. -/
def receiveCopies (origem : Nat) (p : Packet) : List Socket → Sockets → List Nat
  | [], _ => []
  | saddr :: next, net =>
      if saddr.accepts p.destPort ∧ saddr.full = false then p.copies
      else
        (if saddr.accepts p.destPort ∧ origem = 0 then saveRowCopies p net else []) ++
          match saveIfFull origem saddr p net with
          | none => []
          | some net => receiveCopies origem p next net

/-- The number of bytes in front of the payload, counted from the end of the IPv4 header. -/
def headerBytes (buf : Bytes) : Nat :=
  if (buf 23).toNat = ipProtocolTcp then (buf 46 >>> 4).toNat * 4 else 8

/-- The calls of `memcpy` while a frame is handled. -/
def frameCopies (prd : Descriptor) (s : Stack) : List Memcpy :=
  if prd.skipped then []
  else match prd.buf with
    | none => []
    | some buf =>
        if htons (half buf 12) = etIpv4 then
          match (handlerIpv4 buf s.net).1 with
          | none => []
          | some p =>
              (receiveCopies 0 p s.sockets.sockets s.sockets).map fun length =>
                ⟨34 + headerBytes buf, BitVec.ofNat 32 length⟩
        else []

/-- The copy reads received bytes only and fits into the buffer of a socket. -/
structure Memcpy.Safe (c : Memcpy) (prd : Descriptor) : Prop where
  nonneg : 0 ≤ c.length.toInt
  received : c.length.toNat ≤ prd.buffersize.toNat - c.start
  room : c.length.toNat ≤ socketBufSize

/-! ### When a frame is copied -/

/-- The first socket bound to the port is empty, or there is a row to save its packet in. -/
def Sockets.Takes (net : Sockets) (port : BitVec 16) : Prop :=
  ∃ saddr, net.sockets.find? (Socket.accepts port) = some saddr ∧
    (saddr.full = false ∨ (net.socktReceiveRow net.rowCur).status = 0#8)

/-- The packet is a UDP datagram, or a TCP segment that is new to a connection and not a FIN. -/
def Dispatched (buf : Bytes) (net : TcpTable) : Prop :=
  (buf 23).toNat = ipProtocolUdp ∨
    (buf 23).toNat = ipProtocolTcp ∧ (∃ i, Accepts net (tcpPacket buf) i) ∧
      buf 47 &&& tcpFlagFin = 0#8

/-- The total length of the IPv4 packet, as its header has it. -/
def totalLength (buf : Bytes) : Nat := (htons (half buf 16)).toNat

/-- The frame has a payload that reaches a socket or the table of saved packets. -/
structure Reaches (prd : Descriptor) (buf : Bytes) (s : Stack) : Prop where
  seen : prd.skipped = false
  type : htons (half buf 12) = etIpv4
  dispatched : Dispatched buf s.net
  takes : s.sockets.Takes (half buf 36)
  payload : totalLength buf ≠ 20 + headerBytes buf

/-- The total length covers the headers, ends inside the frame and leaves a payload that fits into
the buffer of a socket. -/
structure WellSized (prd : Descriptor) (buf : Bytes) : Prop where
  headers : 20 + headerBytes buf ≤ totalLength buf
  received : 14 + totalLength buf ≤ prd.buffersize.toNat
  room : totalLength buf ≤ 20 + headerBytes buf + socketBufSize

variable {origem : Nat} {p : Packet} {net : Sockets} {sockets : List Socket} {buf : Bytes}
  {prd : Descriptor} {s : Stack} {table : TcpTable}

/-! ### The calls of `memcpy` -/

theorem copies_length {n : Nat} (h : n ∈ p.copies) : n = p.length ∧ p.length ≠ 0 := by
  unfold Packet.copies at h
  split at h
  case isTrue => cases h
  case isFalse hlength => exact ⟨List.mem_singleton.mp h, hlength⟩

theorem save_row_copies_length {n : Nat} (h : n ∈ saveRowCopies p net) :
    n = p.length ∧ p.length ≠ 0 := by
  unfold saveRowCopies at h
  split at h
  case isTrue => cases h
  case isFalse => exact copies_length h

/-- Every `memcpy` gets the length of the packet, which is not zero. -/
theorem receive_copies_length {n : Nat} (h : n ∈ receiveCopies origem p sockets net) :
    n = p.length ∧ p.length ≠ 0 := by
  induction sockets generalizing net with
  | nil => cases h
  | cons saddr next ih =>
      unfold receiveCopies at h
      split at h
      case isTrue => exact copies_length h
      case isFalse =>
          cases List.mem_append.mp h with
          | inl hsaved =>
              split at hsaved
              case isTrue => exact save_row_copies_length hsaved
              case isFalse => cases hsaved
          | inr hnext =>
              split at hnext
              case h_1 => cases hnext
              case h_2 net' _ => exact ih hnext

/-- There is a `memcpy` when the first socket bound to the port is empty or a row is free. -/
theorem receive_copies_ne_nil (sockets : List Socket) :
    receiveCopies 0 p sockets net ≠ [] ↔
      p.length ≠ 0 ∧ ∃ saddr, sockets.find? (Socket.accepts p.destPort) = some saddr ∧
        (saddr.full = false ∨ (net.socktReceiveRow net.rowCur).status = 0#8) := by
  by_cases hlength : p.length = 0
  case pos =>
      constructor
      · intro h
        obtain ⟨n, hn⟩ := List.exists_mem_of_ne_nil _ h
        exact absurd hlength (receive_copies_length hn).2
      · intro h
        exact absurd hlength h.1
  have hcopies : p.copies = [p.length] := if_neg hlength
  induction sockets with
  | nil => simp [receiveCopies]
  | cons saddr next ih =>
      by_cases haccepts : saddr.accepts p.destPort = true
      · rw [List.find?_cons_of_pos haccepts]
        by_cases hfull : saddr.full = false
        · simp [receiveCopies, haccepts, hfull, hcopies, hlength]
        · by_cases hrow : (net.socktReceiveRow net.rowCur).status = 0#8
          · simp [receiveCopies, haccepts, hfull, saveRowCopies, hrow, hcopies, hlength]
          · simp [receiveCopies, haccepts, hfull, saveRowCopies, hrow, saveIfFull, socketSaveRow]
      · rw [List.find?_cons_of_neg haccepts]
        refine Iff.trans ?_ ih
        simp [receiveCopies, haccepts, saveIfFull]

/-! ### When a frame is copied -/

/-- What is passed to `socket_server_receive`, and when. -/
theorem handler_ipv4_passed (buf : Bytes) (table : TcpTable) :
    (handlerIpv4 buf table).1 =
      if (buf 23).toNat = ipProtocolTcp then (handlerTcp (tcpPacket buf) table).1
      else if (buf 23).toNat = ipProtocolUdp then some (udpPacket buf) else none := by
  unfold handlerIpv4
  split
  case isTrue => rfl
  case isFalse =>
      split
      case isTrue => rfl
      case isFalse => rfl

/-- The length that the handler computes, and the port it looks for. -/
theorem handler_ipv4_packet (h : (handlerIpv4 buf table).1 = some p) :
    p.length = (BitVec.ofNat 32 (totalLength buf) - 20#32 -
      BitVec.ofNat 32 (headerBytes buf)).toNat ∧ p.destPort = half buf 36 := by
  have htotal : (htons (half buf 16)).setWidth 32 = BitVec.ofNat 32 (totalLength buf) := by
    apply BitVec.eq_of_toNat_eq
    simp only [totalLength, BitVec.toNat_setWidth, BitVec.toNat_ofNat]
  rw [handler_ipv4_passed] at h
  unfold headerBytes
  rw [← htotal]
  split at h
  case isTrue htcp =>
      simp only [htcp, if_true]
      cases handler_tcp_cases (tcpPacket buf) table with
      | inl hcase => simp [hcase.1] at h
      | inr hcase =>
          obtain ⟨i, _, _, hcase⟩ := hcase
          split at hcase
          case isTrue => simp [hcase.1] at h
          case isFalse =>
              rw [hcase.1] at h
              cases h
              exact ⟨rfl, rfl⟩
  case isFalse htcp =>
      simp only [htcp, if_false]
      split at h
      case isTrue =>
          cases h
          exact ⟨rfl, rfl⟩
      case isFalse => cases h

theorem handler_ipv4_some : (∃ p, (handlerIpv4 buf table).1 = some p) ↔ Dispatched buf table := by
  rw [handler_ipv4_passed]
  unfold Dispatched
  by_cases htcp : (buf 23).toNat = ipProtocolTcp
  · have hother : ipProtocolTcp ≠ ipProtocolUdp := by decide
    simp only [htcp, if_true, hother, false_or, true_and]
    cases handler_tcp_cases (tcpPacket buf) table with
    | inl hcase =>
        constructor
        · rintro ⟨p, hp⟩
          rw [hcase.1] at hp
          cases hp
        · rintro ⟨⟨i, haccepts⟩, _⟩
          exact absurd haccepts (hcase.2.1 i)
    | inr hcase =>
        obtain ⟨i, haccepts, _, hcase⟩ := hcase
        split at hcase
        case isTrue hfin =>
            constructor
            · rintro ⟨p, hp⟩
              rw [hcase.1] at hp
              cases hp
            · rintro ⟨_, hnofin⟩
              exact absurd hnofin hfin
        case isFalse hfin =>
            constructor
            · intro _
              exact ⟨⟨i, haccepts⟩, not_not.mp hfin⟩
            · intro _
              exact ⟨_, hcase.1⟩
  · simp only [htcp, if_false, false_and, or_false]
    by_cases hudp : (buf 23).toNat = ipProtocolUdp
    · simp [hudp]
    · simp [hudp]

theorem header_bytes_le (buf : Bytes) : headerBytes buf ≤ 60 := by
  unfold headerBytes
  split
  case isTrue =>
      have h := (buf 46).isLt
      rw [BitVec.toNat_ushiftRight, Nat.shiftRight_eq_div_pow]
      omega
  case isFalse => omega

/-- The length that the handler computes, as the number `memcpy` takes. -/
theorem payload_length_to_nat (buf : Bytes) :
    (BitVec.ofNat 32 (totalLength buf) - 20#32 - BitVec.ofNat 32 (headerBytes buf)).toNat =
      if 20 + headerBytes buf ≤ totalLength buf then totalLength buf - 20 - headerBytes buf
      else 2 ^ 32 + totalLength buf - 20 - headerBytes buf := by
  have hheader := header_bytes_le buf
  have htotal : totalLength buf < 2 ^ 16 := (htons (half buf 16)).isLt
  simp only [BitVec.toNat_sub, BitVec.toNat_ofNat]
  split
  case isTrue => omega
  case isFalse => omega

/-- The calls of `memcpy` for a frame: there is one exactly when the frame reaches a socket or the
table, and each gets the length that the handler computed. -/
theorem frame_copies_spec (hbuf : prd.buf = some buf) :
    (frameCopies prd s ≠ [] ↔ Reaches prd buf s) ∧
      ∀ c ∈ frameCopies prd s, c = ⟨34 + headerBytes buf,
        BitVec.ofNat 32 (totalLength buf) - 20#32 - BitVec.ofNat 32 (headerBytes buf)⟩ := by
  unfold frameCopies
  simp only [hbuf]
  by_cases hseen : prd.skipped = true
  · simp only [hseen, if_true, ne_eq, not_true_eq_false, false_iff]
    refine ⟨fun h => ?_, fun c hc => by cases hc⟩
    exact absurd hseen (by simp [h.seen])
  rw [Bool.not_eq_true] at hseen
  by_cases htype : htons (half buf 12) = etIpv4
  case neg =>
      simp only [hseen, htype, Bool.false_eq_true, if_false, ne_eq, not_true_eq_false, false_iff]
      exact ⟨fun h => htype h.type, fun c hc => by cases hc⟩
  simp only [hseen, htype, Bool.false_eq_true, if_false, if_true]
  cases hpassed : (handlerIpv4 buf s.net).1 with
  | none =>
      simp only [ne_eq, not_true_eq_false, false_iff]
      refine ⟨fun h => ?_, fun c hc => by cases hc⟩
      obtain ⟨p, hp⟩ := handler_ipv4_some.mpr h.dispatched
      rw [hpassed] at hp
      cases hp
  | some p =>
      obtain ⟨hlength, hport⟩ := handler_ipv4_packet hpassed
      have hpayload : p.length ≠ 0 ↔ totalLength buf ≠ 20 + headerBytes buf := by
        have htotal : totalLength buf < 2 ^ 16 := (htons (half buf 16)).isLt
        rw [hlength, payload_length_to_nat]
        split
        case isTrue => omega
        case isFalse =>
            have hheader := header_bytes_le buf
            omega
      constructor
      · rw [ne_eq, List.map_eq_nil_iff, ← ne_eq, receive_copies_ne_nil, hport, hpayload]
        constructor
        · rintro ⟨hne, htakes⟩
          exact ⟨hseen, htype, handler_ipv4_some.mp ⟨p, hpassed⟩, htakes, hne⟩
        · intro h
          exact ⟨h.payload, h.takes⟩
      · intro c hc
        obtain ⟨n, hn, rfl⟩ := List.mem_map.mp hc
        rw [(receive_copies_length hn).1, hlength, BitVec.ofNat_toNat, BitVec.setWidth_eq]

/-- A length computed without a check is in bounds exactly when the header fields are. -/
theorem safe_iff_well_sized (h : totalLength buf ≠ 20 + headerBytes buf) :
    Memcpy.Safe ⟨34 + headerBytes buf,
        BitVec.ofNat 32 (totalLength buf) - 20#32 - BitVec.ofNat 32 (headerBytes buf)⟩ prd ↔
      WellSized prd buf := by
  have hlength := payload_length_to_nat buf
  have hheader := header_bytes_le buf
  have htotal : totalLength buf < 2 ^ 16 := (htons (half buf 16)).isLt
  constructor
  · rintro ⟨hnonneg, hreceived, hroom⟩
    have hheaders : 20 + headerBytes buf ≤ totalLength buf := by
      by_contra hshort
      rw [BitVec.toInt_eq_toNat_cond] at hnonneg
      rw [if_neg hshort] at hlength
      simp only [hlength] at hnonneg
      split at hnonneg
      case isTrue hsmall => omega
      case isFalse => omega
    simp only [hlength, if_pos hheaders] at hreceived hroom
    exact ⟨hheaders, by omega, by omega⟩
  · rintro ⟨hheaders, hreceived, hroom⟩
    rw [if_pos hheaders] at hlength
    refine ⟨?_, ?_, ?_⟩
    · show 0 ≤ BitVec.toInt _
      rw [BitVec.toInt_eq_toNat_cond, hlength]
      split
      case isTrue => omega
      case isFalse => omega
    · show BitVec.toNat _ ≤ _
      rw [hlength]
      show _ ≤ prd.buffersize.toNat - (34 + headerBytes buf)
      omega
    · show BitVec.toNat _ ≤ _
      rw [hlength]
      omega

/-- Receive length safety, with the condition under which it holds: for every frame of any content
and any received length, and in every state of the network stack, the lengths passed to `memcpy`
are non-negative, at most the number of bytes received after the start of the payload and at most
the size of a socket buffer if and only if the frame does not reach a socket or the table of saved
packets, or its header fields are well sized. -/
theorem receive_length_safety (prd : Descriptor) (buf : Bytes) (s : Stack)
    (hbuf : prd.buf = some buf) :
    (∀ c ∈ frameCopies prd s, c.Safe prd) ↔ (Reaches prd buf s → WellSized prd buf) := by
  obtain ⟨hsome, hall⟩ := frame_copies_spec (s := s) hbuf
  constructor
  · intro hsafe hreaches
    obtain ⟨c, hc⟩ := List.exists_mem_of_ne_nil _ (hsome.mpr hreaches)
    rw [← safe_iff_well_sized hreaches.payload, ← hall c hc]
    exact hsafe c hc
  · intro hsized c hc
    have hreaches := hsome.mp (List.ne_nil_of_mem hc)
    rw [hall c hc]
    exact (safe_iff_well_sized hreaches.payload).mpr (hsized hreaches)

/-- A UDP packet for port 7 whose IPv4 header gives a total length. -/
def frameOfLength (total : BitVec 16) : Bytes :=
  let buf := putHalf noData 12 (htons etIpv4)
  let buf := putHalf buf 16 (htons total)
  let buf := Function.update buf 23 17#8
  putHalf buf 36 (htons 7#16)

/-- The frame, received with 60 bytes. -/
def descriptorOfLength (total : BitVec 16) : Descriptor :=
  { flag := 0#32, count := 1#32, buffersize := 60#32, buf := some (frameOfLength total) }

/-- A host with one socket, which is bound to port 7 and empty. -/
def stackSeven : Stack where
  eth := ⟨fun _ => 0#8, 1#8, 1#8, fun _ => 0#8, fun _ => 0#8,
    fun _ => ⟨fun _ => 0#8, fun _ => 0#8⟩, 0#32, []⟩
  net := ⟨fun _ => ⟨0#32, 0#32, 0#16, 0#16, 0#32, 0#32, 0#32, 0#8, 0#8, 0#8⟩, []⟩
  sockets :=
    { sockets := [⟨1, afInet, htons 7#16, 0#16, 0#32, 0#8, 0x80#8, 0, noData⟩]
      socktReceiveRow := fun _ => ⟨0#8, ⟨0, 0#32, 0#32, 0#16, 0#16, noData, 0, 0#32, 0#32, 0#8⟩⟩
      rowCur := 0 }

/-- A datagram of ten bytes is copied inside its bounds. -/
theorem receive_length_safety_ten :
    (descriptorOfLength 38#16).buf = some (frameOfLength 38#16) ∧
      ((∀ c ∈ frameCopies (descriptorOfLength 38#16) stackSeven,
          c.Safe (descriptorOfLength 38#16)) ↔
        (Reaches (descriptorOfLength 38#16) (frameOfLength 38#16) stackSeven →
          WellSized (descriptorOfLength 38#16) (frameOfLength 38#16))) :=
  ⟨rfl, receive_length_safety (descriptorOfLength 38#16) (frameOfLength 38#16) stackSeven rfl⟩

/-- A total length of 20, which does not cover the UDP header, has 4294967288 bytes copied. -/
theorem udp_length_negative : ¬ ∀ (prd : Descriptor) (s : Stack),
    ∀ c ∈ frameCopies prd s, c.Safe prd := by
  intro h
  have hcopies : frameCopies (descriptorOfLength 20#16) stackSeven = [⟨42, 0xfffffff8#32⟩] := by
    decide +kernel
  have hsafe := h (descriptorOfLength 20#16) stackSeven ⟨42, 0xfffffff8#32⟩ (by
    rw [hcopies]
    exact List.mem_singleton_self _)
  have hroom : (0xfffffff8#32).toNat ≤ socketBufSize := hsafe.room
  exact absurd hroom (by decide)

end Sirius.Net
