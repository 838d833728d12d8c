import Sirius.Library.OnesComplement
import Sirius.Net.RoundTrip

/-!
# Checksums verify

`net_checksum` adds up little-endian words in a 32-bit accumulator, adds the carries back twice and
exchanges the bytes of the complement. This is the internet checksum of the bytes as big-endian
words (`net_checksum_eq`). The senders compute it with the checksum field set to zero and store it
in network order, after which the sum over the same bytes is 0xFFFF (`stored_checksum_verifies`).
-/

namespace Sirius.Net

open Library

/-- The bytes of the pseudo header, if there is one. -/
def pseudoBytes : Option (Bytes × Nat) → List Byte
  | none => []
  | some (phdr, phdrLen) => slice phdr 0 phdrLen

/-- The pseudo header as a receiver forms it from the IPv4 header at 14. -/
def pseudoHeader (buf : Bytes) (len : Nat) : List Byte :=
  slice buf 26 8 ++ [0#8, buf 23, BitVec.ofNat 8 (len / 2 ^ 8), BitVec.ofNat 8 len]

variable {m m' buf : Bytes} {a b n start len p : Nat} {v : BitVec 16} {phdr : Option (Bytes × Nat)}
  {eth eth' : Ethernet} {sleeps : List (Nat → ArpCache)}

/-! ### Words in memory -/

theorem slice_succ (m : Bytes) (start len : Nat) :
    slice m start (len + 1) = m start :: slice m (start + 1) len := by
  rw [Nat.add_comm, slice_add]
  rfl

theorem half_to_nat (m : Bytes) (a : Nat) :
    (half m a).toNat = (m a).toNat + 2 ^ 8 * (m (a + 1)).toNat := by
  have hlow := (m a).isLt
  have hhigh := (m (a + 1)).isLt
  rw [half, readHalf, BitVec.toNat_ofNat]
  omega

theorem htons_to_nat (nb : BitVec 16) : (htons nb).toNat = swapBytes nb.toNat := by
  have hnb := nb.isLt
  have hlow : nb.toNat / 2 ^ 8 < 2 ^ 8 := by omega
  have hshift : (nb <<< 8).toNat = (nb.toNat % 2 ^ 8) <<< 8 := by
    rw [BitVec.toNat_shiftLeft, Nat.shiftLeft_eq, Nat.shiftLeft_eq]
    omega
  rw [htons, BitVec.or_comm, BitVec.toNat_or, hshift, BitVec.toNat_ushiftRight,
    Nat.shiftRight_eq_div_pow, ← Nat.shiftLeft_add_eq_or_of_lt hlow, Nat.shiftLeft_eq, swapBytes]
  omega

/-- The words of an even number of bytes, added in 32 bits without an overflow. -/
theorem sum_words_to_nat (m : Bytes) (len p : Nat) (checksum : BitVec 32)
    (hfits : checksum.toNat + (littleWords (slice m p (len / 2 * 2))).sum < 2 ^ 32) :
    (sumWords m len p checksum).toNat =
      checksum.toNat + (littleWords (slice m p (len / 2 * 2))).sum := by
  induction len, p, checksum using sumWords.induct (m := m) with
  | case1 len p checksum ih =>
      have hlen : (len + 2) / 2 * 2 = len / 2 * 2 + 1 + 1 := by omega
      have hwords : (littleWords (slice m p ((len + 2) / 2 * 2))).sum =
          (half m p).toNat + (littleWords (slice m (p + 2) (len / 2 * 2))).sum := by
        rw [hlen, slice_succ, slice_succ, littleWords, List.sum_cons, half_to_nat]
      rw [hwords] at hfits ⊢
      have hstep : (checksum + (half m p).setWidth 32).toNat =
          checksum.toNat + (half m p).toNat := by
        have hhalf := (half m p).isLt
        rw [BitVec.toNat_add, BitVec.toNat_setWidth]
        omega
      rw [sumWords, ih (by omega), hstep, Nat.add_assoc]
  | case2 len p checksum hshort =>
      have hlen : len / 2 * 2 = 0 := by
        have hlt : len < 2 := by
          by_contra hge
          exact hshort (len - 2) (by omega)
        omega
      have hstop : sumWords m len p checksum = checksum := by
        unfold sumWords
        split
        case h_1 len' => exact absurd rfl (hshort len')
        case h_2 => rfl
      rw [hstop, hlen]
      rfl

/-- All words of the bytes, the odd last one included. -/
theorem little_sum_slice (m : Bytes) (start len : Nat) :
    (littleWords (slice m start len)).sum = (littleWords (slice m start (len / 2 * 2))).sum +
      if len % 2 ≠ 0 then (m (start + len - 1)).toNat else 0 := by
  have hsplit : len = len / 2 * 2 + len % 2 := by omega
  have heven : (slice m start (len / 2 * 2)).length % 2 = 0 := by
    rw [slice_length]
    omega
  conv => lhs; rw [hsplit, slice_add, little_sum_append heven]
  by_cases hodd : len % 2 = 0
  · simp [hodd, slice, littleWords]
  · have hone : len % 2 = 1 := by omega
    have hlast : start + len / 2 * 2 = start + len - 1 := by omega
    simp [hone, slice, littleWords, hlast]

/-! ### The checksum -/

/-- Adding the carries back twice reduces every 32-bit sum. -/
theorem fold_carries {s : Nat} (hs : s < 2 ^ 32) :
    (s % 2 ^ 16 + s / 2 ^ 16 + (s % 2 ^ 16 + s / 2 ^ 16) / 2 ^ 16) % 2 ^ 16 = residue s := by
  have hstep : residue s = residue (s % 2 ^ 16 + s / 2 ^ 16) := residue_congr (by omega) (by omega)
  have hle : s % 2 ^ 16 + s / 2 ^ 16 ≤ 0xffff + 0xffff := by omega
  rw [hstep]
  generalize s % 2 ^ 16 + s / 2 ^ 16 = t at hle ⊢
  rcases Nat.lt_or_ge t (2 ^ 16) with hlow | hhigh
  · rw [residue_of_le (by omega), Nat.div_eq_of_lt hlow, Nat.add_zero, Nat.mod_eq_of_lt hlow]
  · have hcarry : t / 2 ^ 16 = 1 := by omega
    have hsub : (t - 1) % 0xffff = t - 1 - 0xffff := by omega
    rw [hcarry, residue, if_neg (by omega), hsub]
    omega

/-- The end of `net_checksum`, from the sum of the words. -/
theorem finish_to_nat (checksum : BitVec 32) :
    (htons ((~~~((checksum &&& 0xffff#32) + (checksum >>> 16) +
      (((checksum &&& 0xffff#32) + (checksum >>> 16)) >>> 16))).setWidth 16)).toNat =
      0xffff - swapBytes (residue checksum.toNat) := by
  have hlt := checksum.isLt
  have hlow : (checksum &&& 0xffff#32).toNat = checksum.toNat % 2 ^ 16 := by
    rw [BitVec.toNat_and]
    exact Nat.and_two_pow_sub_one_eq_mod _ 16
  have hhigh : (checksum >>> 16).toNat = checksum.toNat / 2 ^ 16 := by
    rw [BitVec.toNat_ushiftRight, Nat.shiftRight_eq_div_pow]
  have hfirst : ((checksum &&& 0xffff#32) + (checksum >>> 16)).toNat =
      checksum.toNat % 2 ^ 16 + checksum.toNat / 2 ^ 16 := by
    rw [BitVec.toNat_add, hlow, hhigh]
    omega
  rw [htons_to_nat, BitVec.toNat_setWidth, BitVec.toNat_not, BitVec.toNat_add,
    BitVec.toNat_ushiftRight, Nat.shiftRight_eq_div_pow, hfirst, ← fold_carries hlt, swapBytes,
    swapBytes]
  omega

/-- The sum over the pseudo header, which ends at a word boundary. -/
theorem pseudo_sum_to_nat (phdr : Bytes) {phdrLen : Nat} (heven : phdrLen % 2 = 0)
    (hlong : phdrLen < 2 ^ 16) :
    (sumWords phdr phdrLen 0 0#32).toNat = (littleWords (slice phdr 0 phdrLen)).sum := by
  have hwhole : phdrLen / 2 * 2 = phdrLen := by omega
  have hbound := little_sum_le (slice phdr 0 phdrLen)
  rw [slice_length] at hbound
  have hsum := sum_words_to_nat phdr phdrLen 0 0#32 (by rw [hwhole, BitVec.toNat_ofNat]; omega)
  rwa [hwhole, BitVec.toNat_ofNat, Nat.zero_mod, Nat.zero_add] at hsum

/-- `net_checksum` is the internet checksum of the pseudo header and the bytes, in host order. -/
theorem net_checksum_eq (hphdr : (pseudoBytes phdr).length % 2 = 0)
    (hlong : (pseudoBytes phdr).length < 2 ^ 16) (hlen : len < 2 ^ 16) :
    (netChecksum phdr m start len).toNat =
      internetChecksum (pseudoBytes phdr ++ slice m start len) := by
  have hpseudo := little_sum_le (pseudoBytes phdr)
  have hbytes := little_sum_le (slice m start len)
  have hslice := little_sum_slice m start len
  rw [slice_length] at hbytes
  -- whatever the pseudo header gave, the sum of all words fits 32 bits
  have htotal : ∀ c : BitVec 32, c.toNat = (littleWords (pseudoBytes phdr)).sum →
      (if len % 2 ≠ 0 then
          sumWords m len start c + (m (start + len - 1)).setWidth 32
        else sumWords m len start c).toNat =
        (littleWords (pseudoBytes phdr ++ slice m start len)).sum := by
    intro c hc
    have hwords := sum_words_to_nat m len start c (by omega)
    rw [little_sum_append hphdr]
    split
    case isTrue hodd =>
        rw [if_pos hodd] at hslice
        have hbyte := (m (start + len - 1)).isLt
        rw [BitVec.toNat_add, BitVec.toNat_setWidth]
        omega
    case isFalse heven =>
        rw [if_neg heven] at hslice
        omega
  rw [internet_checksum_eq, ← little_sum_residue]
  cases phdr with
  | none =>
      rw [← htotal 0#32 rfl]
      exact finish_to_nat _
  | some header =>
      obtain ⟨phdr, phdrLen⟩ := header
      rw [pseudoBytes, slice_length] at hphdr hlong
      rw [← htotal _ (pseudo_sum_to_nat phdr hphdr hlong)]
      exact finish_to_nat _

/-! ### Stored checksums -/

/-- The one's-complement sum over the bytes is 0xFFFF. -/
def Verifies (bytes : List Byte) : Prop := onesSum (bigWords bytes) = 0xffff

/-- Storing a value in a field that was zero adds it to the sum. -/
theorem big_sum_put_half {field : Nat} (hfield : field + 2 ≤ len) (heven : field % 2 = 0)
    (hzero : half m (start + field) = 0#16) (v : BitVec 16) :
    (bigWords (slice (putHalf m (start + field) (htons v)) start len)).sum =
      (bigWords (slice m start len)).sum + v.toNat := by
  obtain ⟨rest, rfl⟩ := Nat.exists_eq_add_of_le hfield
  have hlength : ∀ m : Bytes, (slice m start field).length % 2 = 0 := fun m => by
    rw [slice_length, heven]
  have htwo : ∀ m : Bytes, (bigWords (slice m (start + field) 2)).sum =
      2 ^ 8 * (m (start + field)).toNat + (m (start + field + 1)).toNat := fun _ => rfl
  have hsum : ∀ m : Bytes, (bigWords (slice m start (field + 2 + rest))).sum =
      (bigWords (slice m start field)).sum + (2 ^ 8 * (m (start + field)).toNat +
        (m (start + field + 1)).toNat + (bigWords (slice m (start + field + 2) rest)).sum) := by
    intro m
    rw [Nat.add_assoc, slice_add, big_sum_append (hlength m), slice_add,
      big_sum_append (by rw [slice_length]), htwo]
  have hbefore : slice (putHalf m (start + field) (htons v)) start field = slice m start field :=
    slice_congr fun i hi => write_half_outside (by omega)
  have hbehind : slice (putHalf m (start + field) (htons v)) (start + field + 2) rest =
      slice m (start + field + 2) rest := slice_congr fun i hi => write_half_outside (by omega)
  -- the field as it is in memory
  have hold := half_to_nat m (start + field)
  have hnew := half_to_nat (putHalf m (start + field) (htons v)) (start + field)
  rw [hzero, BitVec.toNat_ofNat] at hold
  rw [half_put_half_same, htons_to_nat, swapBytes] at hnew
  have hlow := (putHalf m (start + field) (htons v) (start + field)).isLt
  have hhigh := (putHalf m (start + field) (htons v) (start + field + 1)).isLt
  have hv := v.isLt
  rw [hsum, hsum, hbefore, hbehind]
  omega

/-- A checksum that was computed with a zero field and stored there in network order verifies. -/
theorem stored_checksum_verifies {field : Nat} (hphdr : (pseudoBytes phdr).length % 2 = 0)
    (hlong : (pseudoBytes phdr).length < 2 ^ 16) (hlen : len < 2 ^ 16)
    (hfield : field + 2 ≤ len) (heven : field % 2 = 0) (hzero : half m (start + field) = 0#16) :
    Verifies (pseudoBytes phdr ++
      slice (putHalf m (start + field) (htons (netChecksum phdr m start len))) start len) := by
  rw [Verifies, ones_sum_eq big_words_le, big_sum_append hphdr,
    big_sum_put_half hfield heven hzero, net_checksum_eq hphdr hlong hlen, internet_checksum_eq,
    big_sum_append hphdr, ← Nat.add_assoc]
  exact residue_complement _

/-! ### The senders -/

/-- The header of every IPv4 packet verifies. -/
theorem ipv4_send_verifies {protocol : Byte} {srcAddress dstAddress length : BitVec 32}
    (h : ipv4Send sleeps m protocol srcAddress dstAddress length eth = some eth')
    (henabled : eth.isEnabled ≠ 0#8) :
    ∃ frame sent, eth'.sent = frame :: sent ∧ Verifies (slice frame.buf 14 20) := by
  obtain ⟨mac, ready, hdr, hhdr, hsent⟩ := ipv4_send_sent h henabled
  refine ⟨_, _, hsent, ?_⟩
  have hzero : half hdr (14 + 10) = 0#16 := by
    rw [hhdr]
    simp (disch := omega) only [ipv4Header, half_put_word_other, half_put_half_same]
  show Verifies (pseudoBytes none ++
    slice (putHalf hdr (14 + 10) (htons (netChecksum none hdr 14 20))) 14 20)
  exact stored_checksum_verifies rfl (by decide) (by decide) (by decide) rfl hzero

/-- A word in memory determines its bytes. -/
theorem word_bytes (h : word m a = word m' b) : ∀ k < 4, m (a + k) = m' (b + k) := by
  have hread : readWord m a = readWord m' b := by
    have hnat := congrArg BitVec.toNat h
    rwa [word, word, BitVec.toNat_ofNat, BitVec.toNat_ofNat, Nat.mod_eq_of_lt read_word_lt,
      Nat.mod_eq_of_lt read_word_lt] at hnat
  have hlt : ∀ k, (m (a + k)).toNat < 2 ^ 8 ∧ (m' (b + k)).toNat < 2 ^ 8 :=
    fun k => ⟨(m (a + k)).isLt, (m' (b + k)).isLt⟩
  have h₀ := hlt 0
  have h₁ := hlt 1
  have h₂ := hlt 2
  have h₃ := hlt 3
  simp only [Nat.add_zero] at h₀
  intro k hk
  apply BitVec.eq_of_toNat_eq
  unfold readWord at hread
  interval_cases k
  · rw [Nat.add_zero, Nat.add_zero]
    omega
  · omega
  · omega
  · omega

/-- The bytes of a 16-bit field in network order. -/
theorem half_bytes (h : half m a = htons v) :
    m a = BitVec.ofNat 8 (v.toNat / 2 ^ 8) ∧ m (a + 1) = BitVec.ofNat 8 v.toNat := by
  have hnat := half_to_nat m a
  have hlow := (m a).isLt
  have hhigh := (m (a + 1)).isLt
  have hv := v.isLt
  rw [h, htons_to_nat, swapBytes] at hnat
  constructor <;> apply BitVec.eq_of_toNat_eq <;> rw [BitVec.toNat_ofNat] <;> omega

/-- The pseudo header of `tcp_send` is the one that the IPv4 header gives. -/
theorem pseudo_bytes_eq {srcAddress dstAddress length : BitVec 32}
    (hlen : len < 2 ^ 16) (h : Ipv4Frame buf m 6#8 srcAddress dstAddress length) :
    pseudoBytes (some (checksumHeader srcAddress dstAddress 6#8 (BitVec.ofNat 16 len), 12)) =
      pseudoHeader buf len := by
  generalize hphdr : checksumHeader srcAddress dstAddress 6#8 (BitVec.ofNat 16 len) = phdr
  have hsrc : word phdr 0 = word buf 26 := by
    rw [h.src, ← hphdr]
    simp (disch := omega) only [checksumHeader, word_put_half_other, word_update_other,
      word_put_word_other, word_put_word_same]
  have hdst : word phdr 4 = word buf 30 := by
    rw [h.dst, ← hphdr]
    simp (disch := omega) only [checksumHeader, word_put_half_other, word_update_other,
      word_put_word_same]
  have hzero : phdr 8 = 0#8 := by
    rw [← hphdr]
    simp (disch := omega) only [checksumHeader, putHalf, write_half_outside, Function.update_of_ne,
      Function.update_self]
  have hprotocol : phdr 9 = buf 23 := by
    rw [h.protocol, ← hphdr]
    simp (disch := omega) only [checksumHeader, putHalf, write_half_outside, Function.update_self]
  have hlength : half phdr 10 = htons (BitVec.ofNat 16 len) := by
    rw [← hphdr]
    exact half_put_half_same
  obtain ⟨hhigh, hlow⟩ := half_bytes hlength
  rw [BitVec.toNat_ofNat, Nat.mod_eq_of_lt hlen] at hhigh hlow
  have haddresses : slice phdr 0 8 = slice buf 26 8 := by
    refine slice_congr fun i hi => ?_
    rcases Nat.lt_or_ge i 4 with hfirst | hsecond
    · exact word_bytes hsrc i hfirst
    · obtain ⟨k, rfl⟩ := Nat.exists_eq_add_of_le hsecond
      rw [← Nat.add_assoc, ← Nat.add_assoc]
      exact word_bytes hdst k (by omega)
  have hrest : slice phdr 8 4 = [phdr 8, phdr 9, phdr 10, phdr 11] := rfl
  rw [pseudoBytes, show (12 : Nat) = 8 + 4 from rfl, slice_add, haddresses, Nat.zero_add, hrest,
    hzero, hprotocol, hhigh, hlow, pseudoHeader]

/-- The checksum field of a segment before the checksum is computed. -/
theorem tcp_package_checksum (m : Bytes) (s : TcpSegment) : half (tcpPackage m s).1 50 = 0#16 := by
  have hhalf : ∀ m : Bytes, half (tcpOptions m 34).1 50 = half m 50 :=
    fun m => half_congr fun k hk => tcp_options_outside m (by omega)
  simp only [tcpPackage, tcp_options_end]
  simp (disch := omega) only [half_copy_other, half_update_other, hhalf, half_put_half_other,
    half_put_half_same]
  rfl

/-- Both headers of every segment verify, the TCP header together with the payload. -/
theorem tcp_send_verifies {s : TcpSegment} {result : BitVec 32}
    (hfits : 28 + s.length.toNat < 2 ^ 16)
    (h : Wire.tcpSend sleeps m s eth = some (result, eth')) (henabled : eth.isEnabled ≠ 0#8) :
    ∃ frame sent, eth'.sent = frame :: sent ∧ Verifies (slice frame.buf 14 20) ∧
      Verifies (pseudoHeader frame.buf (28 + s.length.toNat) ++
        slice frame.buf 34 (28 + s.length.toNat)) := by
  have hend := (tcp_package_bytes m s).2
  simp only [Wire.tcpSend, hend, Option.bind_eq_bind, Option.bind_eq_some_iff, Option.pure_def,
    Option.some.injEq, Prod.mk.injEq] at h
  obtain ⟨_, hipv4, _, rfl⟩ := h
  obtain ⟨frame, sent, hsent, hheader⟩ := ipv4_send_verifies hipv4 henabled
  obtain ⟨frame', sent', hsent', -, hframe⟩ := ipv4_send_frame hipv4 henabled
  obtain ⟨rfl, rfl⟩ := List.cons.inj (hsent.symm.trans hsent')
  refine ⟨frame, sent, hsent, hheader, ?_⟩
  have hlen : (BitVec.ofNat 32 (28 + s.length.toNat)).toNat = 28 + s.length.toNat := by
    rw [BitVec.toNat_ofNat]
    omega
  have hlen' : (BitVec.ofNat 32 (28 + s.length.toNat)).setWidth 16 =
      BitVec.ofNat 16 (28 + s.length.toNat) := by
    apply BitVec.eq_of_toNat_eq
    rw [BitVec.toNat_setWidth, hlen, BitVec.toNat_ofNat]
  rw [hlen, hlen'] at hframe
  rw [slice_congr fun i hi => hframe.rest (34 + i) (by omega) (by omega),
    ← pseudo_bytes_eq hfits hframe]
  have hfield : 16 + 2 ≤ 28 + s.length.toNat := by omega
  have hzero : half (tcpPackage m s).1 (34 + 16) = 0#16 := tcp_package_checksum m s
  have hphdr : ∀ phdr, (pseudoBytes (some (phdr, 12))).length = 12 := fun phdr => slice_length ..
  exact stored_checksum_verifies (by rw [hphdr]) (by rw [hphdr]; decide) hfits hfield rfl hzero

/-- Checksums verify. `net_checksum` is the internet checksum of every sequence of bytes of up to
65535 bytes, with or without a pseudo header; the header of every packet of `ipv4_send` verifies,
and so do the header and the segment of every packet of `tcp_send`. -/
theorem checksums_verify :
    (∀ (phdr : Option (Bytes × Nat)) (m : Bytes) (start len : Nat),
      (pseudoBytes phdr).length % 2 = 0 → (pseudoBytes phdr).length < 2 ^ 16 → len < 2 ^ 16 →
      (netChecksum phdr m start len).toNat =
        internetChecksum (pseudoBytes phdr ++ slice m start len)) ∧
    (∀ (sleeps : List (Nat → ArpCache)) (buf : Bytes) (protocol : Byte)
        (srcAddress dstAddress length : BitVec 32) (eth eth' : Ethernet),
      eth.isEnabled ≠ 0#8 →
      ipv4Send sleeps buf protocol srcAddress dstAddress length eth = some eth' →
      ∃ frame sent, eth'.sent = frame :: sent ∧ Verifies (slice frame.buf 14 20)) ∧
    ∀ (sleeps : List (Nat → ArpCache)) (heap : Bytes) (s : TcpSegment) (eth eth' : Ethernet)
        (result : BitVec 32),
      28 + s.length.toNat < 2 ^ 16 → eth.isEnabled ≠ 0#8 →
      Wire.tcpSend sleeps heap s eth = some (result, eth') →
      ∃ frame sent, eth'.sent = frame :: sent ∧ Verifies (slice frame.buf 14 20) ∧
        Verifies (pseudoHeader frame.buf (28 + s.length.toNat) ++
          slice frame.buf 34 (28 + s.length.toNat)) :=
  ⟨fun _ _ _ _ hphdr hlong hlen => net_checksum_eq hphdr hlong hlen,
    fun _ _ _ _ _ _ _ _ henabled hsend => ipv4_send_verifies hsend henabled,
    fun _ _ _ _ _ _ hfits henabled hsend => tcp_send_verifies hfits hsend henabled⟩

/-- A segment with one byte of data, to the broadcast address. -/
def segmentByte : TcpSegment where
  srcAddress := 0x0a000001#32
  dstAddress := 0xffffffff#32
  srcPort := 1#16
  dstPort := 80#16
  seq := 0#32
  ack := 0#32
  flags := 0x18#8
  data := fun _ => 7#8
  length := 1#32

theorem checksums_verify_segment_byte :
    ∃ eth', Wire.tcpSend [] noData segmentByte freshEthernet = some (1#32, eth') ∧
      ∃ frame sent, eth'.sent = frame :: sent ∧ Verifies (slice frame.buf 14 20) ∧
        Verifies (pseudoHeader frame.buf 29 ++ slice frame.buf 34 29) :=
  ⟨_, rfl, checksums_verify.2.2 [] noData segmentByte freshEthernet _ 1#32 (by decide) (by decide)
    rfl⟩

end Sirius.Net
