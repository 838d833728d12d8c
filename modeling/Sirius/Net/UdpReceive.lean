import Mathlib.Tactic
import Sirius.Driver.Rtc
import Sirius.Library.Runs
import Sirius.Net.Ethernet

/-!
# Receiving a datagram by polling

`udp_receive` of `kernel/driver/net/udp.c` takes one batch of frames after the other from the
network card until a frame passes its comparisons or its time is up. The comparisons and the copy
use fixed offsets, those of an IPv4 header of 20 bytes. The number of bytes copied is the length
field of the UDP header, which counts the 8 bytes of that header too; so a buffer with more room
than the payload gets bytes from behind the datagram.
-/

namespace Sirius.Net

open Library Driver

/-- What `udp_receive` meets: the time of its start, and for every round of its loop the
descriptors that `get_ethernet_package` returns and the time at which the clock is polled. -/
structure Reception where
  start : Nat
  package : Nat → Nat → Descriptor
  poll : Nat → Nat

/-- The bytes of a frame. The drivers give every frame of a batch a buffer. -/
def Descriptor.bytes (prd : Descriptor) : Bytes := prd.buf.getD fun _ => 0#8

/-! ### The code -/

/-- The comparisons of the loop over a batch. -/
def udpMatches (port : BitVec 16) (prd : Descriptor) : Bool :=
  htons (half prd.bytes 12) = etIpv4 ∧ (prd.bytes 23).toNat = ipProtocolUdp ∧
    htons (half prd.bytes 36) = port

/-- The descriptors of a batch; the first one has their number. -/
def batch (prd : Nat → Descriptor) : List Descriptor :=
  (List.range (prd 0).count.toInt.toNat).map prd

/-- The result and the bytes at `data` after the loops ended at `prd`. -/
def udpTake (data : Bytes) (length : Nat) (prd : Descriptor) : Nat × Bytes :=
  let udpLength := (htons (half prd.bytes 38)).toNat
  let len := if udpLength > length then length else udpLength
  (len, copyBytes data 0 prd.bytes 42 len)

/-- One round of the outer loop; `none` goes on. -/
def udpRound (t : Reception) (status : Nat) (data : Bytes) (length : Nat) (port : BitVec 16)
    (k : Nat) : Option (Nat × Bytes) :=
  let prd := t.package k
  if (prd 0).flag ≠ 0#32 then
    if swait (t.poll k) status = 0 then some (0, data) else none
  else match (batch prd).find? (udpMatches port) with
    | some prd => some (udpTake data length prd)
    | none => if swait (t.poll k) status = 0 then some (0, data) else none

/-- `udp_receive`: its result and the bytes at `data` after it. -/
def udpReceive (t : Reception) (data : Bytes) (length : Nat) (port : BitVec 16) (fuel : Nat) :
    Option (Nat × Bytes) :=
  rounds (udpRound t (swaitInit t.start 10) data length port) fuel 0

/-! ### What is received -/

/-- The frames of round `k`. -/
def Reception.frames (t : Reception) (k : Nat) : List Descriptor :=
  if (t.package k 0).flag ≠ 0#32 then [] else batch (t.package k)

/-- The length of the IPv4 header of a frame, from its `ihl`. -/
def headerLength (prd : Descriptor) : Nat := (prd.bytes 14).toNat % 16 * 4

/-- A UDP datagram for the port. -/
def udpDatagram (port : BitVec 16) (prd : Descriptor) : Bool :=
  htons (half prd.bytes 12) = etIpv4 ∧ (prd.bytes 23).toNat = ipProtocolUdp ∧
    htons (half prd.bytes (14 + headerLength prd + 2)) = port

/-- The length field of the UDP header. -/
def udpLength (prd : Descriptor) : Nat :=
  (htons (half prd.bytes (14 + headerLength prd + 4))).toNat

/-- Where the payload of a datagram starts. -/
def payloadStart (prd : Descriptor) : Nat := 14 + headerLength prd + 8

/-- The length of the payload of a datagram, which lies in the frame. -/
def payloadLength (prd : Descriptor) : Nat :=
  min (udpLength prd - 8) (prd.buffersize.toNat - payloadStart prd)

/-- No round before `k` has a datagram for the port or finds that the time is up. -/
def Reception.Reaches (t : Reception) (port : BitVec 16) (k : Nat) : Prop :=
  ∀ j < k, (t.frames j).find? (udpDatagram port) = none ∧
    swait (t.poll j) (swaitInit t.start 10) ≠ 0

/-- `udp_receive` returns the payload of the first datagram for the port, as far as `data` has
room for it; if the time is up before, it returns 0 and leaves `data` as it is. -/
def UdpReceiveLaw (t : Reception) (data : Bytes) (length : Nat) (port : BitVec 16) : Prop :=
  ∀ k, t.Reaches port k → match (t.frames k).find? (udpDatagram port) with
    | some prd => Returns (udpReceive t data length port)
        (min (payloadLength prd) length,
          copyBytes data 0 prd.bytes (payloadStart prd) (min (payloadLength prd) length))
    | none => swait (t.poll k) (swaitInit t.start 10) = 0 →
        Returns (udpReceive t data length port) (0, data)

/-- The first frame that passes the comparisons is the first datagram for the port, and its IPv4
header has no options. -/
def Reception.Plain (t : Reception) (port : BitVec 16) : Prop :=
  ∀ k, t.Reaches port k →
    (t.frames k).find? (udpMatches port) = (t.frames k).find? (udpDatagram port) ∧
      ∀ prd, (t.frames k).find? (udpDatagram port) = some prd → headerLength prd = 20

/-- The first datagram for the port has at least `length` bytes of payload, or a length field
of 0. -/
def Reception.Fills (t : Reception) (port : BitVec 16) (length : Nat) : Prop :=
  ∀ k, t.Reaches port k → ∀ prd, (t.frames k).find? (udpDatagram port) = some prd →
    length ≤ payloadLength prd ∨ udpLength prd = 0

variable {t : Reception} {data : Bytes} {length k : Nat} {port : BitVec 16} {prd : Descriptor}

/-! ### Rounds -/

/-- A round takes the first frame that passes the comparisons, otherwise it looks at the clock. -/
theorem udp_round_eq (status : Nat) :
    udpRound t status data length port k =
      match (t.frames k).find? (udpMatches port) with
      | some prd => some (udpTake data length prd)
      | none => if swait (t.poll k) status = 0 then some (0, data) else none := by
  unfold udpRound Reception.frames
  by_cases hflag : (t.package k 0).flag ≠ 0#32
  · simp [hflag]
  · simp [hflag]

theorem udp_round_quiet (hfind : (t.frames k).find? (udpMatches port) = none)
    (hwait : swait (t.poll k) (swaitInit t.start 10) ≠ 0) :
    udpRound t (swaitInit t.start 10) data length port k = none := by
  rw [udp_round_eq, hfind]
  exact if_neg hwait

/-- What is returned when a round is the first one that takes a frame. -/
theorem udp_receive_takes
    (hbefore : ∀ j < k, (t.frames j).find? (udpMatches port) = none ∧
      swait (t.poll j) (swaitInit t.start 10) ≠ 0)
    (hfind : (t.frames k).find? (udpMatches port) = some prd) :
    Returns (udpReceive t data length port) (udpTake data length prd) := by
  refine Returns.of_rounds (fun j hj => udp_round_quiet (hbefore j hj).1 (hbefore j hj).2) ?_
  rw [udp_round_eq, hfind]

/-- What is returned when the time is up before a frame is taken. -/
theorem udp_receive_late
    (hbefore : ∀ j < k, (t.frames j).find? (udpMatches port) = none ∧
      swait (t.poll j) (swaitInit t.start 10) ≠ 0)
    (hfind : (t.frames k).find? (udpMatches port) = none)
    (hwait : swait (t.poll k) (swaitInit t.start 10) = 0) :
    Returns (udpReceive t data length port) (0, data) := by
  refine Returns.of_rounds (fun j hj => udp_round_quiet (hbefore j hj).1 (hbefore j hj).2) ?_
  rw [udp_round_eq, hfind]
  exact if_pos hwait

/-! ### The copied length -/

theorem payload_length_le (prd : Descriptor) : payloadLength prd ≤ udpLength prd - 8 :=
  Nat.min_le_left _ _

/-- Without options the fields are where the code reads them. -/
theorem udp_take_eq (hplain : headerLength prd = 20) :
    udpTake data length prd = (min (udpLength prd) length,
      copyBytes data 0 prd.bytes (payloadStart prd) (min (udpLength prd) length)) := by
  have hlength : (htons (half prd.bytes 38)).toNat = udpLength prd := by
    rw [udpLength, hplain]
  have hstart : 42 = payloadStart prd := by rw [payloadStart, hplain]
  have hmin : (if udpLength prd > length then length else udpLength prd) =
      min (udpLength prd) length := by
    split <;> omega
  simp only [udpTake, hlength, hmin, ← hstart]

/-- The two lengths agree when the payload fills the buffer. -/
theorem min_length_iff (prd : Descriptor) (length : Nat) :
    min (udpLength prd) length = min (payloadLength prd) length ↔
      length ≤ payloadLength prd ∨ udpLength prd = 0 := by
  have := payload_length_le prd
  omega

/-! ### The law -/

/-- Up to the round that is reached, the comparisons take no frame. -/
theorem Reception.Plain.before (hplain : t.Plain port) (hreach : t.Reaches port k) :
    ∀ j < k, (t.frames j).find? (udpMatches port) = none ∧
      swait (t.poll j) (swaitInit t.start 10) ≠ 0 := by
  intro j hj
  have hj' : t.Reaches port j := fun i hi => hreach i (hi.trans hj)
  exact ⟨(hplain j hj').1.trans (hreach j hj).1, (hreach j hj).2⟩

/-- `udp_receive` returns the payload exactly when the payload fills the buffer. -/
theorem udp_receive_iff (hplain : t.Plain port) :
    UdpReceiveLaw t data length port ↔ t.Fills port length := by
  constructor
  · intro h k hreach prd hfind
    have hlaw := h k hreach
    rw [hfind] at hlaw
    have htake : Returns (udpReceive t data length port) _ :=
      udp_receive_takes (hplain.before hreach) ((hplain k hreach).1.trans hfind)
    rw [udp_take_eq ((hplain k hreach).2 prd hfind)] at htake
    exact (min_length_iff prd length).mp (congrArg Prod.fst (htake.unique hlaw))
  · intro h k hreach
    have hbefore := hplain.before hreach
    cases hfind : (t.frames k).find? (udpDatagram port) with
    | none =>
        exact udp_receive_late hbefore ((hplain k hreach).1.trans hfind)
    | some prd =>
        have htake : Returns (udpReceive t data length port) _ :=
          udp_receive_takes hbefore ((hplain k hreach).1.trans hfind)
        rw [udp_take_eq ((hplain k hreach).2 prd hfind),
          (min_length_iff prd length).mpr (h k hreach prd hfind)] at htake
        exact htake

/-- A frame of 44 bytes with a datagram for port 68, whose payload has 2 bytes. -/
def replyFrame : Descriptor where
  flag := 0#32
  count := 1#32
  buffersize := 44#32
  buf := some fun i => match i with
    | 12 => 0x08#8
    | 14 => 0x45#8
    | 23 => 17#8
    | 37 => 68#8
    | 39 => 10#8
    | 42 => 1#8
    | 43 => 2#8
    | _ => 0#8

/-- The frame is there in the first round. -/
def replyAtOnce : Reception := ⟨0, fun _ _ => replyFrame, fun k => k⟩

theorem reply_at_once_find (k : Nat) :
    (replyAtOnce.frames k).find? (udpDatagram 68#16) = some replyFrame ∧
      (replyAtOnce.frames k).find? (udpMatches 68#16) = some replyFrame := by
  have hframes : replyAtOnce.frames k = [replyFrame] := rfl
  have hdatagram : udpDatagram 68#16 replyFrame = true := by decide
  have hmatches : udpMatches 68#16 replyFrame = true := by decide
  rw [hframes, List.find?_cons_of_pos hdatagram, List.find?_cons_of_pos hmatches]
  exact ⟨rfl, rfl⟩

/-- The two bytes of payload fill a buffer of two bytes. -/
theorem udp_receive_iff_reply : UdpReceiveLaw replyAtOnce (fun _ => 0#8) 2 68#16 := by
  have hplain : replyAtOnce.Plain 68#16 := by
    intro k _
    rw [(reply_at_once_find k).1, (reply_at_once_find k).2]
    refine ⟨rfl, fun prd hprd => ?_⟩
    cases hprd
    rfl
  refine (udp_receive_iff hplain).mpr fun k _ prd hfind => ?_
  cases (reply_at_once_find k).1.symm.trans hfind
  exact .inl (by decide)

/-- With room for ten bytes, the function returns 10 and copies 8 bytes from behind the datagram. -/
theorem udp_header_copied : ¬ UdpReceiveLaw replyAtOnce (fun _ => 0#8) 10 68#16 := by
  intro h
  have hlaw := h 0 fun j hj => absurd hj (Nat.not_lt_zero j)
  rw [(reply_at_once_find 0).1] at hlaw
  have htake : Returns (udpReceive replyAtOnce (fun _ => 0#8) 10 68#16) _ :=
    udp_receive_takes (fun j hj => absurd hj (Nat.not_lt_zero j)) (reply_at_once_find 0).2
  have hresult : 10 = 2 := congrArg Prod.fst (htake.unique hlaw)
  omega

/-! ### Time limits -/

/-- A call that starts at the time `start` and gets no frame that passes the comparisons ends with
the result 0, if the clock is looked at once per second. -/
def UdpTimesOut (start : Nat) : Prop :=
  ∀ t data length port, t.start = start → PolledEverySecond start t.poll →
    (∀ time, ∃ k, time ≤ t.poll k) →
    (∀ k, (t.frames k).find? (udpMatches port) = none) →
    Returns (udpReceive t data length port) (0, data)

/-- No frames at all, and one look at the clock per second. -/
def noFrames (start : Nat) : Reception :=
  ⟨start, fun _ _ => ⟨0xffffffff#32, 0#32, 0#32, none⟩, fun k => start + k⟩

/-- A deadline in the next hour keeps `udp_receive` in its loop. -/
theorem udp_receive_hangs {start : Nat} (hlate : ¬ SameHour start 10) (result : Nat × Bytes) :
    ¬ Returns (udpReceive (noFrames start) data length port) result :=
  not_returns_rounds fun k => udp_round_quiet rfl fun h =>
    one_ne_zero ((swait_never (by decide) hlate (start + k)).symm.trans h)

theorem udp_times_out_iff (start : Nat) : UdpTimesOut start ↔ SameHour start 10 := by
  constructor
  · intro h
    by_contra hlate
    have hpolls : PolledEverySecond start (noFrames start).poll :=
      ⟨⟨Nat.le_refl _, Nat.le_succ _⟩, fun k => ⟨Nat.le_succ _, Nat.le_refl _⟩⟩
    refine udp_receive_hangs hlate (0, fun _ => 0#8)
      (h (noFrames start) (fun _ => 0#8) 0 0#16 rfl hpolls (fun time => ⟨time, ?_⟩) fun k => rfl)
    exact Nat.le_add_left time start
  · rintro hhour t data length port rfl hpolls hgrow hnone
    -- the first look at the clock at or after the deadline
    have hex : ∃ k, t.start + 10 + 1 ≤ t.poll k := hgrow _
    classical
    have hbefore : ∀ j < Nat.find hex, t.poll j < t.start + 10 + 1 := fun j hj =>
      Nat.lt_of_not_le (Nat.find_min hex hj)
    refine udp_receive_late (k := Nat.find hex) (fun j hj => ⟨hnone j, ?_⟩) (hnone _) ?_
    · rw [swait_before (by decide) (polls_start hpolls j) (hbefore j hj)]
      exact one_ne_zero
    · rw [first_poll_after hpolls (Nat.find_spec hex) hbefore]
      exact swait_at_deadline (by decide) hhour

/-- The time limits of `swait` and of `udp_receive` hold exactly when the deadline is in the hour
of the start. -/
theorem time_limits_iff {start time : Nat} (htime : time ≤ 3000) :
    (TimeoutLaw start time ↔ SameHour start time) ∧ (UdpTimesOut start ↔ SameHour start 10) :=
  ⟨timeout_law_iff htime, udp_times_out_iff start⟩

/-- At half past, with 10 seconds. -/
theorem time_limits_iff_half_past : TimeoutLaw 1800 10 ∧ UdpTimesOut 1800 :=
  ⟨(time_limits_iff (by decide)).1.mpr (by decide),
    (@time_limits_iff 1800 10 (by decide)).2.mpr (by decide)⟩

/-- Five seconds before the hour, a limit of 10 seconds is never over. -/
theorem hour_end_never_over : ¬ TimeoutLaw 3595 10 ∧ ¬ UdpTimesOut 3595 :=
  ⟨fun h => absurd ((timeout_law_iff (by decide)).mp h) (by decide),
    fun h => absurd ((udp_times_out_iff 3595).mp h) (by decide)⟩

end Sirius.Net
