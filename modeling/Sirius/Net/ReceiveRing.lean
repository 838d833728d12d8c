import Sirius.Library.LazyRing
import Sirius.Library.Runs
import Sirius.Net.Ethernet

/-!
# Receive rings

The driver of a network card receives frames through a ring of descriptors. The card completes the
descriptors it owns in ring order; `recieve_package` collects the completed ones in
`packege_desc_buffer` and hands them back. The loop is the same in all drivers but for the number of
descriptors, the mark of a completed one and the field with the length, so it is one definition
here. A driver is sound when its calls report every frame once and in the order of arrival, stay
inside `packege_desc_buffer`, and hand back descriptors that offer the whole buffer.
-/

namespace Sirius.Net

open Library

variable {δ ρ : Type}

/-! ### The loop of the drivers -/

/-- A driver: the number of descriptors, whether the card has completed one, the length and the
buffer of its frame, what marks it as the card's again, and a register write that goes with it. -/
structure RxDriver (δ ρ : Type) where
  num : Nat
  completed : δ → Bool
  length : δ → BitVec 16
  buffer : δ → Bytes
  handBack : δ → δ
  notify : Nat → ρ → ρ

/-- The descriptors, the position of the driver, the registers, and `packege_desc_buffer`. What lies
behind the 32 entries of the array goes on in the same function. -/
structure RxRing (δ ρ : Type) where
  rxDesc : Nat → δ
  rxCur : Nat
  regs : ρ
  packegeDescBuffer : Nat → Descriptor

/-- The first entry of `packege_desc_buffer` says that there is no frame. -/
def RxRing.cleared (s : RxRing δ ρ) : RxRing δ ρ :=
  { s with
    packegeDescBuffer := Function.update s.packegeDescBuffer 0
      { flag := 0xffffffff#32, count := 0#32, buffersize := 0#32, buf := none } }

namespace RxDriver

/-- A round of the loop: the descriptor at `rx_cur` goes into `packege_desc_buffer[desc]`, and the
count in the first entry goes up. -/
def recieveOne (drv : RxDriver δ ρ) (desc : Nat) (s : RxRing δ ρ) : RxRing δ ρ :=
  let rx := s.rxDesc s.rxCur
  let old := s.packegeDescBuffer desc
  let descs := Function.update s.packegeDescBuffer desc
    { old with
      flag := 0#32
      buffersize := (drv.length rx).setWidth 32
      buf := some (drv.buffer rx) }
  let first := descs 0
  { rxDesc := Function.update s.rxDesc s.rxCur (drv.handBack rx)
    rxCur := (s.rxCur + 1) % drv.num
    regs := drv.notify s.rxCur s.regs
    packegeDescBuffer := Function.update descs 0 { first with count := first.count + 1#32 } }

/-- The loop, for at most `n` rounds. A descriptor that was handed back is not completed, so there
are at most as many rounds as descriptors. -/
def recieveLoop (drv : RxDriver δ ρ) : (n desc : Nat) → RxRing δ ρ → RxRing δ ρ
  | 0, _, s => s
  | n + 1, desc, s =>
      if drv.completed (s.rxDesc s.rxCur) then recieveLoop drv n (desc + 1) (drv.recieveOne desc s)
      else s

/-- `recieve_package` -/
def recievePackage (drv : RxDriver δ ρ) (s : RxRing δ ρ) : RxRing δ ρ :=
  drv.recieveLoop drv.num 0 s.cleared

end RxDriver

/-! ### The card -/

/-- A frame: its length and the bytes that the card writes into the buffer. -/
structure RxFrame where
  length : BitVec 16
  bytes : Bytes

/-- What an entry of `packege_desc_buffer` says about a frame. -/
def Descriptor.report (prd : Descriptor) : BitVec 32 × BitVec 32 × Option Bytes :=
  (prd.flag, prd.buffersize, prd.buf)

/-- The report of a frame. -/
def RxFrame.report (frame : RxFrame) : BitVec 32 × BitVec 32 × Option Bytes :=
  (0#32, frame.length.setWidth 32, some frame.bytes)

/-- A card: whether it owns the descriptor at its position, what it may leave in a descriptor with a
frame, and the size of the buffer that a descriptor offers to it. -/
structure RxCard (δ ρ : Type) where
  owns : ρ → Nat → δ → Prop
  completes : RxFrame → δ → δ → Prop
  offered : ρ → δ → Nat

/-- A driver and its card at work: the ring, the position of the card, the frames that arrived, and
the reports of the calls so far. -/
structure RxSession (δ ρ : Type) where
  ring : RxRing δ ρ
  head : Nat
  arrived : List RxFrame
  reported : List (BitVec 32 × BitVec 32 × Option Bytes)

/-- The card completes a descriptor with a frame, or the driver is called. -/
inductive RxEvent (δ : Type)
  | complete (frame : RxFrame) (rx : δ)
  | recieve

/-- The frames that no call has reported. -/
def RxSession.waiting (s : RxSession δ ρ) : List RxFrame := s.arrived.drop s.reported.length

/-- The card writes the descriptor at its position. -/
def RxSession.complete (num : Nat) (s : RxSession δ ρ) (frame : RxFrame) (rx : δ) : RxSession δ ρ :=
  { s with
    ring := { s.ring with rxDesc := Function.update s.ring.rxDesc s.head rx }
    head := (s.head + 1) % num
    arrived := s.arrived ++ [frame] }

/-- A call; `count` of the first entry tells the caller how many entries there are. -/
def RxSession.call (recv : RxRing δ ρ → RxRing δ ρ) (s : RxSession δ ρ) : RxSession δ ρ :=
  let ring := recv s.ring
  let prd := ring.packegeDescBuffer
  { s with
    ring
    reported := s.reported ++ (List.range (prd 0).count.toNat).map fun k => (prd k).report }

/-- The transitions of a driver with `num` descriptors and its card. -/
def RxStep (recv : RxRing δ ρ → RxRing δ ρ) (card : RxCard δ ρ) (num : Nat) (s : RxSession δ ρ) :
    RxEvent δ → RxSession δ ρ → Prop
  | .complete frame rx, s' =>
      card.owns s.ring.regs s.head (s.ring.rxDesc s.head) ∧
        card.completes frame (s.ring.rxDesc s.head) rx ∧ s' = s.complete num frame rx
  | .recieve, s' => s' = s.call recv

/-- The ring as the driver sets it up, before anything arrives. -/
def RxSession.start (ring : RxRing δ ρ) : RxSession δ ρ := ⟨ring, 0, [], []⟩

/-- A call reports all frames that have arrived since the last one, in their order, and its count is
their number; it writes to the 32 entries of `packege_desc_buffer` only, and no descriptor stays
completed. -/
structure CallSound (drv : RxDriver δ ρ) (s s' : RxSession δ ρ) : Prop where
  count : (s'.ring.packegeDescBuffer 0).count.toNat = s.waiting.length
  entries : ∀ k frame, s.waiting[k]? = some frame →
    (s'.ring.packegeDescBuffer k).report = frame.report
  all : s'.reported = s.arrived.map RxFrame.report
  table : ∀ i, 32 ≤ i → s'.ring.packegeDescBuffer i = s.ring.packegeDescBuffer i
  handed : ∀ i < drv.num, drv.completed (s'.ring.rxDesc i) = false

/-- In the runs whose events are `good`, the reports are those of the first frames in the order of
arrival, every descriptor of the card offers `size` bytes, and the calls are sound. -/
def RxSound (drv : RxDriver δ ρ) (recv : RxRing δ ρ → RxRing δ ρ) (card : RxCard δ ρ) (size : Nat)
    (good : RxSession δ ρ → RxEvent δ → Prop) (ring : RxRing δ ρ) : Prop :=
  ∀ s, Run (RxStep recv card drv.num) good (.start ring) s →
    s.reported = (s.arrived.take s.reported.length).map RxFrame.report ∧
    (∀ i < drv.num, drv.completed (s.ring.rxDesc i) = false →
      card.offered s.ring.regs (s.ring.rxDesc i) = size) ∧
    (good s .recieve → CallSound drv s (s.call recv))

/-! ### One call -/

/-- The loop took the `m` descriptors from number `r` on and put them into `packege_desc_buffer` from
entry `d` on. -/
structure Batch (drv : RxDriver δ ρ) (s s' : RxRing δ ρ) (r d m : Nat) : Prop where
  rxCur : s'.rxCur = (r + m) % drv.num
  handed : ∀ j < m, s'.rxDesc ((r + j) % drv.num) = drv.handBack (s.rxDesc ((r + j) % drv.num))
  kept : ∀ i, (∀ j < m, i ≠ (r + j) % drv.num) → s'.rxDesc i = s.rxDesc i
  filled : ∀ j < m, (s'.packegeDescBuffer (d + j)).report =
    (0#32, (drv.length (s.rxDesc ((r + j) % drv.num))).setWidth 32,
      some (drv.buffer (s.rxDesc ((r + j) % drv.num))))
  earlier : ∀ i < d, (s'.packegeDescBuffer i).report = (s.packegeDescBuffer i).report
  behind : ∀ i, d + m ≤ i → i ≠ 0 → s'.packegeDescBuffer i = s.packegeDescBuffer i
  count : (s'.packegeDescBuffer 0).count = (s.packegeDescBuffer 0).count + BitVec.ofNat 32 m
  regs : ∀ regsOk : Nat → ρ → Prop,
    (∀ q regs, regsOk q regs → regsOk (q + 1) (drv.notify (q % drv.num) regs)) →
    regsOk r s.regs → regsOk (r + m) s'.regs

variable {drv : RxDriver δ ρ} {ring : RxRing δ ρ} {r d m n i j k : Nat}

/-- Counting leaves the reports of the entries as they are. -/
theorem report_recieve_one :
    ((drv.recieveOne d ring).packegeDescBuffer i).report =
      if i = d then (0#32, (drv.length (ring.rxDesc ring.rxCur)).setWidth 32,
        some (drv.buffer (ring.rxDesc ring.rxCur)))
      else (ring.packegeDescBuffer i).report := by
  unfold RxDriver.recieveOne Descriptor.report
  by_cases hzero : i = 0
  · subst hzero
    by_cases hd : 0 = d
    · subst hd
      simp
    · simp [hd]
  · by_cases hd : i = d
    · subst hd
      simp [hzero]
    · simp [hzero, hd]

theorem count_recieve_one :
    ((drv.recieveOne d ring).packegeDescBuffer 0).count =
      (ring.packegeDescBuffer 0).count + 1#32 := by
  unfold RxDriver.recieveOne
  by_cases hd : 0 = d
  · subst hd
    simp
  · simp [hd]

/-- A round writes to its own entry and to the first one. -/
theorem recieve_one_behind (hd : i ≠ d) (hzero : i ≠ 0) :
    (drv.recieveOne d ring).packegeDescBuffer i = ring.packegeDescBuffer i := by
  unfold RxDriver.recieveOne
  simp [hzero, hd]

theorem cleared_rx_desc : ring.cleared.rxDesc = ring.rxDesc := rfl

theorem cleared_count : (ring.cleared.packegeDescBuffer 0).count = 0#32 := by
  unfold RxRing.cleared
  simp

theorem cleared_behind (hzero : i ≠ 0) :
    ring.cleared.packegeDescBuffer i = ring.packegeDescBuffer i :=
  Function.update_of_ne hzero _ _

theorem Batch.empty (hcur : ring.rxCur = r % drv.num) : Batch drv ring ring r d 0 :=
  ⟨hcur, fun j hj => absurd hj (Nat.not_lt_zero j), fun _ _ => rfl,
    fun j hj => absurd hj (Nat.not_lt_zero j), fun _ _ => rfl, fun _ _ _ => rfl, by simp,
    fun _ _ h => h⟩

/-- The descriptors of a batch are different. -/
theorem batch_slot_ne (hpos : 0 < j) (hlt : j < n) : (r + j) % n ≠ r % n :=
  (LazyRing.slot_ne (by omega) (by omega)).symm

/-- A round in front of a batch. -/
theorem Batch.cons {ring' : RxRing δ ρ} (hm : m < drv.num) (hcur : ring.rxCur = r % drv.num)
    (h : Batch drv (drv.recieveOne d ring) ring' (r + 1) (d + 1) m) :
    Batch drv ring ring' r d (m + 1) := by
  have hother : ∀ i, i ≠ r % drv.num → (drv.recieveOne d ring).rxDesc i = ring.rxDesc i :=
    fun i hi => Function.update_of_ne (by rwa [hcur]) _ _
  have hself : (drv.recieveOne d ring).rxDesc (r % drv.num) =
      drv.handBack (ring.rxDesc (r % drv.num)) := by
    show Function.update ring.rxDesc ring.rxCur (drv.handBack (ring.rxDesc ring.rxCur)) _ = _
    rw [← hcur, Function.update_self]
  have hnext : ∀ j, (r + 1 + j) % drv.num = (r + (j + 1)) % drv.num := fun j => by
    rw [Nat.add_assoc, Nat.add_comm 1 j]
  constructor
  case rxCur => rw [h.rxCur, hnext]
  case handed =>
      intro j hj
      cases j with
      | zero =>
          rw [Nat.add_zero, h.kept _ fun j hj => ?_]
          · exact hself
          · rw [hnext]
            exact (batch_slot_ne (by omega) (by omega)).symm
      | succ j =>
          rw [← hnext, h.handed j (by omega), hnext,
            hother _ (batch_slot_ne (by omega) (by omega))]
  case kept =>
      intro i hi
      rw [h.kept i fun j hj => by rw [hnext]; exact hi _ (by omega)]
      exact hother i (hi 0 (by omega))
  case filled =>
      intro j hj
      cases j with
      | zero => rw [Nat.add_zero, h.earlier d (by omega), report_recieve_one, if_pos rfl,
          Nat.add_zero, hcur]
      | succ j =>
          have hfilled := h.filled j (by omega)
          rw [hnext, hother _ (batch_slot_ne (by omega) (by omega))] at hfilled
          rwa [Nat.add_assoc, Nat.add_comm 1 j] at hfilled
  case earlier =>
      intro i hi
      rw [h.earlier i (by omega), report_recieve_one, if_neg (by omega)]
  case behind =>
      intro i hi hzero
      rw [h.behind i (by omega) hzero, recieve_one_behind (by omega) hzero]
  case count =>
      rw [h.count, count_recieve_one, BitVec.add_assoc]
      congr 1
      apply BitVec.eq_of_toNat_eq
      simp only [BitVec.toNat_add, BitVec.toNat_ofNat]
      omega
  case regs =>
      intro regsOk hnotify hregs
      have hfirst : regsOk (r + 1) (drv.recieveOne d ring).regs := by
        show regsOk (r + 1) (drv.notify ring.rxCur ring.regs)
        rw [hcur]
        exact hnotify r ring.regs hregs
      have hrest := h.regs regsOk hnotify hfirst
      rwa [Nat.add_assoc, Nat.add_comm 1 m] at hrest

/-- The loop takes the completed descriptors up to the first one that is not completed. The
induction is on their number; when all are completed, the loop stops where it started. -/
theorem recieve_loop_batch (hback : ∀ rx, drv.completed (drv.handBack rx) = false)
    (hpos : 0 < drv.num) (hn : m ≤ n) (hm : m ≤ drv.num) (hcur : ring.rxCur = r % drv.num)
    (hwaiting : ∀ j < m, drv.completed (ring.rxDesc ((r + j) % drv.num)) = true)
    (hend : m < drv.num → drv.completed (ring.rxDesc ((r + m) % drv.num)) = false) :
    Batch drv ring (drv.recieveLoop n d ring) r d m := by
  induction m generalizing n r d ring with
  | zero =>
      cases n with
      | zero => exact .empty hcur
      | succ n =>
          have hfree := hend hpos
          rw [Nat.add_zero, ← hcur] at hfree
          rw [RxDriver.recieveLoop, if_neg (by rw [hfree]; exact Bool.false_ne_true)]
          exact .empty hcur
  | succ m ih =>
      obtain ⟨n, rfl⟩ : ∃ n', n = n' + 1 := ⟨n - 1, by omega⟩
      have hfirst := hwaiting 0 (by omega)
      rw [Nat.add_zero, ← hcur] at hfirst
      rw [RxDriver.recieveLoop, if_pos hfirst]
      have hother : ∀ j, 0 < j → j < drv.num →
          (drv.recieveOne d ring).rxDesc ((r + j) % drv.num) =
            ring.rxDesc ((r + j) % drv.num) := fun j hj hlt =>
        Function.update_of_ne (by rw [hcur]; exact batch_slot_ne hj hlt) _ _
      have hnext : ∀ j, (r + 1 + j) % drv.num = (r + (j + 1)) % drv.num := fun j => by
        rw [Nat.add_assoc, Nat.add_comm 1 j]
      refine .cons (by omega) hcur (ih (by omega) (by omega) ?_ (fun j hj => ?_) fun hlt => ?_)
      · show (ring.rxCur + 1) % drv.num = _
        rw [hcur, Nat.mod_add_mod]
      · rw [hnext, hother _ (by omega) (by omega)]
        exact hwaiting _ (by omega)
      · rw [hnext]
        by_cases hall : m + 1 = drv.num
        · -- the descriptor is the first one again, which was handed back
          rw [hall, Nat.add_mod_right, ← hcur]
          show drv.completed (Function.update ring.rxDesc ring.rxCur
            (drv.handBack (ring.rxDesc ring.rxCur)) ring.rxCur) = false
          rw [Function.update_self]
          exact hback _
        · rw [hother _ (by omega) (by omega)]
          exact hend (by omega)

/-! ### Runs -/

/-- What a driver and its card must keep to: a descriptor that was handed back is not completed, one
with a frame is, and neither changes the size that it offers. `regsOk` says what the registers are
after a number of frames were taken, and with them the card owns no descriptor once `capacity` frames
are waiting. -/
structure RxLawful (drv : RxDriver δ ρ) (card : RxCard δ ρ) (size capacity : Nat)
    (regsOk : Nat → ρ → Prop) (fits : RxFrame → Prop) : Prop where
  pos : 0 < drv.num
  small : drv.num < 2 ^ 32
  fewer : capacity ≤ drv.num
  handBack : ∀ rx, drv.completed (drv.handBack rx) = false
  completed : ∀ frame rx rx', card.completes frame rx rx' →
    drv.completed rx' = true ∧ drv.length rx' = frame.length ∧ drv.buffer rx' = frame.bytes
  notify : ∀ q regs, regsOk q regs → regsOk (q + 1) (drv.notify (q % drv.num) regs)
  room : ∀ r w regs rx, regsOk r regs → r ≤ w → w ≤ r + capacity →
    (w = r + drv.num → drv.completed rx = true) → card.owns regs (w % drv.num) rx → w < r + capacity
  offersBack : ∀ regs rx, card.offered regs (drv.handBack rx) = card.offered regs rx
  offersFrame : ∀ frame regs rx rx', fits frame → card.completes frame rx rx' →
    card.offered regs rx = size → card.offered regs rx' = size
  offersRegs : ∀ q regs rx, card.offered (drv.notify q regs) rx = card.offered regs rx

/-- The frames that arrived and were not reported are in the ring, in the order of arrival, and no
other descriptor is completed. -/
structure RxInv (drv : RxDriver δ ρ) (card : RxCard δ ρ) (size capacity : Nat)
    (regsOk : Nat → ρ → Prop) (fits : RxFrame → Prop) (s : RxSession δ ρ) : Prop where
  rxCur : s.ring.rxCur = s.reported.length % drv.num
  head : s.head = s.arrived.length % drv.num
  le : s.reported.length ≤ s.arrived.length
  room : s.arrived.length ≤ s.reported.length + capacity
  order : s.reported = (s.arrived.take s.reported.length).map RxFrame.report
  waiting : ∀ k frame, s.reported.length ≤ k → s.arrived[k]? = some frame →
    drv.completed (s.ring.rxDesc (k % drv.num)) = true ∧
      drv.length (s.ring.rxDesc (k % drv.num)) = frame.length ∧
      drv.buffer (s.ring.rxDesc (k % drv.num)) = frame.bytes
  free : ∀ i < drv.num, (∀ k, s.reported.length ≤ k → k < s.arrived.length → i ≠ k % drv.num) →
    drv.completed (s.ring.rxDesc i) = false
  offered : ∀ i < drv.num, drv.completed (s.ring.rxDesc i) = false →
    card.offered s.ring.regs (s.ring.rxDesc i) = size
  fitting : ∀ k frame, s.reported.length ≤ k → s.arrived[k]? = some frame → fits frame →
    card.offered s.ring.regs (s.ring.rxDesc (k % drv.num)) = size
  regs : regsOk s.reported.length s.ring.regs

section Runs

variable {card : RxCard δ ρ} {size capacity : Nat} {regsOk : Nat → ρ → Prop}
  {fits : RxFrame → Prop} {s s' : RxSession δ ρ} {frame : RxFrame} {rx : δ}
  {recv : RxRing δ ρ → RxRing δ ρ} {good : RxSession δ ρ → RxEvent δ → Prop}

/-- A card that owns the descriptor at its position finds it free, and room for one more frame. -/
theorem RxInv.head_free (h : RxInv drv card size capacity regsOk fits s)
    (hlaw : RxLawful drv card size capacity regsOk fits)
    (howns : card.owns s.ring.regs s.head (s.ring.rxDesc s.head)) :
    s.arrived.length < s.reported.length + capacity ∧
      drv.completed (s.ring.rxDesc s.head) = false := by
  have hle := h.le
  have hroom := h.room
  have hfewer := hlaw.fewer
  have hpos := hlaw.pos
  have hlt : s.arrived.length < s.reported.length + capacity := by
    refine hlaw.room _ _ _ _ h.regs hle hroom (fun hfull => ?_) (h.head ▸ howns)
    -- with all descriptors waiting, the next one is the first of them
    rw [hfull, Nat.add_mod_right]
    exact (h.waiting s.reported.length _ le_rfl
      (List.getElem?_eq_getElem (show s.reported.length < s.arrived.length by omega))).1
  refine ⟨hlt, ?_⟩
  rw [h.head]
  exact h.free _ (Nat.mod_lt _ hpos) fun k hlow hhigh =>
    (LazyRing.slot_ne hhigh (by omega)).symm

/-- A frame that arrives goes behind the waiting ones. -/
theorem rx_complete_inv (hlaw : RxLawful drv card size capacity regsOk fits)
    (h : RxInv drv card size capacity regsOk fits s)
    (howns : card.owns s.ring.regs s.head (s.ring.rxDesc s.head))
    (hcompletes : card.completes frame (s.ring.rxDesc s.head) rx) :
    RxInv drv card size capacity regsOk fits (s.complete drv.num frame rx) := by
  have hle := h.le
  have hfewer := hlaw.fewer
  have hpos := hlaw.pos
  obtain ⟨hlt, hempty⟩ := h.head_free hlaw howns
  have hslot : ∀ k, s.reported.length ≤ k → k < s.arrived.length →
      k % drv.num ≠ s.arrived.length % drv.num := fun k hlow hhigh =>
    LazyRing.slot_ne hhigh (by omega)
  have hlength : (s.arrived ++ [frame]).length = s.arrived.length + 1 := by simp
  -- a waiting frame is the new one, or its descriptor is as before
  have hcase : ∀ k frame', s.reported.length ≤ k → (s.arrived ++ [frame])[k]? = some frame' →
      frame = frame' ∧ k % drv.num = s.head ∧
        (s.complete drv.num frame rx).ring.rxDesc (k % drv.num) = rx ∨
      s.arrived[k]? = some frame' ∧
        (s.complete drv.num frame rx).ring.rxDesc (k % drv.num) =
          s.ring.rxDesc (k % drv.num) := by
    intro k frame' hlow hk
    rcases Nat.lt_or_ge k s.arrived.length with hold | hnew
    · rw [List.getElem?_append_left hold] at hk
      exact .inr ⟨hk, Function.update_of_ne (by rw [h.head]; exact hslot k hlow hold) _ _⟩
    · have hbound := (List.getElem?_eq_some_iff.mp hk).1
      obtain rfl : k = s.arrived.length := by omega
      have hlast : (s.arrived ++ [frame])[s.arrived.length]? = some frame := by simp
      refine .inl ⟨Option.some.inj (hlast.symm.trans hk), h.head.symm, ?_⟩
      rw [← h.head]
      exact Function.update_self _ _ _
  constructor
  case rxCur => exact h.rxCur
  case head =>
      show (s.head + 1) % drv.num = (s.arrived ++ [frame]).length % drv.num
      rw [h.head, hlength, Nat.mod_add_mod]
  case le =>
      show s.reported.length ≤ (s.arrived ++ [frame]).length
      omega
  case room =>
      show (s.arrived ++ [frame]).length ≤ s.reported.length + capacity
      omega
  case order =>
      show s.reported = ((s.arrived ++ [frame]).take s.reported.length).map _
      rw [List.take_append_of_le_length hle]
      exact h.order
  case waiting =>
      intro k frame' hlow hk
      rcases hcase k frame' hlow hk with ⟨rfl, -, hnew⟩ | ⟨hold, hsame⟩
      · rw [hnew]
        exact hlaw.completed _ _ _ hcompletes
      · rw [hsame]
        exact h.waiting k frame' hlow hold
  case free =>
      intro i hi hfree
      have hbound : ∀ k, s.reported.length ≤ k → k < s.arrived.length + 1 → i ≠ k % drv.num :=
        fun k hlow hhigh => hfree k hlow (hhigh.trans_eq hlength.symm)
      show drv.completed (Function.update s.ring.rxDesc s.head rx i) = false
      rw [h.head, Function.update_of_ne (hbound _ hle (by omega))]
      exact h.free i hi fun k hlow hhigh => hbound k hlow (by omega)
  case offered =>
      intro i hi hfree
      by_cases hhead : i = s.head
      · -- the completed descriptor is the driver's
        have hdone : drv.completed (Function.update s.ring.rxDesc s.head rx i) = false := hfree
        rw [hhead, Function.update_self, (hlaw.completed _ _ _ hcompletes).1] at hdone
        cases hdone
      · have hsame : (s.complete drv.num frame rx).ring.rxDesc i = s.ring.rxDesc i :=
          Function.update_of_ne hhead _ _
        rw [hsame] at hfree ⊢
        exact h.offered i hi hfree
  case fitting =>
      intro k frame' hlow hk hfits
      rcases hcase k frame' hlow hk with ⟨rfl, -, hnew⟩ | ⟨hold, hsame⟩
      · rw [hnew]
        have hhead : s.head < drv.num := by
          rw [h.head]
          exact Nat.mod_lt _ hpos
        exact hlaw.offersFrame _ _ _ _ hfits hcompletes (h.offered _ hhead hempty)
      · rw [hsame]
        exact h.fitting k frame' hlow hold hfits
  case regs => exact h.regs

theorem RxInv.waiting_length (h : RxInv drv card size capacity regsOk fits s) :
    s.arrived.length = s.reported.length + s.waiting.length := by
  have hle := h.le
  rw [RxSession.waiting, List.length_drop]
  omega

/-- What a call does: it takes the waiting frames. -/
theorem rx_call_batch (hlaw : RxLawful drv card size capacity regsOk fits)
    (h : RxInv drv card size capacity regsOk fits s)
    (hrecv : recv s.ring = drv.recievePackage s.ring) :
    Batch drv s.ring.cleared (recv s.ring) s.reported.length 0 s.waiting.length := by
  have hlength := h.waiting_length
  have hroom := h.room
  have hfewer := hlaw.fewer
  have hpos := hlaw.pos
  rw [hrecv]
  refine recieve_loop_batch hlaw.handBack hpos (by omega) (by omega) h.rxCur (fun j hj => ?_)
    fun hlt => ?_
  · exact (h.waiting (s.reported.length + j) _ (by omega)
      (List.getElem?_eq_getElem (show s.reported.length + j < s.arrived.length by omega))).1
  · rw [← hlength]
    exact h.free _ (Nat.mod_lt _ hpos) fun k hlow hhigh =>
      (LazyRing.slot_ne hhigh (by omega)).symm

/-- The count of a call is the number of the frames. -/
theorem rx_call_count (hlaw : RxLawful drv card size capacity regsOk fits)
    (h : RxInv drv card size capacity regsOk fits s)
    (hrecv : recv s.ring = drv.recievePackage s.ring) :
    ((recv s.ring).packegeDescBuffer 0).count.toNat = s.waiting.length := by
  have hlength := h.waiting_length
  have hroom := h.room
  have hfewer := hlaw.fewer
  have hsmall := hlaw.small
  rw [(rx_call_batch hlaw h hrecv).count, cleared_count, BitVec.zero_add, BitVec.toNat_ofNat]
  omega

/-- The entries of a call are the frames in their order. -/
theorem rx_call_entries (hlaw : RxLawful drv card size capacity regsOk fits)
    (h : RxInv drv card size capacity regsOk fits s)
    (hrecv : recv s.ring = drv.recievePackage s.ring) (hk : s.waiting[k]? = some frame) :
    ((recv s.ring).packegeDescBuffer k).report = frame.report := by
  have hlt := (List.getElem?_eq_some_iff.mp hk).1
  have hfilled := (rx_call_batch hlaw h hrecv).filled k hlt
  rw [RxSession.waiting, List.getElem?_drop] at hk
  obtain ⟨-, hlength, hbuffer⟩ := h.waiting _ frame (by omega) hk
  rw [Nat.zero_add, cleared_rx_desc, hlength, hbuffer] at hfilled
  exact hfilled

/-- After a call all frames have been reported. -/
theorem rx_call_reports (hlaw : RxLawful drv card size capacity regsOk fits)
    (h : RxInv drv card size capacity regsOk fits s)
    (hrecv : recv s.ring = drv.recievePackage s.ring) :
    (s.call recv).reported = s.arrived.map RxFrame.report := by
  have hrest : (List.range s.waiting.length).map
      (fun k => ((recv s.ring).packegeDescBuffer k).report) = s.waiting.map RxFrame.report := by
    refine List.ext_getElem? fun k => ?_
    rw [List.getElem?_map, List.getElem?_map]
    by_cases hk : k < s.waiting.length
    · have hget := List.getElem?_eq_getElem hk
      rw [List.getElem?_range hk, hget, Option.map_some, Option.map_some,
        rx_call_entries hlaw h hrecv hget]
    · rw [List.getElem?_eq_none (by simpa using hk), List.getElem?_eq_none (by omega)]
      rfl
  show s.reported ++ (List.range ((recv s.ring).packegeDescBuffer 0).count.toNat).map _ = _
  rw [rx_call_count hlaw h hrecv, hrest, RxSession.waiting]
  nth_rewrite 1 [h.order]
  rw [← List.map_append, List.take_append_drop]

/-- A descriptor after a call was handed back with a frame, or it was free and stays as it is. -/
theorem rx_call_desc (hlaw : RxLawful drv card size capacity regsOk fits)
    (h : RxInv drv card size capacity regsOk fits s)
    (hrecv : recv s.ring = drv.recievePackage s.ring) (hi : i < drv.num) :
    (∃ k frame, s.waiting[k]? = some frame ∧ i = (s.reported.length + k) % drv.num ∧
      (recv s.ring).rxDesc i = drv.handBack (s.ring.rxDesc i)) ∨
    drv.completed (s.ring.rxDesc i) = false ∧ (recv s.ring).rxDesc i = s.ring.rxDesc i := by
  have hlength := h.waiting_length
  have hbatch := rx_call_batch hlaw h hrecv
  by_cases htaken : ∃ j < s.waiting.length, i = (s.reported.length + j) % drv.num
  · obtain ⟨j, hj, rfl⟩ := htaken
    exact .inl ⟨j, _, List.getElem?_eq_getElem hj, rfl, hbatch.handed j hj⟩
  · have hother : ∀ j < s.waiting.length, i ≠ (s.reported.length + j) % drv.num :=
      fun j hj heq => htaken ⟨j, hj, heq⟩
    refine .inr ⟨h.free i hi fun k hlow hhigh => ?_, hbatch.kept i hother⟩
    have hk := hother (k - s.reported.length) (by omega)
    rwa [Nat.add_sub_cancel' hlow] at hk

/-- No descriptor stays completed. -/
theorem rx_call_handed (hlaw : RxLawful drv card size capacity regsOk fits)
    (h : RxInv drv card size capacity regsOk fits s)
    (hrecv : recv s.ring = drv.recievePackage s.ring) (hi : i < drv.num) :
    drv.completed ((recv s.ring).rxDesc i) = false := by
  rcases rx_call_desc hlaw h hrecv hi with ⟨-, -, -, -, hback⟩ | ⟨hfree, hsame⟩
  · rw [hback]
    exact hlaw.handBack _
  · rwa [hsame]

/-- A call with at most 32 frames waiting stays inside `packege_desc_buffer`. -/
theorem rx_call_sound (hlaw : RxLawful drv card size capacity regsOk fits)
    (h : RxInv drv card size capacity regsOk fits s)
    (hrecv : recv s.ring = drv.recievePackage s.ring) (hfew : s.waiting.length ≤ 32) :
    CallSound drv s (s.call recv) where
  count := rx_call_count hlaw h hrecv
  entries := fun _ _ => rx_call_entries hlaw h hrecv
  all := rx_call_reports hlaw h hrecv
  table := fun i hi => by
    show (recv s.ring).packegeDescBuffer i = s.ring.packegeDescBuffer i
    rw [(rx_call_batch hlaw h hrecv).behind i (by omega) (by omega), cleared_behind (by omega)]
  handed := fun _ => rx_call_handed hlaw h hrecv

/-- A call that takes frames that fit. -/
theorem rx_call_inv (hlaw : RxLawful drv card size capacity regsOk fits)
    (h : RxInv drv card size capacity regsOk fits s)
    (hrecv : recv s.ring = drv.recievePackage s.ring) (hfits : ∀ frame ∈ s.waiting, fits frame) :
    RxInv drv card size capacity regsOk fits (s.call recv) := by
  have hbatch := rx_call_batch hlaw h hrecv
  have hreports := rx_call_reports hlaw h hrecv
  have hlength : (s.call recv).reported.length = s.arrived.length := by
    rw [hreports, List.length_map]
  -- neither the registers nor the descriptors change what is offered
  have hregs : ∀ rx, card.offered (recv s.ring).regs rx = card.offered s.ring.regs rx :=
    hbatch.regs (fun _ regs => ∀ rx, card.offered regs rx = card.offered s.ring.regs rx)
      (fun q regs hsame rx => (hlaw.offersRegs _ _ _).trans (hsame rx)) fun _ => rfl
  constructor
  case rxCur =>
      rw [hlength, h.waiting_length]
      exact hbatch.rxCur
  case head => exact h.head
  case le => exact hlength.le
  case room =>
      rw [hlength]
      exact Nat.le_add_right _ _
  case order =>
      rw [hlength, hreports]
      show _ = (s.arrived.take s.arrived.length).map _
      rw [List.take_length]
  case waiting =>
      intro k frame hlow hk
      have hlt := (List.getElem?_eq_some_iff.mp hk).1
      exact absurd hlt (Nat.not_lt.mpr (hlength ▸ hlow))
  case free => exact fun i hi _ => rx_call_handed hlaw h hrecv hi
  case offered =>
      intro i hi _
      show card.offered (recv s.ring).regs ((recv s.ring).rxDesc i) = size
      rw [hregs]
      rcases rx_call_desc hlaw h hrecv hi with ⟨k, frame, hk, hslot, hback⟩ | ⟨hfree, hsame⟩
      · rw [hback, hlaw.offersBack, hslot]
        have hfit := hfits frame (List.mem_of_getElem? hk)
        rw [RxSession.waiting, List.getElem?_drop] at hk
        exact h.fitting _ frame (by omega) hk hfit
      · rw [hsame]
        exact h.offered i hi hfree
  case fitting =>
      intro k frame hlow hk
      have hlt := (List.getElem?_eq_some_iff.mp hk).1
      exact absurd hlt (Nat.not_lt.mpr (hlength ▸ hlow))
  case regs =>
      rw [hlength, h.waiting_length]
      exact hbatch.regs regsOk hlaw.notify h.regs

/-- A ring as it is set up. -/
theorem rx_start_inv {ring : RxRing δ ρ} (hcur : ring.rxCur = 0)
    (hfree : ∀ i < drv.num, drv.completed (ring.rxDesc i) = false)
    (hoffered : ∀ i < drv.num, card.offered ring.regs (ring.rxDesc i) = size)
    (hregs : regsOk 0 ring.regs) : RxInv drv card size capacity regsOk fits (.start ring) where
  rxCur := by rw [RxSession.start, hcur, List.length_nil, Nat.zero_mod]
  head := by rw [RxSession.start, List.length_nil, Nat.zero_mod]
  le := le_rfl
  room := Nat.zero_le _
  order := rfl
  waiting := fun k frame _ hk => by
    rw [RxSession.start, List.getElem?_nil] at hk
    cases hk
  free := fun i hi _ => hfree i hi
  offered := fun i hi _ => hoffered i hi
  fitting := fun k frame _ hk => by
    rw [RxSession.start, List.getElem?_nil] at hk
    cases hk
  regs := hregs

/-- A driver that keeps to the rules is sound in the runs whose calls take at most 32 frames, all of
which fit. -/
theorem rx_sound (hlaw : RxLawful drv card size capacity regsOk fits) {ring : RxRing δ ρ}
    (hrecv : ∀ ring, recv ring = drv.recievePackage ring) (hcur : ring.rxCur = 0)
    (hfree : ∀ i < drv.num, drv.completed (ring.rxDesc i) = false)
    (hoffered : ∀ i < drv.num, card.offered ring.regs (ring.rxDesc i) = size)
    (hregs : regsOk 0 ring.regs)
    (hgood : ∀ s, s.waiting.length ≤ capacity → good s .recieve →
      s.waiting.length ≤ 32 ∧ ∀ frame ∈ s.waiting, fits frame) :
    RxSound drv recv card size good ring := by
  intro s hrun
  have hfew : ∀ s, RxInv drv card size capacity regsOk fits s → good s .recieve →
      s.waiting.length ≤ 32 ∧ ∀ frame ∈ s.waiting, fits frame := fun s hs => by
    have hlength := hs.waiting_length
    have hroom := hs.room
    exact hgood s (by omega)
  have hinv := hrun.invariant (RxInv drv card size capacity regsOk fits)
    (rx_start_inv hcur hfree hoffered hregs) fun s event s' hs hg hstep => by
      cases event with
      | complete frame rx =>
          obtain ⟨howns, hcompletes, rfl⟩ := hstep
          exact rx_complete_inv hlaw hs howns hcompletes
      | recieve =>
          obtain rfl : s' = s.call recv := hstep
          exact rx_call_inv hlaw hs (hrecv _) (hfew s hs hg).2
  exact ⟨hinv.order, hinv.offered, fun hg =>
    rx_call_sound hlaw hinv (hrecv _) (hfew s hinv hg).1⟩

end Runs

end Sirius.Net
