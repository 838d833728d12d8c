import Sirius.Net.Vmnet

/-!
# The receive rings of the drivers

`e1000.c`, `pcnet.c`, `rtl8169.c` and `vmnet.c` under `kernel/driver/net`. The rings of e1000 and
pcnet have as many descriptors as `packege_desc_buffer` has entries, so no call can write behind it,
and their length fields are not what a descriptor offers. The other two have 256 descriptors, and
rtl8169 also hands its descriptors back with the length of the last frame as the size of the buffer.
-/

namespace Sirius.Net

open Library

/-! ### e1000 -/

/-- `struct e1000_rx_desc`, where `buffer` is the memory that the address points to. -/
structure E1000RxDesc where
  buffer : Bytes
  length : BitVec 16
  status : BitVec 8

/-- `REG_RCTRL` and `REG_RXDESCTAIL` -/
structure E1000Regs where
  rctrl : BitVec 32
  rxDescTail : Nat

/-- `E1000_NUM_RX_DESC` -/
def e1000NumRxDesc : Nat := 32

/-- The constants `RCTL_BSIZE` of `e1000.h`, which are bits 16, 17 and 25. -/
def rctlBsize : List (BitVec 32 × Nat) :=
  [(3#32 <<< 16, 256), (2#32 <<< 16, 512), (1#32 <<< 16, 1024), (0#32 <<< 16, 2048),
    (3#32 <<< 16 ||| 1#32 <<< 25, 4096), (2#32 <<< 16 ||| 1#32 <<< 25, 8192),
    (1#32 <<< 16 ||| 1#32 <<< 25, 16384)]

/-- The size of the buffers in `REG_RCTRL`. -/
def rctlBufferSize (rctrl : BitVec 32) : Nat :=
  (rctlBsize.lookup (rctrl &&& (3#32 <<< 16 ||| 1#32 <<< 25))).getD 0

/-- The receive part of `init_e1000`. -/
def initE1000 (s : RxRing E1000RxDesc E1000Regs) : RxRing E1000RxDesc E1000Regs :=
  -- RCTL_EN, RCTL_SBP, RCTL_BAM, RCTL_SECRC, RCTL_UPE, RCTL_MPE, RCTL_LBM_NONE, RTCL_RDMTS_HALF
  -- and RCTL_BSIZE_8192
  let rctl := 1#32 <<< 1 ||| 1#32 <<< 2 ||| 1#32 <<< 15 ||| 1#32 <<< 26 ||| 1#32 <<< 3 |||
    1#32 <<< 4 ||| 0#32 <<< 6 ||| 0#32 <<< 8 ||| (2#32 <<< 16 ||| 1#32 <<< 25)
  { s with
    rxDesc := fun i => { s.rxDesc i with status := 0#8, length := 8192#16 }
    rxCur := 0
    regs := ⟨rctl, e1000NumRxDesc - 1⟩ }

/-- The loop of `e1000_recieve_package` clears bit 0 of the status and moves the tail to the
descriptor. -/
def e1000 : RxDriver E1000RxDesc E1000Regs where
  num := e1000NumRxDesc
  completed := fun rx => rx.status &&& 0x1#8 ≠ 0#8
  length := E1000RxDesc.length
  buffer := E1000RxDesc.buffer
  handBack := fun rx => { rx with status := rx.status &&& ~~~1#8 }
  notify := fun oldCur regs => { regs with rxDescTail := oldCur }

/-- `e1000_recieve_package` -/
def e1000RecievePackage : RxRing E1000RxDesc E1000Regs → RxRing E1000RxDesc E1000Regs :=
  e1000.recievePackage

/-- The card owns the descriptors up to the one at the tail, which it leaves alone. -/
def e1000Card : RxCard E1000RxDesc E1000Regs where
  owns := fun regs head _ => head ≠ regs.rxDescTail
  completes := fun frame _ rx' =>
    rx'.status &&& 0x1#8 ≠ 0#8 ∧ rx'.length = frame.length ∧ rx'.buffer = frame.bytes
  offered := fun regs _ => rctlBufferSize regs.rctrl

/-! ### pcnet -/

/-- `struct RxDesc` of `pcnet.h`, where `buffer` is the memory that the address points to. -/
structure PcnetRxDesc where
  buffer : Bytes
  bufLength : BitVec 16
  status : BitVec 16
  msgLength : BitVec 32

/-- `PCNET_RX_BUF_NUM` -/
def pcnetRxBufNum : Nat := 32

/-- The receive part of `pcnet_setup_dma_map_buf`. -/
def pcnetSetupDmaMapBuf (s : RxRing PcnetRxDesc Unit) : RxRing PcnetRxDesc Unit :=
  let bcnt := -8192#16
  let bcnt := bcnt &&& 0x0fff#16
  let bcnt := bcnt ||| 0xf000#16
  { s with
    rxDesc := fun i => { s.rxDesc i with bufLength := bcnt, status := 0x8000#16 }
    rxCur := 0 }

/-- The loop of `pcnet_recieve_package` sets bit 0x8000 of the status. -/
def pcnet : RxDriver PcnetRxDesc Unit where
  num := pcnetRxBufNum
  completed := fun rx => rx.status &&& 0x8000#16 = 0#16
  length := fun rx => ((rx.msgLength &&& 0xfff#32) - 4#32).setWidth 16
  buffer := PcnetRxDesc.buffer
  handBack := fun rx => { rx with status := rx.status ||| 0x8000#16 }
  notify := fun _ regs => regs

/-- `pcnet_recieve_package` -/
def pcnetRecievePackage : RxRing PcnetRxDesc Unit → RxRing PcnetRxDesc Unit := pcnet.recievePackage

/-- The card counts the checksum of a frame in `msg_length`; `buf_length` is the size of the buffer
as a two's complement, and the card does not write it. -/
def pcnetCard : RxCard PcnetRxDesc Unit where
  owns := fun _ _ rx => rx.status &&& 0x8000#16 ≠ 0#16
  completes := fun frame rx rx' =>
    rx'.status &&& 0x8000#16 = 0#16 ∧
      (rx'.msgLength &&& 0xfff#32).toNat = frame.length.toNat + 4 ∧ rx'.buffer = frame.bytes ∧
      rx'.bufLength = rx.bufLength
  offered := fun _ rx => (-rx.bufLength).toNat

/-! ### rtl8169 -/

/-- `struct RxDesc` of `rtl8169.h`, where `buffer` is the memory that the address points to. -/
structure ReRxDesc where
  buffer : Bytes
  frameLength : BitVec 14
  eor : BitVec 1
  own : BitVec 1

/-- `RE_RX_BUF_NUM` -/
def reRxBufNum : Nat := 256

/-- `re_setup_rx_desc`, after `re_setup_dma_map_buf`. -/
def reSetupRxDesc (s : RxRing ReRxDesc Unit) : RxRing ReRxDesc Unit :=
  { s with
    rxDesc := fun i =>
      if i = reRxBufNum - 1 then { s.rxDesc i with frameLength := 8192#14, eor := 1#1, own := 1#1 }
      else { s.rxDesc i with frameLength := 8192#14, own := 1#1 }
    rxCur := 0 }

/-- The loop of `re_recieve_package` sets `OWN`, and nothing else. -/
def re : RxDriver ReRxDesc Unit where
  num := reRxBufNum
  completed := fun rx => rx.own = 0#1
  length := fun rx => rx.frameLength.setWidth 16
  buffer := ReRxDesc.buffer
  handBack := fun rx => { rx with own := 1#1 }
  notify := fun _ regs => regs

/-- `re_recieve_package` -/
def reRecievePackage : RxRing ReRxDesc Unit → RxRing ReRxDesc Unit := re.recievePackage

/-- `Frame_Length` is the size of the buffer in a descriptor of the card, and the length of the frame
in one that it has completed. -/
def reCard : RxCard ReRxDesc Unit where
  owns := fun _ _ rx => rx.own = 1#1
  completes := fun frame rx rx' =>
    rx'.own = 0#1 ∧ rx'.frameLength.setWidth 16 = frame.length ∧ rx'.buffer = frame.bytes ∧
      rx'.eor = rx.eor
  offered := fun _ rx => rx.frameLength.toNat

/-! ### vmnet -/

/-- The device with a receive ring. -/
def RxRing.vmnet (ring : RxRing RxDesc Unit) : Vmnet :=
  ⟨ring.rxDesc, ring.rxCur, 0, ring.packegeDescBuffer⟩

/-- The part of the card is played by `vmnet_send_package`, which takes up to 8192 bytes. -/
def vmnetCard : RxCard RxDesc Unit where
  owns := fun _ _ rx => rx.received = true
  completes := fun frame _ rx' =>
    rx'.received = false ∧ rx'.length = frame.length ∧ rx'.buffer = frame.bytes
  offered := fun _ _ => 8192

/-- Sending into a descriptor that was received is a step of the card. -/
theorem vmnet_send_completes {desc : Frame} {vm : Vmnet} (hsize : desc.buffersize.toNat ≤ 8192)
    (hfree : (vm.rxDesc vm.txCur).received = true) :
    ∃ frame rx, vmnetCard.completes frame (vm.rxDesc vm.txCur) rx ∧
      vmnetCard.owns () vm.txCur (vm.rxDesc vm.txCur) ∧
      (vmnetSendPackage desc vm).2.rxDesc = Function.update vm.rxDesc vm.txCur rx ∧
      (vmnetSendPackage desc vm).2.txCur = (vm.txCur + 1) % vmnetBufNum := by
  rw [vmnetSendPackage, if_neg (Nat.not_lt.mpr hsize)]
  exact ⟨⟨_, _⟩, _, ⟨by simp [RxDesc.received], rfl, rfl⟩, hfree, rfl, rfl⟩

/-! ### The drivers keep to the rules -/

/-- Where the mark of a descriptor says whose it is, there is room as long as one is the card's. -/
theorem room_of_mark {δ ρ : Type} {drv : RxDriver δ ρ} {card : RxCard δ ρ}
    (howns : ∀ regs head rx, card.owns regs head rx → drv.completed rx = false) (r w : Nat)
    (regs : ρ) (rx : δ) (hroom : w ≤ r + drv.num) (hfull : w = r + drv.num → drv.completed rx = true)
    (hown : card.owns regs (w % drv.num) rx) : w < r + drv.num := by
  refine lt_of_le_of_ne hroom fun heq => ?_
  have hfree := howns _ _ _ hown
  rw [hfull heq] at hfree
  cases hfree

/-- After `q` frames the tail is at the descriptor before the next one. -/
def e1000RegsOk (q : Nat) (regs : E1000Regs) : Prop := regs.rxDescTail = (q + 31) % 32

theorem e1000_lawful :
    RxLawful e1000 e1000Card 8192 31 (fun q regs => e1000RegsOk q regs ∧
      rctlBufferSize regs.rctrl = 8192) fun _ => True where
  pos := by decide
  small := by decide
  fewer := by decide
  handBack := fun rx => by
    have hbit : ∀ f : BitVec 8, (f &&& ~~~1#8) &&& 0x1#8 = 0#8 := by decide
    simp only [e1000, hbit, ne_eq, not_true_eq_false, decide_false]
  completed := fun frame rx rx' ⟨hstatus, hlength, hbuffer⟩ =>
    ⟨decide_eq_true hstatus, hlength, hbuffer⟩
  notify := fun q regs ⟨_, hsize⟩ => by
    refine ⟨?_, hsize⟩
    show q % 32 = (q + 1 + 31) % 32
    omega
  room := fun r w regs rx ⟨htail, _⟩ hle hroom _ howns => by
    have hother : w % 32 ≠ regs.rxDescTail := howns
    rw [htail] at hother
    refine lt_of_le_of_ne hroom fun heq => hother ?_
    rw [heq]
  offersBack := fun _ _ => rfl
  offersFrame := fun _ _ _ _ _ _ h => h
  offersRegs := fun _ _ _ => rfl

theorem pcnet_lawful :
    RxLawful pcnet pcnetCard 4096 pcnet.num (fun _ _ => True) fun _ => True where
  pos := by decide
  small := by decide
  fewer := le_rfl
  handBack := fun rx => decide_eq_false (received_or rx.status)
  completed := fun frame rx rx' ⟨hstatus, hlength, hbuffer, _⟩ => by
    refine ⟨decide_eq_true hstatus, BitVec.eq_of_toNat_eq ?_, hbuffer⟩
    have hlt := frame.length.isLt
    show (((rx'.msgLength &&& 0xfff#32) - 4#32).setWidth 16).toNat = _
    rw [BitVec.toNat_setWidth, BitVec.toNat_sub, hlength, BitVec.toNat_ofNat]
    omega
  notify := fun _ _ _ => trivial
  room := fun r w regs rx _ _ => room_of_mark (fun _ _ _ howns => decide_eq_false howns) r w regs rx
  offersBack := fun _ _ => rfl
  offersFrame := fun frame regs rx rx' _ ⟨_, _, _, hsame⟩ hsize => by
    show (-rx'.bufLength).toNat = 4096
    rw [hsame]
    exact hsize
  offersRegs := fun _ _ _ => rfl

/-- A descriptor of rtl8169 offers as much as before after a frame of 8192 bytes. -/
theorem re_lawful :
    RxLawful re reCard 8192 re.num (fun _ _ => True) fun frame => frame.length = 8192#16 where
  pos := by decide
  small := by decide
  fewer := le_rfl
  handBack := fun _ => rfl
  completed := fun frame rx rx' ⟨hown, hlength, hbuffer, _⟩ =>
    ⟨decide_eq_true hown, hlength, hbuffer⟩
  notify := fun _ _ _ => trivial
  room := fun r w regs rx _ _ => room_of_mark (fun _ _ rx howns => by
    have hown : rx.own = 1#1 := howns
    simp only [re, hown]
    decide) r w regs rx
  offersBack := fun _ _ => rfl
  offersFrame := fun frame regs rx rx' hfits ⟨_, hlength, _⟩ _ => by
    show rx'.frameLength.toNat = 8192
    have hnat := congrArg BitVec.toNat (hlength.trans hfits)
    rw [BitVec.toNat_setWidth, BitVec.toNat_ofNat] at hnat
    have hlt := rx'.frameLength.isLt
    omega
  offersRegs := fun _ _ _ => rfl

theorem vmnet_lawful :
    RxLawful vmnet vmnetCard 8192 vmnet.num (fun _ _ => True) fun _ => True where
  pos := by decide
  small := by decide
  fewer := le_rfl
  handBack := fun rx => by
    show (!(vmnet.handBack rx).received) = false
    rw [received_hand_back, Bool.not_true]
  completed := fun frame rx rx' ⟨hwaiting, hlength, hbuffer⟩ => by
    refine ⟨?_, hlength, hbuffer⟩
    show (!rx'.received) = true
    rw [hwaiting, Bool.not_false]
  notify := fun _ _ _ => trivial
  room := fun r w regs rx _ _ => room_of_mark (fun _ _ rx howns => by
    have hreceived : rx.received = true := howns
    show (!rx.received) = false
    rw [hreceived, Bool.not_true]) r w regs rx
  offersBack := fun _ _ => rfl
  offersFrame := fun _ _ _ _ _ _ h => h
  offersRegs := fun _ _ _ => rfl

/-! ### Runs -/

/-- A call takes no more frames than `packege_desc_buffer` has entries. -/
def TakesFew {δ ρ : Type} (s : RxSession δ ρ) : RxEvent δ → Prop
  | .complete _ _ => True
  | .recieve => s.waiting.length ≤ 32

/-- And all of them have the length of the buffer. -/
def TakesFull {δ ρ : Type} (s : RxSession δ ρ) : RxEvent δ → Prop
  | .complete _ _ => True
  | .recieve => s.waiting.length ≤ 32 ∧ ∀ frame ∈ s.waiting, frame.length = 8192#16

/-- `init_e1000` asks for buffers of 8 KiB. -/
theorem init_e1000_size (ring : RxRing E1000RxDesc E1000Regs) :
    rctlBufferSize (initE1000 ring).regs.rctrl = 8192 := by
  simp only [initE1000]
  decide

theorem re_setup_desc (ring : RxRing ReRxDesc Unit) (i : Nat) :
    ((reSetupRxDesc ring).rxDesc i).own = 1#1 ∧
      ((reSetupRxDesc ring).rxDesc i).frameLength = 8192#14 := by
  simp only [reSetupRxDesc]
  split <;> exact ⟨rfl, rfl⟩

/-- A frame of 64 bytes. -/
def shortFrame : RxFrame := ⟨64#16, fun _ => 0#8⟩

/-- A descriptor with the frame. -/
def shortRx : RxDesc := ⟨fun _ => 0#8, 64#16, 0#16⟩

/-- The device as it is set up, with a mark in all entries of `packege_desc_buffer`. -/
def quietVmnet : Vmnet :=
  vmnetMapBuf ⟨fun _ => shortRx, 0, 0, fun _ => ⟨7#32, 0#32, 0#32, none⟩⟩

/-- The descriptors after `n` frames. -/
def burstDesc (n i : Nat) : RxDesc := if i < n then shortRx else quietVmnet.rxDesc i

/-- The device with `n` frames in the ring that it has not looked at. -/
def vmnetBurst (n : Nat) : RxSession RxDesc Unit :=
  ⟨{ quietVmnet.ring with rxDesc := burstDesc n }, n, List.replicate n shortFrame, []⟩

theorem burst_desc_succ (n : Nat) : burstDesc (n + 1) = Function.update (burstDesc n) n shortRx := by
  funext i
  by_cases hi : i = n
  · subst hi
    rw [Function.update_self]
    exact if_pos (Nat.lt_succ_self i)
  · rw [Function.update_of_ne hi]
    exact if_congr (Nat.lt_succ_iff_lt_or_eq.trans (or_iff_left hi)) rfl rfl

/-- The frames of a burst arrive one by one. -/
theorem vmnet_burst_run {recv : RxRing RxDesc Unit → RxRing RxDesc Unit} (n : Nat) (hn : n < 256) :
    Run (RxStep recv vmnetCard vmnet.num) (fun _ _ => True) (.start quietVmnet.ring)
      (vmnetBurst n) := by
  induction n with
  | zero => exact Run.refl
  | succ n ih =>
      refine (ih (by omega)).snoc (.complete shortFrame shortRx) trivial ⟨?_, ⟨rfl, rfl, rfl⟩, ?_⟩
      · show (burstDesc n n).received = true
        rw [burstDesc, if_neg (Nat.lt_irrefl n)]
        exact map_buf_received _ n
      · have hhead : (n + 1) % vmnet.num = n + 1 := Nat.mod_eq_of_lt hn
        simp only [vmnetBurst, RxSession.complete, burst_desc_succ, hhead, List.replicate_succ']

end Sirius.Net
