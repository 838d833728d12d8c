import Sirius.Library.Runs
import Sirius.Net.Vmnet

/-!
# Loopback delivery

Runs of `vmnet_udp_send` and `handler_vmnet`. `LoopbackInv` says that the packets sent but not yet
received lie in the descriptors from `rx_cur` up to `tx_cur`, and that every other descriptor is
marked as received. The two indices are the numbers of packets received and sent modulo 256, so
the invariant does not see where the ring wraps.
-/

namespace Sirius.Net

open Library

/-- The device, the arguments of the calls of `vmnet_udp_send` and the calls of
`socket_server_receive` so far. -/
structure Loopback where
  vm : Vmnet
  sent : List Transmission
  calls : List Packet

/-- What happens: a packet is sent, where `heap` holds the bytes that `malloc` returns, or the
handler runs. -/
inductive LoopbackEvent
  | send (t : Transmission) (heap : Bytes)
  | handle

/-- `vmnet_udp_send` with the arguments of a transmission. -/
def Transmission.vmnetSend (t : Transmission) (heap : Bytes) (s : Vmnet) : Vmnet :=
  (vmnetUdpSend heap t.srcAddress t.dstAddress t.srcPort t.dstPort t.data t.length s).2

/-- One event. -/
def Loopback.after (s : Loopback) : LoopbackEvent → Loopback
  | .send t heap => { s with vm := t.vmnetSend heap s.vm, sent := s.sent ++ [t] }
  | .handle => { s with vm := (handlerVmnet s.vm).2, calls := s.calls ++ (handlerVmnet s.vm).1 }

/-- A step of the device. -/
def LoopbackStep (s : Loopback) (event : LoopbackEvent) (s' : Loopback) : Prop :=
  s' = s.after event

/-- A datagram is sent, short enough for a buffer, and it leaves at most 32 packets pending. -/
def LoopbackEvent.Allowed (s : Loopback) : LoopbackEvent → Prop
  | .send t _ => t.transport = .udp ∧ t.length ≤ 8192 - 20 ∧
      s.sent.length + 1 ≤ s.calls.length + 32
  | .handle => True

/-- The runs of the device. -/
abbrev LoopbackRun : Loopback → Loopback → Prop :=
  Run LoopbackStep fun s event => event.Allowed s

/-- Call number `k` is the one for packet number `k`. -/
def DeliversInOrder (sent : List Transmission) (calls : List Packet) : Prop :=
  ∀ (k : Nat) (p : Packet), calls[k]? = some p → ∃ t, sent[k]? = some t ∧ t.Extracts p

variable {s : Loopback} {vm : Vmnet} {t : Transmission} {heap buf : Bytes}
  {prd : Nat → Descriptor} {m n r d i k : Nat}

/-! ### One packet -/

/-- A buffer holds a packet with the given arguments, as `vmnet_udp_send` leaves it there. -/
structure VmnetBytes (buf : Bytes) (t : Transmission) : Prop where
  protocol : buf 10 = 17#8
  extracts : t.Extracts (vmnetPacket buf)

/-- A descriptor holds a packet that has not been received. -/
structure RxDesc.Holds (rx : RxDesc) (t : Transmission) : Prop where
  waiting : rx.received = false
  length : rx.length ≠ 0#16
  bytes : VmnetBytes rx.buffer t

/-- The arithmetic of the receiver undoes that of the sender. -/
theorem vmnet_len (h : n ≤ 8192 - 20) :
    ((htons (htons ((12#32 + BitVec.ofNat 32 (8 + n)).setWidth 16))).setWidth 32 - 12#32 -
      8#32).toNat = n := by
  rw [htons_htons]
  simp only [BitVec.toNat_sub, BitVec.toNat_setWidth, BitVec.toNat_add, BitVec.toNat_ofNat]
  omega

/-- What `vmnet_udp_send` does: the descriptor at `tx_cur` holds the packet. -/
theorem vmnet_send_spec (htransport : t.transport = .udp) (hlength : t.length ≤ 8192 - 20)
    (heap : Bytes) (vm : Vmnet) :
    ∃ rx : RxDesc, rx.Holds t ∧ t.vmnetSend heap vm = { vm with
      rxDesc := Function.update vm.rxDesc vm.txCur rx
      txCur := (vm.txCur + 1) % vmnetBufNum } := by
  have hlen : (12#32 + BitVec.ofNat 32 (8 + t.length)).toNat = 20 + t.length := by
    rw [BitVec.toNat_add, BitVec.toNat_ofNat, BitVec.toNat_ofNat]
    omega
  have hshort : ¬ 8192 < (12#32 + BitVec.ofNat 32 (8 + t.length)).toNat := by omega
  simp only [Transmission.vmnetSend, vmnetUdpSend, vmipv4Send, vmnetSendPackage, hshort, if_false]
  refine ⟨_, ⟨by simp [RxDesc.received], ?_, ?_⟩, rfl⟩
  · intro hzero
    have hnat := congrArg BitVec.toNat hzero
    rw [BitVec.toNat_setWidth, hlen, BitVec.toNat_ofNat] at hnat
    omega
  · show VmnetBytes (copyBytes _ 0 _ 0 (12#32 + BitVec.ofNat 32 (8 + t.length)).toNat) t
    rw [hlen]
    -- all bytes of the packet are copied into the buffer of the descriptor
    have hcopy : ∀ {m m' : Bytes} {i : Nat}, i < 20 + t.length →
        copyBytes m 0 m' 0 (20 + t.length) i = m' i := fun {m m' i} hi => by
      have hinside : copyBytes m 0 m' 0 (20 + t.length) (0 + i) = m' i := copy_bytes_start hi
      rwa [Nat.zero_add] at hinside
    have hhalf : ∀ {m m' : Bytes} {a : Nat}, a < 19 →
        half (copyBytes m 0 m' 0 (20 + t.length)) a = half m' a :=
      fun ha => half_congr fun k hk => hcopy (by omega)
    have hword : ∀ {m m' : Bytes} {a : Nat}, a < 17 →
        word (copyBytes m 0 m' 0 (20 + t.length)) a = word m' a :=
      fun ha => word_congr fun k hk => hcopy (by omega)
    constructor
    case protocol =>
        rw [hcopy (by omega)]
        simp (disch := omega) only [putHalf, write_half_outside, Function.update_of_ne,
          Function.update_self]
    case extracts =>
        constructor
        case protocol => rw [Transmission.protocol, htransport]; rfl
        case addresses =>
            simp (disch := omega) only [vmnetPacket, hword, word_put_half_other,
              word_update_other, word_put_word_same, word_put_word_other, and_self]
        case ports =>
            simp (disch := omega) only [vmnetPacket, vmnetUdpPackage, hhalf, half_put_half_other,
              half_update_other, half_put_word_other, half_copy_other, half_put_half_same,
              htons_htons, and_self]
        case length =>
            simp (disch := omega) only [vmnetPacket, hhalf, half_put_half_same]
            exact vmnet_len hlength
        case payload =>
            intro i hi
            show copyBytes _ 0 _ 0 (20 + t.length) (20 + i) = t.data i
            rw [hcopy (by omega)]
            simp (disch := omega) only [vmnetUdpPackage, putHalf, putWord, write_half_outside,
              write_word_outside, Function.update_of_ne]
            exact copy_bytes_start hi

/-- A descriptor of `packege_desc_buffer` with a packet. -/
def Descriptor.Filled (prd : Descriptor) (rx : RxDesc) : Prop :=
  prd.flag = 0#32 ∧ prd.buffersize = rx.length.setWidth 32 ∧ prd.buf = some rx.buffer

/-- The call for a packet. -/
theorem handler_one_spec {prd : Descriptor} {rx : RxDesc} (hfilled : prd.Filled rx)
    (hholds : rx.Holds t) : ∃ p, handlerVmnetOne prd = some p ∧ t.Extracts p := by
  obtain ⟨hflag, hsize, hbuf⟩ := hfilled
  have hpositive : prd.buffersize ≠ 0#32 := by
    rw [hsize]
    intro hzero
    refine hholds.length (BitVec.eq_of_toNat_eq ?_)
    have hlt := rx.length.isLt
    have hnat := congrArg BitVec.toNat hzero
    rw [BitVec.toNat_setWidth, BitVec.toNat_ofNat] at hnat
    rw [BitVec.toNat_ofNat]
    omega
  have hskip : prd.skipped = false := by simp [Descriptor.skipped, hflag, hpositive, hbuf]
  refine ⟨_, ?_, hholds.bytes.extracts⟩
  simp only [handlerVmnetOne, hskip, hbuf, hholds.bytes.protocol, Bool.false_eq_true, if_false]
  rfl

/-- The calls for a batch of packets. -/
theorem handler_loop_spec (prd : Nat → Descriptor) (ts : List Transmission)
    (h : ∀ j t, ts[j]? = some t → ∃ p, handlerVmnetOne (prd (i + j)) = some p ∧ t.Extracts p) :
    (handlerVmnetLoop prd ts.length i).length = ts.length ∧
      DeliversInOrder ts (handlerVmnetLoop prd ts.length i) := by
  induction ts generalizing i with
  | nil => exact ⟨rfl, fun k p hp => by simp [handlerVmnetLoop] at hp⟩
  | cons t ts ih =>
      obtain ⟨p, hp, hextracts⟩ := h 0 t rfl
      rw [Nat.add_zero] at hp
      obtain ⟨hlength, horder⟩ := ih (i := i + 1) fun j u hj => by
        rw [Nat.add_assoc, Nat.add_comm 1 j]
        exact h (j + 1) u hj
      rw [List.length_cons, handlerVmnetLoop, hp]
      refine ⟨by simp [hlength], fun k q hq => ?_⟩
      cases k with
      | zero =>
          obtain rfl : p = q := Option.some.inj hq
          exact ⟨t, rfl, hextracts⟩
      | succ k => exact horder k q hq

/-! ### One batch -/

/-- The `m` packets from number `r` on were received into `packege_desc_buffer` from `d` on. -/
structure BatchReceived (vm vm' : Vmnet) (r d m : Nat) : Prop where
  rxCur : vm'.rxCur = (r + m) % vmnetBufNum
  txCur : vm'.txCur = vm.txCur
  taken : ∀ j < m, (vm'.rxDesc ((r + j) % vmnetBufNum)).received = true
  kept : ∀ i, (∀ j < m, i ≠ (r + j) % vmnetBufNum) → vm'.rxDesc i = vm.rxDesc i
  filled : ∀ j < m, (vm'.packegeDescBuffer (d + j)).Filled (vm.rxDesc ((r + j) % vmnetBufNum))
  earlier : ∀ i < d, ∀ rx, (vm.packegeDescBuffer i).Filled rx →
    (vm'.packegeDescBuffer i).Filled rx
  count : (vm'.packegeDescBuffer 0).count = (vm.packegeDescBuffer 0).count + BitVec.ofNat 32 m

theorem filled_iff_report {prd : Descriptor} {rx : RxDesc} :
    prd.Filled rx ↔ prd.report = (0#32, rx.length.setWidth 32, some rx.buffer) := by
  simp only [Descriptor.Filled, Descriptor.report, Prod.mk.injEq]

/-- The loop of `vmnet_recieve_package` receives the packets up to the first descriptor that is
marked. -/
theorem recieve_loop_spec (hn : m < n) (hring : m < vmnetBufNum)
    (hcur : vm.rxCur = r % vmnetBufNum)
    (hwaiting : ∀ j < m, (vm.rxDesc ((r + j) % vmnetBufNum)).received = false)
    (hend : (vm.rxDesc ((r + m) % vmnetBufNum)).received = true) :
    BatchReceived vm (recieveLoop n d vm) r d m := by
  have hbatch : Batch vmnet vm.ring (recieveLoop n d vm).ring r d m := by
    rw [ring_recieve_loop]
    refine recieve_loop_batch (fun rx => ?_) (Nat.zero_lt_succ 255) hn.le hring.le hcur
      (fun j hj => ?_) fun _ => ?_
    · show (!(vmnet.handBack rx).received) = false
      rw [received_hand_back, Bool.not_true]
    · show (!(vm.rxDesc ((r + j) % vmnetBufNum)).received) = true
      rw [hwaiting j hj, Bool.not_false]
    · show (!(vm.rxDesc ((r + m) % vmnetBufNum)).received) = false
      rw [hend, Bool.not_true]
  constructor
  case rxCur => exact hbatch.rxCur
  case txCur => exact tx_cur_recieve_loop n d vm
  case taken =>
      intro j hj
      have hback : (recieveLoop n d vm).rxDesc ((r + j) % vmnetBufNum) = _ := hbatch.handed j hj
      rw [hback]
      exact received_hand_back _
  case kept => exact hbatch.kept
  case filled => exact fun j hj => filled_iff_report.mpr (hbatch.filled j hj)
  case earlier =>
      intro i hi rx hfilled
      rw [filled_iff_report] at hfilled ⊢
      exact (hbatch.earlier i hi).trans hfilled
  case count => exact hbatch.count

/-- `handler_vmnet` with the packets `ts` pending, the first of which is number `r`: it makes their
calls and marks their descriptors. -/
theorem handler_vmnet_spec {ts : List Transmission} (hroom : ts.length ≤ 32)
    (hcur : vm.rxCur = r % vmnetBufNum)
    (hpending : ∀ j t, ts[j]? = some t → (vm.rxDesc ((r + j) % vmnetBufNum)).Holds t)
    (hend : (vm.rxDesc ((r + ts.length) % vmnetBufNum)).received = true) :
    (handlerVmnet vm).1.length = ts.length ∧ DeliversInOrder ts (handlerVmnet vm).1 ∧
      (handlerVmnet vm).2.rxCur = (r + ts.length) % vmnetBufNum ∧
      (handlerVmnet vm).2.txCur = vm.txCur ∧
      ∀ i, ((handlerVmnet vm).2.rxDesc i).received = true ∨
        ((∀ j < ts.length, i ≠ (r + j) % vmnetBufNum) ∧
          (handlerVmnet vm).2.rxDesc i = vm.rxDesc i) := by
  let ready : Vmnet := { vm with
    packegeDescBuffer := Function.update vm.packegeDescBuffer 0
      { flag := 0xffffffff#32, count := 0#32, buffersize := 0#32, buf := none } }
  have hreceived : BatchReceived ready (recieveLoop vmnetBufNum 0 ready) r 0 ts.length := by
    refine recieve_loop_spec (by simp only [vmnetBufNum]; omega)
      (by simp only [vmnetBufNum]; omega) hcur (fun j hj => ?_) hend
    exact (hpending j _ (List.getElem?_eq_getElem hj)).waiting
  have hvm : (handlerVmnet vm).2 = recieveLoop vmnetBufNum 0 ready := rfl
  generalize recieveLoop vmnetBufNum 0 ready = vm' at hreceived hvm
  -- the count in the first descriptor is that of the batch, which is far below 2^31
  have hcount : (vm'.packegeDescBuffer 0).count.toInt.toNat = ts.length := by
    have hzero : (ready.packegeDescBuffer 0).count = 0#32 := by
      simp only [ready, Function.update_self]
    rw [hreceived.count, hzero, BitVec.zero_add, BitVec.toInt_eq_toNat_of_lt]
    · rw [Int.toNat_natCast, BitVec.toNat_ofNat]
      omega
    · rw [BitVec.toNat_ofNat]
      omega
  have hcalls : (handlerVmnet vm).1 = handlerVmnetLoop vm'.packegeDescBuffer ts.length 0 := by
    rw [← hcount, ← hvm]
    rfl
  obtain ⟨hlength, horder⟩ := handler_loop_spec (i := 0) vm'.packegeDescBuffer ts
    fun j t hj => by
      obtain ⟨hlt, -⟩ := List.getElem?_eq_some_iff.mp hj
      exact handler_one_spec (hreceived.filled j hlt) (hpending j t hj)
  rw [hcalls, hvm]
  refine ⟨hlength, horder, hreceived.rxCur, hreceived.txCur, fun i => ?_⟩
  by_cases htaken : ∃ j < ts.length, i = (r + j) % vmnetBufNum
  · obtain ⟨j, hj, rfl⟩ := htaken
    exact .inl (hreceived.taken j hj)
  · have hfree : ∀ j < ts.length, i ≠ (r + j) % vmnetBufNum :=
      fun j hj heq => htaken ⟨j, hj, heq⟩
    exact .inr ⟨hfree, hreceived.kept i hfree⟩

/-! ### Runs -/

/-- The packets sent but not received are in the ring, in the order of sending, and all other
descriptors are marked as received. -/
structure LoopbackInv (s : Loopback) : Prop where
  rxCur : s.vm.rxCur = s.calls.length % vmnetBufNum
  txCur : s.vm.txCur = s.sent.length % vmnetBufNum
  le : s.calls.length ≤ s.sent.length
  room : s.sent.length ≤ s.calls.length + 32
  order : DeliversInOrder s.sent s.calls
  pending : ∀ k t, s.calls.length ≤ k → s.sent[k]? = some t →
    (s.vm.rxDesc (k % vmnetBufNum)).Holds t
  marked : ∀ i < vmnetBufNum, (∀ k, s.calls.length ≤ k → k < s.sent.length →
    i ≠ k % vmnetBufNum) → (s.vm.rxDesc i).received = true

/-- The device as `setup_vmnet` leaves it, where nothing was sent. -/
def Loopback.start (vm : Vmnet) : Loopback := ⟨vmnetMapBuf vm, [], []⟩

theorem loopback_start_inv (vm : Vmnet) : LoopbackInv (Loopback.start vm) where
  rxCur := rfl
  txCur := rfl
  le := le_rfl
  room := Nat.zero_le _
  order := fun k p hp => by simp [Loopback.start] at hp
  pending := fun k t _ ht => by simp [Loopback.start] at ht
  marked := fun i _ _ => map_buf_received vm i

/-- A packet sent goes into a free descriptor behind the pending ones. -/
theorem loopback_send_inv (h : LoopbackInv s) (t : Transmission) (heap : Bytes)
    (hallowed : (LoopbackEvent.send t heap).Allowed s) :
    LoopbackInv (s.after (.send t heap)) := by
  obtain ⟨htransport, hlength, hroom⟩ := hallowed
  obtain ⟨rx, hholds, hsend⟩ := vmnet_send_spec htransport hlength heap s.vm
  have hle := h.le
  have hlast : (s.sent ++ [t])[s.sent.length]? = some t := by simp
  have hbefore : ∀ {k}, k < s.sent.length → (s.sent ++ [t])[k]? = s.sent[k]? :=
    fun hk => List.getElem?_append_left hk
  -- a pending packet has another descriptor, since there are at most 32 of them
  have hslot : ∀ k, s.calls.length ≤ k → k < s.sent.length →
      k % vmnetBufNum ≠ s.sent.length % vmnetBufNum := by
    intro k hlow hhigh
    simp only [vmnetBufNum]
    omega
  simp only [Loopback.after, hsend]
  constructor
  case rxCur => exact h.rxCur
  case txCur =>
      show (s.vm.txCur + 1) % vmnetBufNum = (s.sent ++ [t]).length % vmnetBufNum
      rw [h.txCur, Nat.mod_add_mod, List.length_append, List.length_singleton]
  case le => simpa using Nat.le_succ_of_le hle
  case room => simpa using hroom
  case order =>
      intro k p hp
      obtain ⟨u, hu, hextracts⟩ := h.order k p hp
      obtain ⟨hk, -⟩ := List.getElem?_eq_some_iff.mp hu
      exact ⟨u, by rw [hbefore hk, hu], hextracts⟩
  case pending =>
      intro k u hlow hu
      obtain ⟨hk, -⟩ := List.getElem?_eq_some_iff.mp hu
      rw [List.length_append, List.length_singleton] at hk
      show (Function.update s.vm.rxDesc s.vm.txCur rx (k % vmnetBufNum)).Holds u
      rw [h.txCur]
      rcases Nat.lt_or_ge k s.sent.length with hold | hnew
      · rw [Function.update_of_ne (hslot k hlow hold)]
        rw [hbefore hold] at hu
        exact h.pending k u hlow hu
      · obtain rfl : k = s.sent.length := by omega
        obtain rfl : t = u := Option.some.inj (hlast.symm.trans hu)
        rwa [Function.update_self]
  case marked =>
      intro i hi hfree
      show (Function.update s.vm.rxDesc s.vm.txCur rx i).received = true
      have hlength : (s.sent ++ [t]).length = s.sent.length + 1 := by simp
      rw [hlength] at hfree
      rw [h.txCur, Function.update_of_ne (hfree _ hle (Nat.lt_succ_self _))]
      exact h.marked i hi fun k hlow hhigh => hfree k hlow (by omega)

/-- A run of the handler makes the calls for all pending packets. -/
theorem loopback_handle_inv (h : LoopbackInv s) :
    LoopbackInv (s.after .handle) ∧ (s.after .handle).calls.length = s.sent.length := by
  have hle := h.le
  have hroom := h.room
  have hlength : (s.sent.drop s.calls.length).length = s.sent.length - s.calls.length :=
    List.length_drop
  have hpending : ∀ j t, (s.sent.drop s.calls.length)[j]? = some t →
      (s.vm.rxDesc ((s.calls.length + j) % vmnetBufNum)).Holds t := by
    intro j t hj
    rw [List.getElem?_drop] at hj
    exact h.pending _ t (Nat.le_add_right _ _) hj
  -- behind the pending packets lies a free descriptor
  have hend : (s.vm.rxDesc ((s.calls.length + (s.sent.drop s.calls.length).length) %
      vmnetBufNum)).received = true := by
    refine h.marked _ (Nat.mod_lt _ (Nat.zero_lt_succ 255)) fun k hlow hhigh => ?_
    simp only [vmnetBufNum]
    omega
  obtain ⟨hcount, horder, hcur, htx, hmarked⟩ :=
    handler_vmnet_spec (by omega) h.rxCur hpending hend
  have hall : (s.calls ++ (handlerVmnet s.vm).1).length = s.sent.length := by
    rw [List.length_append]
    omega
  refine ⟨?_, hall⟩
  constructor
  case rxCur =>
      show (handlerVmnet s.vm).2.rxCur = (s.calls ++ (handlerVmnet s.vm).1).length % _
      rw [hcur, hall, hlength, Nat.add_sub_cancel' hle]
  case txCur => exact htx.trans h.txCur
  case le => exact hall.le
  case room => exact (Nat.le_add_right _ _).trans (Nat.add_le_add_right hall.ge 32)
  case order =>
      intro k p hp
      rcases Nat.lt_or_ge k s.calls.length with hold | hnew
      · have hbefore : (s.calls ++ (handlerVmnet s.vm).1)[k]? = some p := hp
        rw [List.getElem?_append_left hold] at hbefore
        exact h.order k p hbefore
      · have hbatch : (s.calls ++ (handlerVmnet s.vm).1)[k]? = some p := hp
        rw [List.getElem?_append_right hnew] at hbatch
        obtain ⟨t, ht, hextracts⟩ := horder _ p hbatch
        rw [List.getElem?_drop, Nat.add_sub_cancel' hnew] at ht
        exact ⟨t, ht, hextracts⟩
  case pending =>
      -- nothing is pending any more
      intro k t hlow ht
      obtain ⟨hlt, -⟩ := List.getElem?_eq_some_iff.mp ht
      have hlow' : s.sent.length ≤ k := hall ▸ hlow
      exact absurd hlt (Nat.not_lt.mpr hlow')
  case marked =>
      intro i hi _
      rcases hmarked i with hreceived | ⟨hfree, hkept⟩
      · exact hreceived
      · show ((handlerVmnet s.vm).2.rxDesc i).received = true
        rw [hkept]
        refine h.marked i hi fun k hlow hhigh => ?_
        obtain ⟨j, rfl⟩ := Nat.exists_eq_add_of_le hlow
        exact hfree j (by omega)

theorem loopback_run_inv (hrun : LoopbackRun (Loopback.start vm) s) : LoopbackInv s := by
  refine Run.invariant LoopbackInv hrun (loopback_start_inv vm) ?_
  rintro s event s' h hallowed rfl
  cases event with
  | send t heap => exact loopback_send_inv h t heap hallowed
  | handle => exact (loopback_handle_inv h).1

/-- In every state of every run the calls made so far are those for the first packets sent, in the
order of sending and with their values, and a run of the handler makes the calls for all packets
sent up to it. -/
theorem loopback_delivery (vm : Vmnet) (s : Loopback)
    (hrun : LoopbackRun (Loopback.start vm) s) :
    s.calls.length ≤ s.sent.length ∧ DeliversInOrder s.sent s.calls ∧
      (s.after .handle).calls.length = s.sent.length ∧
      DeliversInOrder s.sent (s.after .handle).calls := by
  have h := loopback_run_inv hrun
  obtain ⟨hinv, hall⟩ := loopback_handle_inv h
  exact ⟨h.le, h.order, hall, hinv.order⟩

/-- The largest payload is sent and waits in the ring; the handler then makes its call. -/
theorem loopback_delivery_largest :
    let s := (Loopback.start ⟨fun _ => ⟨fun _ => 0#8, 0#16, 0#16⟩, 0, 0,
      fun _ => ⟨0#32, 0#32, 0#32, none⟩⟩).after
        (.send ⟨.udp, 0x0100007f#32, 0x0100007f#32, 2000#16, 53#16, fun _ => 7#8, 8172⟩ fun _ => 0#8)
    s.calls.length = 0 ∧ (s.after .handle).calls.length = 1 ∧
      DeliversInOrder s.sent (s.after .handle).calls := by
  obtain ⟨-, -, hall, horder⟩ := loopback_delivery _ _ (Run.refl.snoc
    (.send ⟨.udp, 0x0100007f#32, 0x0100007f#32, 2000#16, 53#16, fun _ => 7#8, 8172⟩ fun _ => 0#8)
    ⟨rfl, le_rfl, Nat.le_add_left ..⟩ rfl)
  exact ⟨rfl, hall, horder⟩

end Sirius.Net
