import Sirius.Driver.Msi
import Sirius.Library.Searches

/-!
# Scans and writes of the configuration space

The functions of `kernel/driver/pci.c` that scan the bus go through all buses, devices and functions
and return the first one whose class register is looked for, packed into one number that their
callers take apart. `pci_write_config_word` and `pci_write_config_byte` write the 32-bit register
around the bytes they change; both clear two bytes of it.
-/

namespace Sirius.Driver

open Library

/-! ### The code -/

/-- The device with these numbers. -/
def devAt (bus dev fn : Nat) : Dev := ⟨BitVec.ofNat 32 bus, BitVec.ofNat 32 dev, BitVec.ofNat 32 fn⟩

/-- The loops that the scans share: the first function whose class register is looked for. -/
def pciScan (pack : (bus dev fn : Nat) → BitVec 32) (found : BitVec 32 → Bool) (ports : Ports) :
    BitVec 32 :=
  (firstResult 256 fun bus => firstResult 32 fun dev => firstResult 8 fun fn =>
    if found (ports [] (configAddr (devAt bus dev fn) 0x8)) then some (pack bus dev fn)
    else none).getD (-1)

/-- The number that most scans return. -/
def packed (bus dev fn : Nat) : BitVec 32 :=
  BitVec.ofNat 32 fn ||| BitVec.ofNat 32 dev <<< 16 ||| BitVec.ofNat 32 bus <<< 24

/-- `pci_scan_bcc`, which packs the place in its own way. -/
def pciScanBcc (bcc : BitVec 32) : Ports → BitVec 32 :=
  pciScan (fun bus dev fn => BitVec.ofNat 32 (fn + dev * 8 + bus * 32))
    fun data => data >>> 24 &&& 0xff#32 = bcc

/-- `pci_scan_class` -/
def pciScanClass (cls : BitVec 32) : Ports → BitVec 32 :=
  pciScan packed fun data => data >>> 24 &&& 0xff#32 = cls

/-- `pci_scan_class_subclass` -/
def pciScanClassSubclass (cls subclass : BitVec 32) : Ports → BitVec 32 :=
  pciScan packed fun data => data >>> 24 &&& 0xff#32 = cls ∧ data >>> 16 &&& 0xff#32 = subclass

/-- `pci_scan_bcc_scc` -/
def pciScanBccScc (bcc scc : BitVec 32) : Ports → BitVec 32 :=
  pciScan packed fun data => data >>> 24 &&& 0xff#32 = bcc ∧ data >>> 16 &&& 0xff#32 = scc

/-- `pci_scan_bcc_scc_prog` -/
def pciScanBccSccProg (bcc scc prog : BitVec 32) : Ports → BitVec 32 :=
  pciScan packed fun data => data >>> 24 &&& 0xff#32 = bcc ∧ data >>> 16 &&& 0xff#32 = scc ∧
    data >>> 8 &&& 0xff#32 = prog

/-- The place of the result, as the callers take it apart. -/
def unpacked (data : BitVec 32) : Dev :=
  ⟨data >>> 24 &&& 0xff#32, data >>> 16 &&& 0xff#32, data &&& 0xffff#32⟩

/-- `pci_write_config_byte`: the mask has 16 bits. -/
def pciWriteConfigByte (ports : Ports) (dev : Dev) (offset : Nat) (data : Byte)
    (writes : List PortWrite) : List PortWrite :=
  pciWriteConfigWord ports dev offset (data.setWidth 16) writes

/-- Registers that keep what is written to them. -/
def registerPorts (registers : BitVec 32 → BitVec 32) : Ports := fun writes addr =>
  ((writes.reverse.find? fun (w : PortWrite) => w.addr >>> 2 = addr >>> 2).map
    PortWrite.data).getD (registers (addr >>> 2))

variable {bus dev fn bus' dev' fn' offset : Nat} {ports : Ports}

/-! ### Numbers in bit fields -/

theorem or_shift {a b k : Nat} (h : a < 2 ^ k) : a ||| b <<< k = a + b * 2 ^ k := by
  rw [Nat.or_comm, ← Nat.shiftLeft_add_eq_or_of_lt h, Nat.shiftLeft_eq, Nat.add_comm]

theorem shift_or {a b k : Nat} (h : b < 2 ^ k) : a * 2 ^ k ||| b = a * 2 ^ k + b := by
  rw [← Nat.shiftLeft_eq, Nat.shiftLeft_add_eq_or_of_lt h]

theorem to_nat_field {n k : Nat} (h : n * 2 ^ k < 2 ^ 32) :
    (BitVec.ofNat 32 n <<< k).toNat = n <<< k := by
  have hn : n < 2 ^ 32 := lt_of_le_of_lt (Nat.le_mul_of_pos_right n (Nat.two_pow_pos k)) h
  rw [BitVec.toNat_shiftLeft, BitVec.toNat_ofNat, Nat.mod_eq_of_lt hn, Nat.shiftLeft_eq,
    Nat.mod_eq_of_lt h]

theorem to_nat_masked (x : BitVec 32) (k : Nat) {m : Nat} (hm : m ≤ 32) :
    (x >>> k &&& BitVec.ofNat 32 (2 ^ m - 1)).toNat = x.toNat / 2 ^ k % 2 ^ m := by
  have hle : 2 ^ m ≤ 2 ^ 32 := Nat.pow_le_pow_right (by omega) hm
  have hpos := Nat.two_pow_pos m
  rw [BitVec.toNat_and, BitVec.toNat_ushiftRight, Nat.shiftRight_eq_div_pow, BitVec.toNat_ofNat,
    Nat.mod_eq_of_lt (by omega), Nat.and_two_pow_sub_one_eq_mod]

/-- A field that its mask does not change. -/
theorem masked_of_lt {n m : Nat} (hm : m ≤ 32) (h : n < 2 ^ m) :
    BitVec.ofNat 32 n &&& BitVec.ofNat 32 (2 ^ m - 1) = BitVec.ofNat 32 n := by
  have hle : 2 ^ m ≤ 2 ^ 32 := Nat.pow_le_pow_right (by omega) hm
  apply BitVec.eq_of_toNat_eq
  rw [BitVec.toNat_and, BitVec.toNat_ofNat, BitVec.toNat_ofNat, Nat.mod_eq_of_lt (by omega),
    Nat.mod_eq_of_lt (by omega), Nat.and_two_pow_sub_one_eq_mod, Nat.mod_eq_of_lt h]

/-! ### Scans -/

/-- The place is one that the loops look at. -/
structure OnBus (bus dev fn : Nat) : Prop where
  bus : bus < 256
  dev : dev < 32
  fn : fn < 8

/-- The place comes before another one in the order of the loops. -/
def Before (bus dev fn bus' dev' fn' : Nat) : Prop :=
  bus < bus' ∨ (bus = bus' ∧ (dev < dev' ∨ (dev = dev' ∧ fn < fn')))

theorem packed_to_nat (h : OnBus bus dev fn) :
    (packed bus dev fn).toNat = fn + dev * 2 ^ 16 + bus * 2 ^ 24 := by
  obtain ⟨hbus, hdev, hfn⟩ := h
  unfold packed
  rw [BitVec.toNat_or, BitVec.toNat_or, to_nat_field (by omega), to_nat_field (by omega),
    BitVec.toNat_ofNat, Nat.mod_eq_of_lt (by omega), or_shift (show fn < 2 ^ 16 by omega),
    or_shift (show fn + dev * 2 ^ 16 < 2 ^ 24 by omega)]

/-- The callers take the number apart into the place it was made of. -/
theorem unpacked_packed (h : OnBus bus dev fn) : unpacked (packed bus dev fn) = devAt bus dev fn := by
  have hnat := packed_to_nat h
  obtain ⟨hbus, hdev, hfn⟩ := h
  have hfields : ∀ k m n, m ≤ 32 → n < 2 ^ m →
      (fn + dev * 2 ^ 16 + bus * 2 ^ 24) / 2 ^ k % 2 ^ m = n →
      packed bus dev fn >>> k &&& BitVec.ofNat 32 (2 ^ m - 1) = BitVec.ofNat 32 n := by
    intro k m n hm hn h
    have hle : 2 ^ m ≤ 2 ^ 32 := Nat.pow_le_pow_right (by omega) hm
    have hsmall : n < 2 ^ 32 := hn.trans_le hle
    apply BitVec.eq_of_toNat_eq
    rw [to_nat_masked _ k hm, hnat, BitVec.toNat_ofNat, Nat.mod_eq_of_lt hsmall, h]
  have hlow := hfields 0 16 fn (by omega) (by omega) (by omega)
  rw [BitVec.ushiftRight_zero] at hlow
  unfold unpacked devAt
  rw [Dev.mk.injEq]
  exact ⟨hfields 24 8 bus (by omega) (by omega) (by omega),
    hfields 16 8 dev (by omega) (by omega) (by omega), hlow⟩

theorem packed_ne (h : OnBus bus dev fn) : packed bus dev fn ≠ -1 := by
  intro heq
  have hnat := packed_to_nat h
  obtain ⟨hbus, hdev, hfn⟩ := h
  rw [heq, show (-1 : BitVec 32).toNat = 2 ^ 32 - 1 from rfl] at hnat
  omega

/-- The nested loops return at the first place, or go through all of them. -/
theorem nested_loops {α : Type*} (f : Nat → Nat → Nat → Option α) :
    ((firstResult 256 fun bus => firstResult 32 fun dev => firstResult 8 fun fn => f bus dev fn) =
        none ∧ ∀ bus dev fn, OnBus bus dev fn → f bus dev fn = none) ∨
      ∃ bus dev fn, OnBus bus dev fn ∧
        (firstResult 256 fun bus => firstResult 32 fun dev => firstResult 8 fun fn =>
          f bus dev fn) = f bus dev fn ∧ f bus dev fn ≠ none ∧
        ∀ bus' dev' fn', OnBus bus' dev' fn' → Before bus' dev' fn' bus dev fn →
          f bus' dev' fn' = none := by
  cases hscan : firstResult 256 fun bus => firstResult 32 fun dev => firstResult 8 fun fn =>
      f bus dev fn with
  | none =>
      refine .inl ⟨rfl, fun bus dev fn h => ?_⟩
      have hbus := first_result_none.mp hscan bus h.bus
      have hdev := first_result_none.mp hbus dev h.dev
      exact first_result_none.mp hdev fn h.fn
  | some r =>
      obtain ⟨bus, hbus, hsome, hbefore⟩ := first_result_some.mp hscan
      obtain ⟨dev, hdev, hsome', hbefore'⟩ := first_result_some.mp hsome
      obtain ⟨fn, hfn, hsome'', hbefore''⟩ := first_result_some.mp hsome'
      refine .inr ⟨bus, dev, fn, ⟨hbus, hdev, hfn⟩, hsome''.symm, by rw [hsome'']; exact nofun, ?_⟩
      rintro bus' dev' fn' ⟨-, hdev₁, hfn₁⟩ (hlt | ⟨rfl, hlt | ⟨rfl, hlt⟩⟩)
      · exact first_result_none.mp (first_result_none.mp (hbefore bus' hlt) dev' hdev₁) fn' hfn₁
      · exact first_result_none.mp (hbefore' dev' hlt) fn' hfn₁
      · exact hbefore'' fn' hlt

/-- A scan returns -1 exactly when no function is found, and otherwise the number of the first
function that is found. -/
theorem scan_first {pack : (bus dev fn : Nat) → BitVec 32} (found : BitVec 32 → Bool)
    (ports : Ports) (hpack : ∀ bus dev fn, OnBus bus dev fn → pack bus dev fn ≠ -1) :
    (pciScan pack found ports = -1 ↔ ∀ bus dev fn, OnBus bus dev fn →
        found (ports [] (configAddr (devAt bus dev fn) 0x8)) = false) ∧
      (pciScan pack found ports ≠ -1 → ∃ bus dev fn, OnBus bus dev fn ∧
        pciScan pack found ports = pack bus dev fn ∧
        found (ports [] (configAddr (devAt bus dev fn) 0x8)) = true ∧
        ∀ bus' dev' fn', OnBus bus' dev' fn' → Before bus' dev' fn' bus dev fn →
          found (ports [] (configAddr (devAt bus' dev' fn') 0x8)) = false) := by
  obtain ⟨f, hf⟩ : ∃ f : Nat → Nat → Nat → Option (BitVec 32), f = fun bus dev fn =>
      if found (ports [] (configAddr (devAt bus dev fn) 0x8)) then some (pack bus dev fn)
      else none := ⟨_, rfl⟩
  have hnone : ∀ bus dev fn, f bus dev fn = none →
      found (ports [] (configAddr (devAt bus dev fn) 0x8)) = false := by
    intro bus dev fn h
    simpa [hf] using h
  have hscan : pciScan pack found ports = (firstResult 256 fun bus => firstResult 32 fun dev =>
      firstResult 8 fun fn => f bus dev fn).getD (-1) := by rw [hf]; rfl
  obtain ⟨hall, hempty⟩ | ⟨bus, dev, fn, hon, hresult, hsome, hbefore⟩ := nested_loops f
  · rw [hall] at hscan
    have hresult : pciScan pack found ports = -1 := hscan
    exact ⟨⟨fun _ bus dev fn h => hnone bus dev fn (hempty bus dev fn h), fun _ => hresult⟩,
      fun hne => absurd hresult hne⟩
  · have hfound : found (ports [] (configAddr (devAt bus dev fn) 0x8)) = true := by
      by_contra h
      exact hsome (by rw [hf]; exact if_neg h)
    have hplace : f bus dev fn = some (pack bus dev fn) := by rw [hf]; exact if_pos hfound
    rw [hresult, hplace, Option.getD_some] at hscan
    rw [hscan]
    refine ⟨⟨fun h => absurd h (hpack bus dev fn hon), fun h => ?_⟩, fun _ => ⟨bus, dev, fn, hon,
      rfl, hfound, fun bus' dev' fn' hon' h => hnone bus' dev' fn' (hbefore bus' dev' fn' hon' h)⟩⟩
    rw [h bus dev fn hon] at hfound
    cases hfound

/-- `pci_scan_bcc` too finds the first function of the class, but its number does not tell the
place: a device number from 4 on runs into the bus. -/
theorem pci_scan_bcc_first (bcc : BitVec 32) (ports : Ports) (h : pciScanBcc bcc ports ≠ -1) :
    ∃ bus dev fn, OnBus bus dev fn ∧
      pciScanBcc bcc ports = BitVec.ofNat 32 (fn + dev * 8 + bus * 32) ∧
      ports [] (configAddr (devAt bus dev fn) 0x8) >>> 24 &&& 0xff#32 = bcc := by
  have hpack : ∀ bus dev fn, OnBus bus dev fn →
      BitVec.ofNat 32 (fn + dev * 8 + bus * 32) ≠ -1 := by
    intro bus dev fn hon heq
    have hnat := congrArg BitVec.toNat heq
    rw [BitVec.toNat_ofNat, show (-1 : BitVec 32).toNat = 2 ^ 32 - 1 from rfl] at hnat
    have hbus := hon.bus
    have hdev := hon.dev
    have hfn := hon.fn
    omega
  obtain ⟨bus, dev, fn, hon, hresult, hfound, -⟩ := (scan_first _ ports hpack).2 h
  exact ⟨bus, dev, fn, hon, hresult, of_decide_eq_true hfound⟩

/-- The scans for a class, and for a subclass or an interface too, return -1 exactly when no
function of any device on any bus has it. Otherwise the bus, the device and the function that the
callers take out of the number are those of the first one that has it. -/
theorem pci_scan_finds (found : BitVec 32 → Bool) (ports : Ports) :
    (pciScan packed found ports = -1 ↔ ∀ bus dev fn, OnBus bus dev fn →
        found (ports [] (configAddr (devAt bus dev fn) 0x8)) = false) ∧
      (pciScan packed found ports ≠ -1 → ∃ bus dev fn, OnBus bus dev fn ∧
        unpacked (pciScan packed found ports) = devAt bus dev fn ∧
        found (ports [] (configAddr (devAt bus dev fn) 0x8)) = true ∧
        ∀ bus' dev' fn', OnBus bus' dev' fn' → Before bus' dev' fn' bus dev fn →
          found (ports [] (configAddr (devAt bus' dev' fn') 0x8)) = false) := by
  obtain ⟨hnone, hsome⟩ := scan_first found ports fun _ _ _ => packed_ne
  refine ⟨hnone, fun h => ?_⟩
  obtain ⟨bus, dev, fn, hon, hresult, hfound, hbefore⟩ := hsome h
  exact ⟨bus, dev, fn, hon, by rw [hresult, unpacked_packed hon], hfound, hbefore⟩

/-! ### Writes -/

theorem config_addr_to_nat (h : OnBus bus dev fn) (offset : Nat) :
    (configAddr (devAt bus dev fn) offset).toNat =
      2 ^ 31 + bus * 2 ^ 16 + dev * 2 ^ 11 + fn * 2 ^ 8 + offset % 256 := by
  obtain ⟨hbus, hdev, hfn⟩ := h
  have hoffset : (BitVec.ofNat 32 offset &&& 0xff#32).toNat = offset % 256 := by
    rw [BitVec.toNat_and, BitVec.toNat_ofNat, show (0xff#32).toNat = 2 ^ 8 - 1 from rfl,
      Nat.and_two_pow_sub_one_eq_mod]
    omega
  have hb : BitVec.ofNat 32 bus &&& 0xff#32 = BitVec.ofNat 32 bus := masked_of_lt (m := 8)
    (by omega) hbus
  have hd : BitVec.ofNat 32 dev &&& 0x3f#32 = BitVec.ofNat 32 dev := masked_of_lt (m := 6)
    (by omega) (by omega)
  have hf : BitVec.ofNat 32 fn &&& 0x07#32 = BitVec.ofNat 32 fn := masked_of_lt (m := 3)
    (by omega) hfn
  have hbits₁ : bus <<< 16 ||| dev <<< 11 = (bus * 32 + dev) * 2 ^ 11 := by
    rw [Nat.shiftLeft_eq, shift_or (by rw [Nat.shiftLeft_eq]; omega), Nat.shiftLeft_eq]
    omega
  have hbits₂ : (bus * 32 + dev) * 2 ^ 11 ||| fn <<< 8 = (bus * 256 + dev * 8 + fn) * 2 ^ 8 := by
    rw [shift_or (by rw [Nat.shiftLeft_eq]; omega), Nat.shiftLeft_eq]
    omega
  have htop : (0x80000000#32).toNat = 1 <<< 31 := rfl
  unfold configAddr devAt
  simp only [hb, hd, hf, BitVec.toNat_or, hoffset, htop]
  rw [to_nat_field (by omega), to_nat_field (by omega), to_nat_field (by omega), hbits₁, hbits₂,
    shift_or (by omega), or_shift (by omega)]
  omega

/-- Two registers have the same address when they are the same register of the same function. -/
theorem config_addr_same (h : OnBus bus dev fn) (h' : OnBus bus' dev' fn') {offset offset' : Nat}
    (hoffset : offset < 256) (hoffset' : offset' < 256) :
    configAddr (devAt bus' dev' fn') offset' >>> 2 = configAddr (devAt bus dev fn) offset >>> 2 ↔
      (bus' = bus ∧ dev' = dev ∧ fn' = fn) ∧ offset' / 4 = offset / 4 := by
  rw [← BitVec.toNat_inj, BitVec.toNat_ushiftRight, BitVec.toNat_ushiftRight,
    Nat.shiftRight_eq_div_pow, Nat.shiftRight_eq_div_pow, config_addr_to_nat h,
    config_addr_to_nat h']
  obtain ⟨hbus, hdev, hfn⟩ := h
  obtain ⟨hbus', hdev', hfn'⟩ := h'
  omega

/-- The bytes of a register into which a word was written. -/
theorem merged_byte (d : BitVec 32) (v : BitVec 16) {s k : Nat} (hs : s < 4) (hk : k < 4) :
    (((d &&& ~~~(0xffff#32 <<< (s * 8))) ||| v.setWidth 32 <<< (s * 8)) >>> (k * 8)).setWidth 8 =
      if k = s then v.setWidth 8 else if k = s + 1 then (v >>> 8).setWidth 8
      else (d >>> (k * 8)).setWidth 8 := by
  interval_cases s <;> interval_cases k <;>
    (ext i hi; interval_cases i <;> simp [BitVec.getElem_setWidth])

/-- The word that is read back from such a register. -/
theorem merged_word (d : BitVec 32) (v : BitVec 16) {s : Nat} (hs : s < 3) :
    (((d &&& ~~~(0xffff#32 <<< (s * 8))) ||| v.setWidth 32 <<< (s * 8)) >>> (s * 8)).setWidth 16 =
      v := by
  interval_cases s <;> (ext i hi; interval_cases i <;> simp [BitVec.getElem_setWidth])

/-- What a register holds after one more write. -/
theorem register_ports_write (registers : BitVec 32 → BitVec 32) (writes : List PortWrite)
    (addr data addr' : BitVec 32) :
    registerPorts registers (writes ++ [⟨addr, data⟩]) addr' =
      if addr' >>> 2 = addr >>> 2 then data else registerPorts registers writes addr' := by
  unfold registerPorts
  rw [List.reverse_append, List.reverse_singleton, List.singleton_append]
  by_cases h : addr' >>> 2 = addr >>> 2
  · simp [h]
  · simp [h, Ne.symm h]

/-- Every byte of the configuration space after a word was written. -/
theorem write_word_bytes (registers : BitVec 32 → BitVec 32) (writes : List PortWrite)
    (h : OnBus bus dev fn) (h' : OnBus bus' dev' fn') {offset offset' : Nat}
    (hoffset : offset < 256) (hoffset' : offset' < 256) (v : BitVec 16) :
    pciReadConfigByte (registerPorts registers) (devAt bus' dev' fn') offset'
        (pciWriteConfigWord (registerPorts registers) (devAt bus dev fn) offset v writes) =
      if (bus' = bus ∧ dev' = dev ∧ fn' = fn) ∧ offset' = offset then v.setWidth 8
      else if (bus' = bus ∧ dev' = dev ∧ fn' = fn) ∧ offset' = offset + 1 ∧ offset % 4 ≠ 3 then
        (v >>> 8).setWidth 8
      else pciReadConfigByte (registerPorts registers) (devAt bus' dev' fn') offset' writes := by
  have haddr := @config_addr_same bus dev fn bus' dev' fn' h h' (offset - offset % 4)
    (offset' - offset' % 4) (by omega) (by omega)
  unfold pciReadConfigByte pciWriteConfigWord
  dsimp only
  rw [register_ports_write]
  by_cases hsame : (bus' = bus ∧ dev' = dev ∧ fn' = fn) ∧ offset' / 4 = offset / 4
  · obtain ⟨⟨rfl, rfl, rfl⟩, hreg⟩ := hsame
    have hstart : offset' - offset' % 4 = offset - offset % 4 := by omega
    rw [if_pos (haddr.mpr ⟨⟨rfl, rfl, rfl⟩, by omega⟩),
      merged_byte _ v (Nat.mod_lt offset (by omega)) (Nat.mod_lt offset' (by omega)), hstart]
    by_cases hlow : offset' = offset
    · rw [if_pos (by rw [hlow]), if_pos ⟨⟨rfl, rfl, rfl⟩, hlow⟩]
    · rw [if_neg (show ¬ offset' % 4 = offset % 4 by omega)]
      by_cases hhigh : offset' = offset + 1
      · rw [if_pos (show offset' % 4 = offset % 4 + 1 by omega), if_neg (fun h => hlow h.2),
          if_pos ⟨⟨rfl, rfl, rfl⟩, hhigh, by omega⟩]
      · rw [if_neg (show ¬ offset' % 4 = offset % 4 + 1 by omega), if_neg (fun h => hlow h.2),
          if_neg (fun h => hhigh h.2.1)]
  · rw [if_neg (fun hport => hsame ⟨(haddr.mp hport).1, by have := (haddr.mp hport).2; omega⟩),
      if_neg (fun h => hsame ⟨h.1, by rw [h.2]⟩), if_neg (fun h => hsame ⟨h.1, by omega⟩)]

/-- A word that does not cross the end of its register is written as it is and leaves every other
byte of every function alone. A byte is written as it is, but the byte behind it in the register
becomes 0: every other byte stays exactly when there is none or it is 0 already. -/
theorem config_writes (registers : BitVec 32 → BitVec 32) (writes : List PortWrite)
    (h : OnBus bus dev fn) (hoffset : offset < 256) :
    (∀ v : BitVec 16, offset % 4 ≠ 3 →
        pciReadConfigWord (registerPorts registers) (devAt bus dev fn) offset
          (pciWriteConfigWord (registerPorts registers) (devAt bus dev fn) offset v writes) = v ∧
        ∀ bus' dev' fn' offset', OnBus bus' dev' fn' → offset' < 256 →
          (bus', dev', fn', offset') ≠ (bus, dev, fn, offset) →
          (bus', dev', fn', offset') ≠ (bus, dev, fn, offset + 1) →
          pciReadConfigByte (registerPorts registers) (devAt bus' dev' fn') offset'
              (pciWriteConfigWord (registerPorts registers) (devAt bus dev fn) offset v writes) =
            pciReadConfigByte (registerPorts registers) (devAt bus' dev' fn') offset' writes) ∧
      ∀ v : Byte,
        pciReadConfigByte (registerPorts registers) (devAt bus dev fn) offset
          (pciWriteConfigByte (registerPorts registers) (devAt bus dev fn) offset v writes) = v ∧
        ((∀ bus' dev' fn' offset', OnBus bus' dev' fn' → offset' < 256 →
            (bus', dev', fn', offset') ≠ (bus, dev, fn, offset) →
            pciReadConfigByte (registerPorts registers) (devAt bus' dev' fn') offset'
                (pciWriteConfigByte (registerPorts registers) (devAt bus dev fn) offset v writes) =
              pciReadConfigByte (registerPorts registers) (devAt bus' dev' fn') offset' writes) ↔
          offset % 4 = 3 ∨ pciReadConfigByte (registerPorts registers) (devAt bus dev fn)
            (offset + 1) writes = 0#8) := by
  have hbyte : ∀ v : Byte, (v.setWidth 16).setWidth 8 = v := fun v => by
    rw [BitVec.setWidth_setWidth_of_le v (by omega), BitVec.setWidth_eq]
  have hzero : ∀ v : Byte, (v.setWidth 16 >>> 8).setWidth 8 = 0#8 := fun v => by
    ext i hi
    simp
  refine ⟨fun v hword => ⟨?_, fun bus' dev' fn' offset' h' hoffset' hne hne' => ?_⟩, fun v =>
    ⟨?_, fun hall => ?_, fun hlast bus' dev' fn' offset' h' hoffset' hne => ?_⟩⟩
  · unfold pciReadConfigWord pciWriteConfigWord
    dsimp only
    rw [register_ports_write, if_pos rfl, merged_word _ v (by omega)]
  · rw [write_word_bytes registers writes h h' hoffset hoffset' v,
      if_neg (fun heq => hne (by simp [heq])), if_neg (fun heq => hne' (by simp [heq]))]
  · rw [pciWriteConfigByte, write_word_bytes registers writes h h hoffset hoffset,
      if_pos ⟨⟨rfl, rfl, rfl⟩, rfl⟩, hbyte]
  · by_contra hlast
    obtain ⟨hshift, hnext⟩ := not_or.mp hlast
    have hkept := hall bus dev fn (offset + 1) h (by omega) (by simp)
    rw [pciWriteConfigByte, write_word_bytes registers writes h h hoffset (by omega),
      if_neg (fun heq => by omega), if_pos ⟨⟨rfl, rfl, rfl⟩, rfl, hshift⟩, hzero] at hkept
    exact hnext hkept.symm
  · rw [pciWriteConfigByte, write_word_bytes registers writes h h' hoffset hoffset',
      if_neg (fun heq => hne (by simp [heq]))]
    split
    · rename_i hnext
      obtain ⟨⟨rfl, rfl, rfl⟩, rfl, hshift⟩ := hnext
      rw [hzero, (hlast.resolve_left hshift)]
    · rfl

/-- A word is written to the status register of a function on bus 1. -/
theorem config_writes_word :
    pciReadConfigWord (registerPorts fun _ => 0x02100007#32) (devAt 1 3 0) 0x6
      (pciWriteConfigWord (registerPorts fun _ => 0x02100007#32) (devAt 1 3 0) 0x6 0x1234#16 []) =
        0x1234#16 :=
  ((config_writes (fun _ => 0x02100007#32) [] ⟨by decide, by decide, by decide⟩
    (by decide)).1 0x1234#16 (by decide)).1

end Sirius.Driver
