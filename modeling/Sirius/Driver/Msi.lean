import Mathlib.Tactic
import Sirius.Library.Bytes
import Sirius.Library.Runs

/-!
# Message signalled interrupts

`apic_send_msi` and `msi_function` of `kernel/msi.c`, with the accesses to the configuration space
of `kernel/driver/pci.c`. A device answers as it likes: a call is given what the ports return for
every address after the writes it has made so far. The test of the counter lets a call pass when the
table is full; that call programs the vector 0xA0 and stores its handler behind the table.
-/

namespace Sirius.Driver

open Library

/-! ### The configuration space -/

/-- `bus`, `slot` and `function` of `struct dev`. -/
structure Dev where
  (bus slot function : BitVec 32)

/-- A value written to `PCI_PORT_DATA`, with the address in `PCI_PORT_ADDR`. -/
structure PortWrite where
  (addr data : BitVec 32)
  deriving DecidableEq

/-- What `PCI_PORT_DATA` returns for an address, after the writes of the call so far. -/
abbrev Ports := List PortWrite → BitVec 32 → BitVec 32

/-- `CONFIG_ADDR` -/
def configAddr (dev : Dev) (offset : Nat) : BitVec 32 :=
  ((dev.bus &&& 0xff#32) <<< 16) ||| ((dev.slot &&& 0x3f#32) <<< 11) |||
    ((dev.function &&& 0x07#32) <<< 8) ||| (BitVec.ofNat 32 offset &&& 0xff#32) ||| 0x80000000#32

/-- `pci_read_config_word` -/
def pciReadConfigWord (ports : Ports) (dev : Dev) (offset : Nat) (writes : List PortWrite) :
    BitVec 16 :=
  let shift := offset % 4
  let data := ports writes (configAddr dev (offset - shift))
  (data >>> (shift * 8)).setWidth 16

/-- `pci_read_config_byte` -/
def pciReadConfigByte (ports : Ports) (dev : Dev) (offset : Nat) (writes : List PortWrite) : Byte :=
  let shift := offset % 4
  let data := ports writes (configAddr dev (offset - shift))
  (data >>> (shift * 8)).setWidth 8

/-- `pci_write_config_word` -/
def pciWriteConfigWord (ports : Ports) (dev : Dev) (offset : Nat) (data : BitVec 16)
    (writes : List PortWrite) : List PortWrite :=
  let shift := offset % 4
  let d := ports writes (configAddr dev (offset - shift))
  let d := d &&& ~~~(0xffff#32 <<< (shift * 8))
  let d := d ||| data.setWidth 32 <<< (shift * 8)
  writes ++ [⟨configAddr dev (offset - shift), d⟩]

/-- `pci_write_config_dword` -/
def pciWriteConfigDword (dev : Dev) (offset : Nat) (data : BitVec 32) (writes : List PortWrite) :
    List PortWrite := writes ++ [⟨configAddr dev offset, data⟩]

/-- The byte that the writes have left at the offset: the last write to its register counts, and
the ports do not look at the two low bits of an address. -/
def writtenByte (dev : Dev) (offset : Nat) (writes : List PortWrite) : Option Byte :=
  (writes.reverse.find? fun (w : PortWrite) => w.addr >>> 2 = configAddr dev offset >>> 2).map
    fun (w : PortWrite) => (w.data >>> (offset % 4 * 8)).setWidth 8

/-! ### The code -/

/-- `vector_msi` and `fnvetors_handler_msi`. The entries from 32 on are the memory behind the
table. -/
structure Msi (α : Type*) where
  vectorMsi : Nat
  fnvetorsHandlerMsi : Nat → α

/-- `msi_vector_install`, and the table as it is defined. -/
def msiVectorInstall {α : Type*} (defaultMas : α) (behind : Nat → α) : Msi α where
  vectorMsi := 0
  fnvetorsHandlerMsi := fun i => if i < 32 then defaultMas else behind i

/-- `msi_function`: the handler that is called, if any. -/
def msiFunction {α : Type*} (n : BitVec 32) (msi : Msi α) : Option α :=
  if n.toNat < 32 then some (msi.fnvetorsHandlerMsi n.toNat) else none

/-- The loop over the capabilities; `none` is the end of the list. -/
def capabilityLoop (ports : Ports) (dev : Dev) : (rounds : Nat) → BitVec 16 → Option (BitVec 16)
  | 0, cappAddr => some cappAddr
  | n + 1, cappAddr =>
      let command := pciReadConfigWord ports dev cappAddr.toNat []
      if command &&& 0xff#16 = 0x5#16 then some cappAddr
      else
        let cappAddr := command >>> 8 &&& 0xff#16
        if cappAddr = 0#16 then none else capabilityLoop ports dev n cappAddr

/-- The address of the MSI capability. The last address of the loop is looked at again. -/
def msiCapability (ports : Ports) (dev : Dev) : Option (BitVec 16) :=
  (capabilityLoop ports dev 10 ((pciReadConfigByte ports dev 0x34 []).setWidth 16)).filter
    fun cappAddr => pciReadConfigWord ports dev cappAddr.toNat [] &&& 0xff#16 = 0x5#16

/-- The writes of `apic_send_msi` for the capability at `cappAddr`. -/
def programMsi (ports : Ports) (localId : BitVec 32) (dev : Dev) (cappAddr vectorMsi : Nat) :
    List PortWrite :=
  -- INTx# is disabled
  let command := pciReadConfigWord ports dev 0x4 [] ||| 0x400#16
  let writes := pciWriteConfigWord ports dev 0x4 command []
  let msiTag := (0xFEE00000#32 ||| localId <<< 12).setWidth 64
  let writes := pciWriteConfigDword dev (cappAddr + 0x4) (msiTag.setWidth 32) writes
  let writes := pciWriteConfigDword dev (cappAddr + 0x8) ((msiTag >>> 32).setWidth 32) writes
  let command := BitVec.ofNat 16 (0x80 + vectorMsi) &&& 0xff#16
  let writes := pciWriteConfigWord ports dev (cappAddr + 0xc) command writes
  -- MSI is enabled
  let command := pciReadConfigWord ports dev (cappAddr + 0x2) writes ||| 0x1#16
  pciWriteConfigWord ports dev (cappAddr + 0x2) command writes

variable {α : Type*}

/-- `apic_send_msi`: the result, the table and the counter, and the writes to the device. -/
def apicSendMsi (ports : Ports) (localId : BitVec 32) (dev : Dev) (fuc : α) (msi : Msi α) :
    Int × Msi α × List PortWrite :=
  if msi.vectorMsi > 32 then (1, msi, [])
  else
    match msiCapability ports dev with
    | none => (-1, msi, [])
    | some cappAddr =>
        (0, ⟨msi.vectorMsi + 1, Function.update msi.fnvetorsHandlerMsi msi.vectorMsi fuc⟩,
          programMsi ports localId dev cappAddr.toNat msi.vectorMsi)

/-! ### Runs of calls -/

/-- A call: the device, the handler, and how the ports answer. -/
structure MsiCall (α : Type*) where
  dev : Dev
  fuc : α
  ports : Ports

/-- A call that returned 0: the vector in the message data of the device, and the handler. -/
structure Registration (α : Type*) where
  vector : Option Byte
  handler : α

/-- The table with the calls that returned 0 so far. -/
structure MsiHistory (α : Type*) where
  msi : Msi α
  registered : List (Registration α)

/-- The vector that a call leaves in the message data of the capability. -/
def programmedVector (call : MsiCall α) (writes : List PortWrite) : Option Byte :=
  (msiCapability call.ports call.dev).bind fun cappAddr =>
    writtenByte call.dev (cappAddr.toNat + 0xc) writes

/-- A call of `apic_send_msi`. -/
def MsiHistory.call (localId : BitVec 32) (h : MsiHistory α) (call : MsiCall α) : MsiHistory α :=
  let (r, msi, writes) := apicSendMsi call.ports localId call.dev call.fuc h.msi
  { msi
    registered := if r = 0 then h.registered ++ [⟨programmedVector call writes, call.fuc⟩]
      else h.registered }

/-- The step relation of the calls. -/
def MsiStep (localId : BitVec 32) (h : MsiHistory α) (call : MsiCall α) (h' : MsiHistory α) :
    Prop := h' = h.call localId call

/-- The state behind `msi_vector_install`. -/
def MsiHistory.installed (defaultMas : α) (behind : Nat → α) : MsiHistory α :=
  ⟨msiVectorInstall defaultMas behind, []⟩

/-- Every call that returned 0 has its handler in its own entry of the table, where `msi_function`
finds it for the vector in the device, and a call that fails changes nothing. -/
structure MsiHistory.Registered (localId : BitVec 32) (h : MsiHistory α) : Prop where
  entry : ∀ r ∈ h.registered, ∃ v, r.vector = some v ∧ 0x80 ≤ v.toNat ∧ v.toNat < 0x80 + 32 ∧
    h.msi.fnvetorsHandlerMsi (v.toNat - 0x80) = r.handler ∧
    msiFunction (BitVec.ofNat 32 (v.toNat - 0x80)) h.msi = some r.handler
  distinct : (h.registered.map Registration.vector).Nodup
  failed : ∀ (ports : Ports) (dev : Dev) (fuc : α),
    (apicSendMsi ports localId dev fuc h.msi).1 ≠ 0 →
      (apicSendMsi ports localId dev fuc h.msi).2 = (h.msi, [])

/-- The counter does not stand behind the table, or the device has no MSI capability. -/
def EntryLeft (h : MsiHistory α) (call : MsiCall α) : Prop :=
  h.msi.vectorMsi ≠ 32 ∨ msiCapability call.ports call.dev = none

variable {ports : Ports} {localId : BitVec 32} {dev : Dev} {fuc : α} {msi : Msi α}
  {writes : List PortWrite} {h h' : MsiHistory α} {call : MsiCall α}

/-! ### The vector in the device -/

/-- The offset is in the low byte of an address. -/
theorem config_addr_low (dev : Dev) (offset : Nat) :
    (configAddr dev offset).toNat % 256 = offset % 256 := by
  have hlow : (configAddr dev offset).setWidth 8 = BitVec.ofNat 8 offset := by
    apply BitVec.eq_of_getLsbD_eq
    intro i hi
    have hmask : (0xff#8).getLsbD i = true := by interval_cases i <;> decide
    simp [configAddr, hi] at hmask ⊢
    exact fun _ => hmask
  have hnat := congrArg BitVec.toNat hlow
  rwa [BitVec.toNat_setWidth, BitVec.toNat_ofNat] at hnat

/-- Offsets with different registers have different addresses. -/
theorem config_addr_ne {a b : Nat} (h : a % 256 / 4 ≠ b % 256 / 4) :
    configAddr dev a >>> 2 ≠ configAddr dev b >>> 2 := by
  intro heq
  have hnat := congrArg BitVec.toNat heq
  rw [BitVec.toNat_ushiftRight, BitVec.toNat_ushiftRight, Nat.shiftRight_eq_div_pow,
    Nat.shiftRight_eq_div_pow] at hnat
  have ha := config_addr_low dev a
  have hb := config_addr_low dev b
  omega

/-- An offset and the start of its register. -/
theorem config_addr_aligned (dev : Dev) (offset : Nat) :
    configAddr dev (offset - offset % 4) >>> 2 = configAddr dev offset >>> 2 := by
  apply BitVec.eq_of_getLsbD_eq
  intro i hi
  have hbit : (offset - offset % 4).testBit (2 + i) = offset.testBit (2 + i) := by
    have hstart : offset - offset % 4 = offset / 2 ^ 2 * 2 ^ 2 := by omega
    rw [hstart, Nat.testBit_mul_two_pow, Nat.testBit_div_two_pow, Nat.add_sub_cancel_left,
      Nat.add_comm 2 i]
    simp
  simp [configAddr, BitVec.getLsbD_ofNat, hbit]

/-- The low byte of what is put into a register at a bit position. -/
theorem merged_low (d data : BitVec 32) {k : Nat} (hk : k + 8 ≤ 32) :
    ((d &&& ~~~(0xffff#32 <<< k) ||| data <<< k) >>> k).setWidth 8 = data.setWidth 8 := by
  apply BitVec.eq_of_getLsbD_eq
  intro i hi
  have hbit : i < 32 := by omega
  have hmask : (0xffff#32).getLsbD i = true := by interval_cases i <;> rfl
  rw [BitVec.getLsbD_eq_getElem hbit] at hmask
  simp [hi, hmask, BitVec.getLsbD_eq_getElem hbit, show k + i < 32 by omega]

/-- The low byte of a word is at its offset afterwards. -/
theorem written_byte_word (ports : Ports) (dev : Dev) (offset : Nat) (data : BitVec 16)
    (writes : List PortWrite) :
    writtenByte dev offset (pciWriteConfigWord ports dev offset data writes) =
      some (data.setWidth 8) := by
  have hshift : offset % 4 < 4 := Nat.mod_lt _ (by decide)
  rw [writtenByte, pciWriteConfigWord]
  simp only [List.reverse_append, List.reverse_singleton, List.singleton_append]
  rw [List.find?_cons_of_pos (by simpa using config_addr_aligned dev offset), Option.map_some]
  rw [merged_low _ _ (by omega), BitVec.setWidth_setWidth_of_le _ (by decide)]

/-- A write to another register keeps the byte. -/
theorem written_byte_other {offset other : Nat} (data : BitVec 16)
    (h : (other - other % 4) % 256 / 4 ≠ offset % 256 / 4) :
    writtenByte dev offset (pciWriteConfigWord ports dev other data writes) =
      writtenByte dev offset writes := by
  rw [writtenByte, pciWriteConfigWord]
  simp only [List.reverse_append, List.reverse_singleton, List.singleton_append]
  rw [List.find?_cons_of_neg (by simpa using config_addr_ne h), writtenByte]

/-- The vector is left in the message data of the capability. -/
theorem program_msi_vector (ports : Ports) (localId : BitVec 32) (dev : Dev)
    (cappAddr vectorMsi : Nat) :
    writtenByte dev (cappAddr + 0xc) (programMsi ports localId dev cappAddr vectorMsi) =
      some (BitVec.ofNat 8 (0x80 + vectorMsi)) := by
  rw [programMsi, written_byte_other _ (by omega), written_byte_word]
  congr 1
  apply BitVec.eq_of_toNat_eq
  simp only [BitVec.toNat_setWidth, BitVec.toNat_and, BitVec.toNat_ofNat]
  rw [show 255 % 2 ^ 16 = 2 ^ 8 - 1 by rfl, Nat.and_two_pow_sub_one_eq_mod]
  omega

/-! ### Calls -/

/-- A call that fails changes nothing. -/
theorem apic_send_msi_failed (ports : Ports) (localId : BitVec 32) (dev : Dev) (fuc : α)
    (msi : Msi α) (h : (apicSendMsi ports localId dev fuc msi).1 ≠ 0) :
    (apicSendMsi ports localId dev fuc msi).2 = (msi, []) := by
  unfold apicSendMsi at h ⊢
  split
  · rfl
  · next hcount =>
      rw [if_neg hcount] at h
      cases hcapability : msiCapability ports dev with
      | none => rfl
      | some cappAddr =>
          rw [hcapability] at h
          exact absurd rfl h

/-- What a call does to the history: nothing, or it takes the next vector. -/
theorem call_cases (localId : BitVec 32) (h : MsiHistory α) (call : MsiCall α) :
    ((h.msi.vectorMsi > 32 ∨ msiCapability call.ports call.dev = none) ∧
      h.call localId call = h) ∨
    (h.msi.vectorMsi ≤ 32 ∧ msiCapability call.ports call.dev ≠ none ∧
      h.call localId call =
        ⟨⟨h.msi.vectorMsi + 1,
            Function.update h.msi.fnvetorsHandlerMsi h.msi.vectorMsi call.fuc⟩,
          h.registered ++ [⟨some (BitVec.ofNat 8 (0x80 + h.msi.vectorMsi)), call.fuc⟩]⟩) := by
  rw [MsiHistory.call, apicSendMsi]
  by_cases hcount : h.msi.vectorMsi > 32
  · refine .inl ⟨.inl hcount, ?_⟩
    rw [if_pos hcount]
    rfl
  · rw [if_neg hcount]
    cases hcapability : msiCapability call.ports call.dev with
    | none => exact .inl ⟨.inr rfl, rfl⟩
    | some cappAddr =>
        refine .inr ⟨Nat.not_lt.mp hcount, Option.some_ne_none _, ?_⟩
        have hvector : programmedVector call
            (programMsi call.ports localId call.dev cappAddr.toNat h.msi.vectorMsi) =
            some (BitVec.ofNat 8 (0x80 + h.msi.vectorMsi)) := by
          rw [programmedVector, hcapability, Option.bind_some, program_msi_vector]
        dsimp only
        rw [if_pos rfl, hvector]

/-- The calls that returned 0 have taken the vectors from 0x80 on, one after the other. -/
structure MsiHistory.InOrder (h : MsiHistory α) : Prop where
  count : h.msi.vectorMsi = h.registered.length
  room : h.registered.length ≤ 32
  entry : ∀ i (hi : i < h.registered.length),
    h.registered[i] = ⟨some (BitVec.ofNat 8 (0x80 + i)), h.msi.fnvetorsHandlerMsi i⟩

theorem installed_in_order (defaultMas : α) (behind : Nat → α) :
    (MsiHistory.installed defaultMas behind).InOrder :=
  ⟨rfl, Nat.zero_le _, fun i hi => absurd hi (Nat.not_lt_zero i)⟩

/-- A call with an entry left keeps the order. -/
theorem MsiHistory.InOrder.next (ho : h.InOrder) (call : MsiCall α)
    (hleft : EntryLeft h call) : (h.call localId call).InOrder := by
  rcases call_cases localId h call with ⟨-, hsame⟩ | ⟨hcount, hcapability, hnext⟩
  · rwa [hsame]
  · have hne : h.msi.vectorMsi ≠ 32 := hleft.resolve_right hcapability
    rw [hnext]
    refine ⟨?_, ?_, fun i hi => ?_⟩
    · simp [ho.count]
    · have := ho.count
      simp only [List.length_append, List.length_singleton]
      omega
    · simp only [List.length_append, List.length_singleton] at hi
      dsimp only
      rcases Nat.lt_or_ge i h.registered.length with hlt | hge
      · have hother : i ≠ h.msi.vectorMsi := by rw [ho.count]; omega
        rw [List.getElem_append_left hlt, Function.update_of_ne hother, ho.entry i hlt]
      · obtain rfl : i = h.registered.length := by omega
        rw [List.getElem_append_right hge]
        simp only [Nat.sub_self, List.getElem_singleton]
        rw [← ho.count, Function.update_self]

/-- Vectors in order are distinct, and their handlers are found. -/
theorem MsiHistory.InOrder.registered (ho : h.InOrder) : h.Registered localId := by
  have hsmall : ∀ i < h.registered.length,
      (BitVec.ofNat 8 (0x80 + i)).toNat = 0x80 + i := fun i hi => by
    have := ho.room
    rw [BitVec.toNat_ofNat]
    omega
  refine ⟨fun r hr => ?_, ?_, fun ports dev fuc => apic_send_msi_failed ports localId dev fuc h.msi⟩
  · obtain ⟨i, hi, rfl⟩ := List.getElem_of_mem hr
    have hvector := hsmall i hi
    have hroom := ho.room
    have hindex : (BitVec.ofNat 32 i).toNat = i := by
      rw [BitVec.toNat_ofNat]
      omega
    rw [ho.entry i hi]
    refine ⟨_, rfl, by omega, by omega, ?_, ?_⟩
    · rw [hvector, Nat.add_sub_cancel_left]
    · rw [hvector, Nat.add_sub_cancel_left, msiFunction, hindex, if_pos (by omega)]
  · have hvectors : h.registered.map Registration.vector =
        (List.range h.registered.length).map fun i => some (BitVec.ofNat 8 (0x80 + i)) := by
      refine List.ext_getElem (by simp) fun i hi _ => ?_
      rw [List.length_map] at hi
      rw [List.getElem_map, List.getElem_map, List.getElem_range, ho.entry i hi]
    rw [hvectors]
    refine List.Nodup.map_on (fun i hi j hj heq => ?_) List.nodup_range
    have hnat := congrArg BitVec.toNat (Option.some.inj heq)
    rw [hsmall i (List.mem_range.mp hi), hsmall j (List.mem_range.mp hj)] at hnat
    exact Nat.add_left_cancel hnat

/-! ### Runs -/

/-- No vector of a call that returned 0 is 0xA0 or higher. -/
def MsiHistory.Below (h : MsiHistory α) : Prop :=
  ∀ r ∈ h.registered, ∃ v, r.vector = some v ∧ v.toNat < 0x80 + 32

theorem MsiHistory.Registered.below (hregistered : h.Registered localId) : h.Below := by
  intro r hr
  obtain ⟨v, hv, -, hlt, -⟩ := hregistered.entry r hr
  exact ⟨v, hv, hlt⟩

/-- A call leaves the vectors of the calls before it, and without an entry left it takes the vector
0xA0. -/
theorem below_call (hbelow : (h.call localId call).Below) : h.Below ∧ EntryLeft h call := by
  rcases call_cases localId h call with ⟨hfails, hsame⟩ | ⟨hcount, -, hnext⟩
  · rw [hsame] at hbelow
    refine ⟨hbelow, ?_⟩
    rcases hfails with hfull | hnone
    · exact .inl hfull.ne'
    · exact .inr hnone
  · rw [hnext] at hbelow
    refine ⟨fun r hr => hbelow r (List.mem_append_left _ hr), .inl fun hfull => ?_⟩
    obtain ⟨v, hv, hlt⟩ := hbelow _ (List.mem_append_right _ List.mem_cons_self)
    obtain rfl := Option.some.inj hv
    rw [hfull] at hlt
    exact absurd hlt (by decide)

/-- A device with its MSI capability at 0x40, first in the list. -/
def capabilityPorts : Ports := fun _ addr =>
  if addr.setWidth 8 = 0x34#8 then 0x40#32 else if addr.setWidth 8 = 0x40#8 then 0x5#32 else 0#32

/-- A call for this device, with 1 as its handler. -/
def networkCall : MsiCall Nat := ⟨⟨0#32, 3#32, 0#32⟩, 1, capabilityPorts⟩

/-- The counter after some calls for one device. -/
theorem vector_after_calls (hcapability : msiCapability call.ports call.dev ≠ none)
    (hstart : h.msi.vectorMsi = 0) {n : Nat} (hn : n ≤ 33) :
    ((·.call localId call)^[n] h).msi.vectorMsi = n := by
  induction n with
  | zero => exact hstart
  | succ n ih =>
      have hcount := ih (by omega)
      rw [Function.iterate_succ_apply']
      rcases call_cases localId ((·.call localId call)^[n] h) call with
        ⟨hfails, -⟩ | ⟨-, -, hnext⟩
      · rcases hfails with hfull | hnone
        · omega
        · exact absurd hnone hcapability
      · rw [hnext]
        dsimp only
        rw [hcount]

end Sirius.Driver
