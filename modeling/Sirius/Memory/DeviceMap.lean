import Mathlib.Data.List.Pairwise
import Sirius.Library.Runs
import Sirius.Memory.PageAllocator

/-!
# Device mappings

`mm_mp` maps device memory into the GiB from 0xC0000000 on. Every call takes the next slots of the
page directory, 2 MiB each, so the windows of two calls never overlap. The frames are those of the
physical address rounded down to a page, while the address returned is the start of a slot: the
window shows the memory asked for exactly when the physical address is the start of a page.
-/

namespace Sirius.Memory

open Library

/-- `pae_page_table_t` and `pae_page_directory_t`, which have the same layout: `frames` is
`phy_addr_pt` in an entry of the directory. -/
structure DeviceEntry where
  p : Bool
  rw : Bool
  us : Bool
  pcd : Bool
  frames : Nat
  deriving DecidableEq, Repr

/-- `g_mm_mp_index`, `device_pde` and the page tables behind `DEVICE_PAGE_TABLE`, where entry `e` is
the one at the address `8 * e`. -/
structure DeviceMap where
  gMmMpIndex : Nat
  devicePde : Nat → DeviceEntry
  table : Nat → DeviceEntry

/-- `DEVICE_PAGE_TABLE` -/
def devicePageTable : Nat := 0x181000

/-- `DEVICE_MEMORY_MAP` -/
def deviceMemoryMap : Nat := 0xC0000000

/-- `memset` of `n` entries with 0 -/
def clearEntries (entries : Nat → DeviceEntry) (e n : Nat) : Nat → DeviceEntry :=
  fun k => if e ≤ k ∧ k < e + n then ⟨false, false, false, false, 0⟩ else entries k

/-- `initialize_mm_mp`, apart from the entry of `pdpte` for the directory. -/
def initializeMmMp (s : DeviceMap) : DeviceMap :=
  { s with gMmMpIndex := 0, devicePde := clearEntries s.devicePde 0 512 }

/-- The body of both loops of `mm_mp`. -/
def DeviceEntry.map (entry : DeviceEntry) (flag : BitVec 32) (addr : Nat) : DeviceEntry :=
  { p := true
    rw := true
    us := entry.us || flag &&& 1#32 ≠ 0#32
    pcd := true
    frames := (addr >>> 12 &&& 0xffffffffffff) % 2 ^ 40 }

/-- The loops of `mm_mp`: `n` entries from `e` on get consecutive pages from `addr` on. -/
def mapLoop (flag : BitVec 32) : (n e addr : Nat) → (Nat → DeviceEntry) → Nat → DeviceEntry
  | 0, _, _, entries => entries
  | n + 1, e, addr, entries =>
      mapLoop flag n (e + 1) ((addr + 0x1000) % 2 ^ 64)
        (Function.update entries e ((entries e).map flag addr))

/-- The division of `mm_mp` that rounds up. -/
def countUp (size unit : Nat) : Nat := if size % unit ≠ 0 then size / unit + 1 else size / unit

/-- `mm_mp`: the value returned, the one stored in `virt_addr` and the new state. -/
def mmMp (phyAddr size : Nat) (flag : BitVec 32) (s : DeviceMap) : Nat × Nat × DeviceMap :=
  let pte := devicePageTable + 0x1000 * s.gMmMpIndex
  let index := s.gMmMpIndex
  if 0x40000000 < size then (1, 0, s)
  else if (0x40000000#32 - BitVec.ofNat 32 index * 0x200000#32).toNat < size then (2, 0, s)
  else
    let count := countUp size 0x1000
    let count2 := countUp count 512
    let table := clearEntries s.table (pte / 8) (512 * count2)
    (0, deviceMemoryMap + index * 0x200000,
      { gMmMpIndex := index + count2
        devicePde := mapLoop flag count2 index pte s.devicePde
        table := mapLoop flag count (pte / 8) phyAddr table })

/-- The walk of the processor from `device_pde` on. `none` when an entry is not present or the
address belongs to a directory other than `device_pde`, which entry 3 of `pdpte` points to. -/
def translate (s : DeviceMap) (v : Nat) : Option Nat :=
  if v / 2 ^ 30 = 3 then
    let pde := s.devicePde (v / 2 ^ 21 % 512)
    let pte := s.table (pde.frames * 0x1000 / 8 + v / 2 ^ 12 % 512)
    if pde.p && pte.p then some (pte.frames * 0x1000 + v % 0x1000) else none
  else none

/-! ### Calls -/

/-- A call of `mm_mp` that returned 0. -/
structure DeviceCall where
  phyAddr : Nat
  size : Nat
  virt : Nat
  deriving DecidableEq, Repr

/-- The mappings and the successful calls so far. -/
structure DeviceHistory where
  map : DeviceMap
  calls : List DeviceCall

/-- The arguments of a call. -/
structure DeviceRequest where
  phyAddr : Nat
  size : Nat
  flag : BitVec 32

/-- One call. -/
def DeviceHistory.after (s : DeviceHistory) (r : DeviceRequest) : DeviceHistory :=
  let (result, virt, map) := mmMp r.phyAddr r.size r.flag s.map
  if result = 0 then ⟨map, s.calls ++ [⟨r.phyAddr, r.size, virt⟩]⟩ else { s with map := map }

/-- A step of the kernel. -/
def DeviceStep (s : DeviceHistory) (r : DeviceRequest) (s' : DeviceHistory) : Prop := s' = s.after r

/-- The runs of the kernel. -/
abbrev DeviceRun : DeviceHistory → DeviceHistory → Prop := Run DeviceStep fun _ _ => True

/-- The kernel after `initialize_mm_mp`. -/
def DeviceHistory.start (s : DeviceMap) : DeviceHistory := ⟨initializeMmMp s, []⟩

/-- Every byte of the window translates to the byte of the device. -/
def DeviceCall.Mapped (s : DeviceMap) (c : DeviceCall) : Prop :=
  ∀ off < c.size, translate s (c.virt + off) = some (c.phyAddr + off)

/-- The windows of two calls have no address in common. -/
def DeviceCall.Apart (c c' : DeviceCall) : Prop :=
  ∀ off < c.size, ∀ off' < c'.size, c.virt + off ≠ c'.virt + off'

/-- The physical address is the start of a page, and the memory ends below 2^52, the bound of the
addresses that an entry can hold. -/
def DeviceCall.PageStart (c : DeviceCall) : Prop :=
  c.phyAddr % 0x1000 = 0 ∧ c.phyAddr + c.size ≤ 2 ^ 52

variable {s : DeviceHistory} {m : DeviceMap} {r : DeviceRequest} {c : DeviceCall}
  {flag : BitVec 32} {entries : Nat → DeviceEntry} {n e k addr size : Nat}

/-! ### The loops -/

theorem map_frames (entry : DeviceEntry) (flag : BitVec 32) (addr : Nat) :
    (entry.map flag addr).frames = addr / 0x1000 % 2 ^ 40 := by
  have hmask : ∀ n : Nat, n &&& 0xffffffffffff = n % 2 ^ 48 := fun n =>
    Nat.and_two_pow_sub_one_eq_mod n 48
  show (addr >>> 12 &&& 0xffffffffffff) % 2 ^ 40 = _
  rw [hmask, Nat.shiftRight_eq_div_pow]
  omega

/-- The loops leave the entries outside their range alone. -/
theorem map_loop_outside (h : k < e ∨ e + n ≤ k) : mapLoop flag n e addr entries k = entries k := by
  induction n generalizing e addr entries with
  | zero => rfl
  | succ n ih =>
      rw [mapLoop, ih (by omega), Function.update_of_ne (by omega)]

/-- The entries inside it are present and hold consecutive frames. -/
theorem map_loop_inside (flag : BitVec 32) (addr : Nat) (entries : Nat → DeviceEntry)
    (hlow : e ≤ k) (hhigh : k < e + n) :
    (mapLoop flag n e addr entries k).p = true ∧
      (mapLoop flag n e addr entries k).frames = (addr / 0x1000 + (k - e)) % 2 ^ 40 := by
  induction n generalizing e addr entries with
  | zero => omega
  | succ n ih =>
      rw [mapLoop]
      rcases Nat.lt_or_ge e k with hlater | hfirst
      · obtain ⟨hp, hframes⟩ := ih ((addr + 0x1000) % 2 ^ 64)
          (Function.update entries e ((entries e).map flag addr)) (Nat.succ_le_of_lt hlater) (by omega)
        refine ⟨hp, hframes.trans ?_⟩
        omega
      · obtain rfl : k = e := Nat.le_antisymm hfirst hlow
        rw [map_loop_outside (Or.inl (Nat.lt_succ_self _)), Function.update_self]
        refine ⟨rfl, ?_⟩
        rw [map_frames, Nat.sub_self, Nat.add_zero]

/-- A range of `size` units is covered by `countUp` many of them, and no fewer. -/
theorem count_up_spec (size : Nat) {unit : Nat} (hunit : 0 < unit) :
    size ≤ countUp size unit * unit ∧ countUp size unit * unit < size + unit := by
  have hdiv := Nat.div_add_mod' size unit
  have hmod := Nat.mod_lt size hunit
  unfold countUp
  by_cases hrest : size % unit = 0
  · rw [if_neg (not_not.mpr hrest)]
    omega
  · rw [if_pos hrest, Nat.add_mul]
    omega

/-- The slots of a window hold its pages, and they are free when the size passes the check. -/
theorem slots_spec {index : Nat} (hindex : index ≤ 512)
    (hsize : size ≤ 0x40000000 - index * 0x200000) :
    size ≤ countUp size 0x1000 * 0x1000 ∧
      countUp size 0x1000 ≤ countUp (countUp size 0x1000) 512 * 512 ∧
      size ≤ countUp (countUp size 0x1000) 512 * 0x200000 ∧
      index + countUp (countUp size 0x1000) 512 ≤ 512 := by
  obtain ⟨hcover, hcount⟩ := count_up_spec size (show 0 < 0x1000 by omega)
  obtain ⟨hcover2, hcount2⟩ := count_up_spec (countUp size 0x1000) (show 0 < 512 by omega)
  refine ⟨hcover, hcover2, ?_, by omega⟩
  calc size ≤ countUp size 0x1000 * 0x1000 := hcover
    _ ≤ countUp (countUp size 0x1000) 512 * 512 * 0x1000 := Nat.mul_le_mul_right _ hcover2
    _ = countUp (countUp size 0x1000) 512 * 0x200000 := Nat.mul_assoc ..

/-! ### The invariant -/

/-- A window starts with directory slot `first`, its slots are in use, and its entries hold the
frames of the pages from the one of the physical address on. -/
structure DeviceCall.Placed (m : DeviceMap) (c : DeviceCall) (first : Nat) : Prop where
  virt : c.virt = deviceMemoryMap + first * 0x200000
  slots : first * 0x200000 + c.size ≤ m.gMmMpIndex * 0x200000
  frames : ∀ k, k * 0x1000 < c.size →
    (m.table (devicePageTable / 8 + first * 512 + k)).p = true ∧
      (m.table (devicePageTable / 8 + first * 512 + k)).frames =
        (c.phyAddr / 0x1000 + k) % 2 ^ 40

/-- The slots in use have their page tables in order, and the windows follow each other. -/
structure DeviceInv (s : DeviceHistory) : Prop where
  index : s.map.gMmMpIndex ≤ 512
  directory : ∀ i < s.map.gMmMpIndex, (s.map.devicePde i).p = true ∧
    (s.map.devicePde i).frames = devicePageTable / 0x1000 + i
  placed : ∀ c ∈ s.calls, ∃ first, c.Placed s.map first
  apart : s.calls.Pairwise fun c c' => c.virt + c.size ≤ c'.virt

/-- What `mm_mp` does: it fails and changes nothing, or it takes the slots from `g_mm_mp_index` on
and leaves the directory and the tables of the slots before them alone. -/
theorem mm_mp_spec (hindex : m.gMmMpIndex ≤ 512) (r : DeviceRequest) :
    (∃ result, result ≠ 0 ∧ mmMp r.phyAddr r.size r.flag m = (result, 0, m)) ∨
    ∃ m', mmMp r.phyAddr r.size r.flag m =
        (0, deviceMemoryMap + m.gMmMpIndex * 0x200000, m') ∧
      m.gMmMpIndex ≤ m'.gMmMpIndex ∧ m'.gMmMpIndex ≤ 512 ∧
      DeviceCall.Placed m'
        ⟨r.phyAddr, r.size, deviceMemoryMap + m.gMmMpIndex * 0x200000⟩ m.gMmMpIndex ∧
      (∀ i < m.gMmMpIndex, m'.devicePde i = m.devicePde i) ∧
      (∀ i, m.gMmMpIndex ≤ i → i < m'.gMmMpIndex → (m'.devicePde i).p = true ∧
        (m'.devicePde i).frames = devicePageTable / 0x1000 + i) ∧
      ∀ e < devicePageTable / 8 + m.gMmMpIndex * 512, m'.table e = m.table e := by
  have hused : (BitVec.ofNat 32 m.gMmMpIndex * 0x200000#32).toNat = m.gMmMpIndex * 0x200000 := by
    rw [BitVec.toNat_mul, BitVec.toNat_ofNat, BitVec.toNat_ofNat]
    omega
  have hlimit : (0x40000000#32 - BitVec.ofNat 32 m.gMmMpIndex * 0x200000#32).toNat =
      0x40000000 - m.gMmMpIndex * 0x200000 := by
    rw [BitVec.toNat_sub, hused, BitVec.toNat_ofNat]
    omega
  unfold mmMp
  -- the two sizes that are refused: more than 1 GiB, and more than what is left of it
  by_cases htooLarge : 0x40000000 < r.size
  · exact Or.inl ⟨1, Nat.one_ne_zero, by simp only [htooLarge, if_true]⟩
  by_cases hfull : 0x40000000 - m.gMmMpIndex * 0x200000 < r.size
  · exact Or.inl ⟨2, OfNat.ofNat_ne_zero 2, by
      simp only [htooLarge, if_false, hlimit, hfull, if_true]⟩
  simp only [htooLarge, if_false, hlimit, hfull]
  obtain ⟨hcover, hcover2, hslots, hfree⟩ := slots_spec hindex (Nat.le_of_not_lt hfull)
  have hpte : (devicePageTable + 0x1000 * m.gMmMpIndex) / 8 =
      devicePageTable / 8 + m.gMmMpIndex * 512 := by
    simp only [devicePageTable]
    omega
  rw [hpte]
  refine Or.inr ⟨_, rfl, Nat.le_add_right .., hfree,
    ⟨rfl, (Nat.add_le_add_left hslots _).trans (Nat.add_mul ..).ge, fun k hk => ?_⟩,
    fun i hi => map_loop_outside (Or.inl hi), fun i hlow hhigh => ?_, fun e he => ?_⟩
  · have hcount : devicePageTable / 8 + m.gMmMpIndex * 512 + k <
        devicePageTable / 8 + m.gMmMpIndex * 512 + countUp r.size 0x1000 := by
      have hpage : k * 0x1000 < r.size := hk
      omega
    obtain ⟨hp, hframes⟩ := map_loop_inside r.flag r.phyAddr
      (clearEntries m.table (devicePageTable / 8 + m.gMmMpIndex * 512)
        (512 * countUp (countUp r.size 0x1000) 512)) (Nat.le_add_right _ _) hcount
    rw [Nat.add_sub_cancel_left] at hframes
    exact ⟨hp, hframes⟩
  · obtain ⟨hp, hframes⟩ := map_loop_inside r.flag
      (devicePageTable + 0x1000 * m.gMmMpIndex) m.devicePde hlow hhigh
    refine ⟨hp, hframes.trans ?_⟩
    simp only [devicePageTable] at hhigh ⊢
    omega
  · show mapLoop _ _ _ _ _ e = _
    rw [map_loop_outside (Or.inl he), clearEntries, if_neg (by omega)]

theorem device_start_inv (m : DeviceMap) : DeviceInv (DeviceHistory.start m) where
  index := Nat.zero_le _
  directory := fun i hi => absurd hi (Nat.not_lt_zero i)
  placed := fun _ hc => absurd hc List.not_mem_nil
  apart := List.Pairwise.nil

/-- A later call leaves the window of an earlier one as it is. -/
theorem DeviceCall.Placed.kept {m' : DeviceMap} {first : Nat} (h : c.Placed m first)
    (hindex : m.gMmMpIndex ≤ m'.gMmMpIndex)
    (htable : ∀ e < devicePageTable / 8 + m.gMmMpIndex * 512, m'.table e = m.table e) :
    c.Placed m' first := by
  have hslots := h.slots
  refine ⟨h.virt, hslots.trans (Nat.mul_le_mul_right _ hindex), fun k hk => ?_⟩
  rw [htable _ (by omega)]
  exact h.frames k hk

/-- One call keeps the invariant. -/
theorem device_step_inv (h : DeviceInv s) (r : DeviceRequest) : DeviceInv (s.after r) := by
  rcases mm_mp_spec h.index r with
    ⟨result, hresult, hfail⟩ | ⟨m', hcall, hle, hindex, hplaced, hpdeOld, hpdeNew, htable⟩
  · rw [DeviceHistory.after, hfail]
    simp only [hresult, if_false]
    exact h
  · rw [DeviceHistory.after, hcall]
    simp only [if_true]
    constructor
    case index => exact hindex
    case directory =>
        intro i hi
        rcases Nat.lt_or_ge i s.map.gMmMpIndex with hold | hnew
        · rw [hpdeOld i hold]
          exact h.directory i hold
        · exact hpdeNew i hnew hi
    case placed =>
        intro c hc
        rcases List.mem_append.mp hc with hold | hnew
        · obtain ⟨first, hfirst⟩ := h.placed c hold
          exact ⟨first, hfirst.kept hle htable⟩
        · obtain rfl := List.mem_singleton.mp hnew
          exact ⟨s.map.gMmMpIndex, hplaced⟩
    case apart =>
        refine List.pairwise_append.mpr ⟨h.apart, List.pairwise_singleton _ _, fun c hc c' hc' => ?_⟩
        obtain rfl := List.mem_singleton.mp hc'
        obtain ⟨first, hfirst⟩ := h.placed c hc
        have hslots := hfirst.slots
        show c.virt + c.size ≤ deviceMemoryMap + s.map.gMmMpIndex * 0x200000
        rw [hfirst.virt]
        omega

theorem device_run_inv (hrun : DeviceRun (DeviceHistory.start m) s) : DeviceInv s := by
  refine Run.invariant DeviceInv hrun (device_start_inv m) fun s r s' h _ hstep => ?_
  rw [hstep]
  exact device_step_inv h r

/-! ### Translation -/

/-- A window shows the frames of the physical address, but the offset in the page is that of the
virtual address. -/
theorem translate_placed {first : Nat} (h : DeviceInv s) (hplaced : c.Placed s.map first)
    (off : Nat) (hoff : off < c.size) :
    translate s.map (c.virt + off) =
      some ((c.phyAddr / 0x1000 + off / 0x1000) % 2 ^ 40 * 0x1000 + off % 0x1000) := by
  have hindex := h.index
  have hslots := hplaced.slots
  obtain ⟨hp, hframes⟩ := h.directory (first + off / 2 ^ 21) (by omega)
  obtain ⟨htable, hpage⟩ := hplaced.frames (off / 0x1000) (by omega)
  have hgib : (c.virt + off) / 2 ^ 30 = 3 := by
    rw [hplaced.virt, deviceMemoryMap]
    omega
  have hdirectory : (c.virt + off) / 2 ^ 21 % 512 = first + off / 2 ^ 21 := by
    rw [hplaced.virt, deviceMemoryMap]
    omega
  have hentry : (devicePageTable / 0x1000 + (first + off / 2 ^ 21)) * 0x1000 / 8 +
      (c.virt + off) / 2 ^ 12 % 512 = devicePageTable / 8 + first * 512 + off / 0x1000 := by
    rw [hplaced.virt, deviceMemoryMap, devicePageTable]
    omega
  have hbyte : (c.virt + off) % 0x1000 = off % 0x1000 := by
    rw [hplaced.virt, deviceMemoryMap]
    omega
  rw [translate, if_pos hgib, hdirectory]
  simp only [hp, hframes, hentry, htable, hpage, hbyte, Bool.and_self, if_true]

/-- A window shows the memory asked for exactly when that starts with a page. -/
theorem mapped_iff {first : Nat} (h : DeviceInv s) (hplaced : c.Placed s.map first)
    (hsize : 0 < c.size) : c.Mapped s.map ↔ c.PageStart := by
  constructor
  · intro hmapped
    have hfirst := hmapped 0 hsize
    have hlast := hmapped (c.size - 1) (by omega)
    rw [translate_placed h hplaced _ (by omega), Option.some.injEq] at hfirst hlast
    refine ⟨?_, ?_⟩ <;> omega
  · intro hstart off hoff
    obtain ⟨haligned, hbound⟩ := hstart
    rw [translate_placed h hplaced off hoff, Option.some.injEq]
    omega

/-- In every state of every run of `mm_mp`, the windows of different calls have no address in
common, and each window of at least one byte shows the memory asked for exactly when the physical
address of the call is the start of a page and the memory ends below 2^52. -/
theorem device_mappings (m : DeviceMap) (s : DeviceHistory)
    (hrun : DeviceRun (DeviceHistory.start m) s) :
    s.calls.Pairwise DeviceCall.Apart ∧
      ∀ c ∈ s.calls, 0 < c.size → (c.Mapped s.map ↔ c.PageStart) := by
  have h := device_run_inv hrun
  refine ⟨h.apart.imp fun hle off hoff off' hoff' => ?_, fun c hc hsize => ?_⟩
  · omega
  · obtain ⟨first, hplaced⟩ := h.placed c hc
    exact mapped_iff h hplaced hsize

/-- No entry is present. -/
def DeviceMap.empty : DeviceMap :=
  ⟨0, fun _ => ⟨false, false, false, false, 0⟩, fun _ => ⟨false, false, false, false, 0⟩⟩

/-- The local APIC is mapped first, then the I/O APIC in the next slot. -/
theorem device_mappings_apic :
    let s := ((DeviceHistory.start DeviceMap.empty).after ⟨0xfee00000, 0x200000, 0#32⟩).after
      ⟨0xfec00000, 0x1000, 0#32⟩
    DeviceCall.Apart ⟨0xfee00000, 0x200000, 0xC0000000⟩ ⟨0xfec00000, 0x1000, 0xC0200000⟩ ∧
      DeviceCall.Mapped s.map ⟨0xfec00000, 0x1000, 0xC0200000⟩ := by
  obtain ⟨hapart, hmapped⟩ := device_mappings DeviceMap.empty _
    ((Run.refl.snoc ⟨0xfee00000, 0x200000, 0#32⟩ trivial rfl).snoc
      ⟨0xfec00000, 0x1000, 0#32⟩ trivial rfl)
  exact ⟨List.rel_of_pairwise_cons hapart (List.mem_singleton_self _),
    (hmapped _ (List.mem_cons_of_mem _ (List.mem_singleton_self _)) (Nat.zero_lt_succ _)).mpr
      ⟨rfl, Nat.le_of_ble_eq_true rfl⟩⟩

/-- The registers of an AHCI controller take 2 KiB and need not start with a page. The address that
`mm_mp` returns for them belongs to the byte 2 KiB before. -/
theorem ahci_registers_misplaced :
    let s := (DeviceHistory.start DeviceMap.empty).after ⟨0xf7c16800, 0x200000, 0#32⟩
    DeviceRun (DeviceHistory.start DeviceMap.empty) s ∧
      s.calls = [⟨0xf7c16800, 0x200000, 0xC0000000⟩] ∧
      translate s.map 0xC0000000 = some 0xf7c16000 ∧
      ¬ DeviceCall.Mapped s.map ⟨0xf7c16800, 0x200000, 0xC0000000⟩ := by
  intro s
  have hrun : DeviceRun (DeviceHistory.start DeviceMap.empty) s := Run.refl.snoc _ trivial rfl
  have h := device_run_inv hrun
  obtain ⟨first, hplaced⟩ := h.placed ⟨0xf7c16800, 0x200000, 0xC0000000⟩ (List.mem_singleton_self _)
  have hvalue : (0xf7c16800 / 0x1000 + 0 / 0x1000) % 2 ^ 40 * 0x1000 + 0 % 0x1000 = 0xf7c16000 := by
    decide
  have hfirst := translate_placed h hplaced 0 (Nat.zero_lt_succ _)
  refine ⟨hrun, rfl, hvalue ▸ hfirst, ?_⟩
  rw [mapped_iff h hplaced (Nat.zero_lt_succ _)]
  exact fun hstart => absurd hstart.1 (by decide)

end Sirius.Memory
