import Mathlib.Tactic
import Sirius.Library.Attempts
import Sirius.Library.Bytes
import Sirius.Library.Unsigned

/-!
# Chunked transfers

`sata_read_sector` and `sata_write_sector` of `kernel/driver/storage/ahci.c` transfer eight sectors
at a time and then the rest. Both count sectors and bytes in 32-bit variables, while the address of
a sector has 48 bits; so a chunk that starts at sector 2 ^ 32 or later is looked for at the start
of the disk, and a chunk behind the first 4 GiB of the buffer goes to its start.
-/

namespace Sirius.Driver

open Library

/-- The sectors of a disk and the memory. -/
structure Machine where
  disk : Nat → Bytes
  mem : Bytes

/-- `ahci_read` and `ahci_write` with the sector, the number of sectors and the address of the
buffer: the code they return and what they leave. -/
abbrev Ahci (σ : Type*) := Nat → Nat → Nat → σ → Int × σ

variable {σ : Type*}

/-! ### The code -/

/-- The loop over the chunks of eight sectors, at the chunk `i`. An error is returned at once,
otherwise the values of `offset` and `new_addr2` are left. -/
def sataLoop (ahci : Ahci σ) (ubuf : Nat) :
    (times i offset newAddr2 : Nat) → σ → Except (Int × σ) (Nat × Nat × σ)
  | 0, _, offset, newAddr2, s => .ok (offset, newAddr2, s)
  | times + 1, i, offset, _, s =>
      let newAddr := wrap32 (i * 512 * 8)
      let (rc, s) := ahci offset 8 (ubuf + newAddr) s
      let offset := wrap32 (offset + 8)
      let newAddr2 := wrap32 (newAddr + 512 * 8)
      if rc ≠ 0 then .error (rc, s) else sataLoop ahci ubuf times (i + 1) offset newAddr2 s

/-- The body that `sata_read_sector` and `sata_write_sector` share. Without a rest the code of the
last chunk is returned, which is 0 there. -/
def sataTransfer (ahci : Ahci σ) (lba count buf : Nat) (s : σ) : Int × σ :=
  match sataLoop ahci buf (count / 8) 0 (wrap32 lba) 0 s with
  | .error result => result
  | .ok (offset, newAddr2, s) =>
      if count % 8 ≠ 0 then ahci offset (count % 8) (buf + newAddr2) s else (0, s)

/-- `sata_read_sector` on a machine whose `ahci_read` is given. -/
def sataReadSector (ahciRead : Ahci Machine) (lba count buf : Nat) (m : Machine) : Int × Machine :=
  sataTransfer ahciRead lba count buf m

/-- `sata_write_sector` on a machine whose `ahci_write` is given. -/
def sataWriteSector (ahciWrite : Ahci Machine) (lba count buf : Nat) (m : Machine) :
    Int × Machine :=
  sataTransfer ahciWrite lba count buf m

/-! ### Single sectors -/

/-- One sector is read to `buf`. -/
def readOne (lba buf : Nat) (m : Machine) : Machine :=
  { m with mem := copyBytes m.mem buf (m.disk lba) 0 512 }

/-- One sector is written from `buf`. -/
def writeOne (lba buf : Nat) (m : Machine) : Machine :=
  { m with disk := Function.update m.disk lba (copyBytes (m.disk lba) 0 m.mem buf 512) }

/-- The sectors from `lba` on, one by one. -/
def transferSectors (one : Nat → Nat → σ → σ) (lba : Nat) : (count buf : Nat) → σ → σ
  | 0, _, s => s
  | count + 1, buf, s => one (lba + count) (buf + 512 * count) (transferSectors one lba count buf s)

/-- A call that returns 0 has transferred exactly the sectors it was asked for. -/
def Exact (one : Nat → Nat → σ → σ) (ahci : Ahci σ) : Prop :=
  ∀ lba count buf s, (ahci lba count buf s).1 = 0 →
    (ahci lba count buf s).2 = transferSectors one lba count buf s

/-- The transfer has the effect of single sectors, or it ends with the error of a chunk that was
asked for after those before it were transferred. -/
def TransferLaw (one : Nat → Nat → σ → σ) (transfer : Ahci σ → Nat → Nat → Nat → σ → Int × σ)
    (lba count : Nat) : Prop :=
  ∀ ahci, Exact one ahci → ∀ buf s,
    ((transfer ahci lba count buf s).1 = 0 →
        (transfer ahci lba count buf s).2 = transferSectors one lba count buf s) ∧
      ((transfer ahci lba count buf s).1 ≠ 0 → ∃ k, 8 * k < count ∧
        transfer ahci lba count buf s =
          ahci (lba + 8 * k) (min 8 (count - 8 * k)) (buf + 4096 * k)
            (transferSectors one lba (8 * k) buf s))

/-- The last chunk starts below sector 2 ^ 32, and the buffer has at most 4 GiB. -/
def ChunksFit (lba count : Nat) : Prop := lba + 8 * ((count - 1) / 8) < 2 ^ 32 ∧ count ≤ 2 ^ 23

instance (lba count : Nat) : Decidable (ChunksFit lba count) := inferInstanceAs (Decidable (_ ∧ _))

variable {one : Nat → Nat → σ → σ} {ahci : Ahci σ} {lba count buf i times : Nat} {s : σ}

theorem transfer_sectors_add (n count : Nat) (s : σ) :
    transferSectors one lba (n + count) buf s =
      transferSectors one (lba + n) count (buf + 512 * n) (transferSectors one lba n buf s) := by
  induction count with
  | zero => rfl
  | succ count ih =>
      rw [← Nat.add_assoc, transferSectors, transferSectors, ih, Nat.add_assoc lba,
        Nat.mul_add 512, Nat.add_assoc buf]

/-! ### Chunks -/

/-- The call for chunk `i`, as the code makes it. -/
def codeChunk (ahci : Ahci σ) (lba count buf i : Nat) (s : σ) : Int × σ :=
  ahci (wrap32 (lba + 8 * i)) (min 8 (count - 8 * i)) (buf + wrap32 (4096 * i)) s

/-- The call for chunk `i`. -/
def chunk (ahci : Ahci σ) (lba count buf i : Nat) (s : σ) : Int × σ :=
  ahci (lba + 8 * i) (min 8 (count - 8 * i)) (buf + 4096 * i) s

theorem sata_loop_eq (hroom : 8 * (i + times) ≤ count) (s : σ) :
    sataLoop ahci buf times i (wrap32 (lba + 8 * i)) (wrap32 (4096 * i)) s =
      if (runUntil (codeChunk ahci lba count buf) times i s).1 ≠ 0 then
        .error (runUntil (codeChunk ahci lba count buf) times i s)
      else .ok (wrap32 (lba + 8 * (i + times)), wrap32 (4096 * (i + times)),
        (runUntil (codeChunk ahci lba count buf) times i s).2) := by
  induction times generalizing i s with
  | zero => rw [runUntil, if_neg (not_not_intro rfl)]; rfl
  | succ times ih =>
      have hchunk : ahci (wrap32 (lba + 8 * i)) 8 (buf + wrap32 (i * 512 * 8)) s =
          codeChunk ahci lba count buf i s := by
        rw [codeChunk, Nat.min_eq_left (by omega), Nat.mul_assoc i, Nat.mul_comm i]
      have hoffset : wrap32 (wrap32 (lba + 8 * i) + 8) = wrap32 (lba + 8 * (i + 1)) := by
        rw [wrap32_add]
        rfl
      have haddr : wrap32 (wrap32 (i * 512 * 8) + 512 * 8) = wrap32 (4096 * (i + 1)) := by
        rw [wrap32_add, show i * 512 * 8 + 512 * 8 = 4096 * (i + 1) by omega]
      rw [sataLoop]
      simp only [hchunk, hoffset, haddr]
      rw [runUntil]
      by_cases hfail : (codeChunk ahci lba count buf i s).1 ≠ 0
      · simp only [if_pos hfail]
      · simp only [if_neg hfail]
        rw [ih (by omega), show i + 1 + times = i + (times + 1) by omega]

/-- The transfer as a sequence of chunks. -/
theorem sata_transfer_eq (ahci : Ahci σ) (lba count buf : Nat) (s : σ) :
    sataTransfer ahci lba count buf s =
      runUntil (codeChunk ahci lba count buf) ((count + 7) / 8) 0 s := by
  have hloop := @sata_loop_eq σ ahci lba count buf 0 (count / 8) (by omega) s
  rw [Nat.zero_add, Nat.mul_zero, Nat.add_zero] at hloop
  have hzero : wrap32 0 = 0 := rfl
  rw [hzero] at hloop
  have hsplit := @run_until_add σ (codeChunk ahci lba count buf) (count / 8)
    ((count + 7) / 8 - count / 8) 0 s
  rw [show count / 8 + ((count + 7) / 8 - count / 8) = (count + 7) / 8 by omega,
    Nat.zero_add] at hsplit
  rw [sataTransfer, hloop, hsplit]
  by_cases hfail : (runUntil (codeChunk ahci lba count buf) (count / 8) 0 s).1 ≠ 0
  · rw [if_pos hfail, if_pos hfail]
  · rw [if_neg hfail, if_neg hfail]
    dsimp only
    by_cases hrest : count % 8 ≠ 0
    · have hone : (count + 7) / 8 - count / 8 = 0 + 1 := by omega
      have hlast : min 8 (count - 8 * (count / 8)) = count % 8 := by omega
      rw [if_pos hrest, hone, runUntil, runUntil, codeChunk, hlast]
      split
      · rfl
      · rename_i hzero
        exact Prod.ext (not_not.mp hzero) rfl
    · have hnone : (count + 7) / 8 - count / 8 = 0 := by omega
      rw [if_neg hrest, hnone, runUntil]

/-- Where the chunks fit, the code asks for the chunks of the transfer. -/
theorem code_chunk_eq (hcount : 1 ≤ count) (hfit : ChunksFit lba count)
    (hi : i < (count + 7) / 8) :
    codeChunk ahci lba count buf i = chunk ahci lba count buf i := by
  obtain ⟨hlba, hsize⟩ := hfit
  funext s
  rw [codeChunk, chunk, wrap32_of_lt (by omega), wrap32_of_lt (by omega)]

/-- A chunk that succeeds leads to the state behind its sectors. -/
theorem chunk_exact (hexact : Exact one ahci) (hi : 8 * i < count)
    (h : (chunk ahci lba count buf i (transferSectors one lba (8 * i) buf s)).1 = 0) :
    (chunk ahci lba count buf i (transferSectors one lba (8 * i) buf s)).2 =
      transferSectors one lba (min (8 * (i + 1)) count) buf s := by
  have hnext : min (8 * (i + 1)) count = 8 * i + min 8 (count - 8 * i) := by omega
  rw [hnext, transfer_sectors_add, show 512 * (8 * i) = 4096 * i by omega]
  exact hexact _ _ _ _ h

theorem transfer_law_of_fit (hcount : 1 ≤ count) (hfit : ChunksFit lba count) :
    TransferLaw one sataTransfer lba count := by
  intro ahci hexact buf s
  have hchunks : runUntil (codeChunk ahci lba count buf) ((count + 7) / 8) 0 s =
      runUntil (chunk ahci lba count buf) ((count + 7) / 8) 0 s :=
    run_until_congr (fun j _ hj => code_chunk_eq hcount hfit (by omega)) s
  have hmin : ∀ j, 8 * j < count → min (8 * j) count = 8 * j := fun j hj =>
    Nat.min_eq_left hj.le
  obtain ⟨hdone, hstop⟩ := @run_until_result σ (chunk ahci lba count buf)
    (fun j => transferSectors one lba (min (8 * j) count) buf s) ((count + 7) / 8) 0
    (fun j _ hj h => by
      have hroom : 8 * j < count := by omega
      rw [hmin j hroom] at h ⊢
      exact chunk_exact hexact hroom h)
  have hstart : transferSectors one lba (min (8 * 0) count) buf s = s := by
    rw [Nat.mul_zero, Nat.zero_min, transferSectors]
  have hend : min (8 * (0 + (count + 7) / 8)) count = count := by omega
  rw [hstart] at hdone hstop
  rw [hend] at hdone
  rw [sata_transfer_eq, hchunks]
  refine ⟨hdone, fun hfail => ?_⟩
  obtain ⟨j, -, hj, heq⟩ := hstop hfail
  have hroom : 8 * j < count := by omega
  rw [hmin j hroom] at heq
  exact ⟨j, hroom, heq⟩

/-! ### Chunks that do not fit -/

/-- A device that fails in one place. -/
def failsAt (one : Nat → Nat → σ → σ) (lba buf : Nat) : Ahci σ := fun lba' count buf' s =>
  if lba' = lba ∧ buf' = buf then (1, s) else (0, transferSectors one lba' count buf' s)

theorem fails_at_exact (one : Nat → Nat → σ → σ) (lba buf : Nat) :
    Exact one (failsAt one lba buf) := by
  intro lba' count buf' s h
  unfold failsAt at h ⊢
  split at h
  · exact absurd h one_ne_zero
  · rename_i hother
    rw [if_neg hother]

/-- The sectors of two chunks are different, also in a 32-bit variable. -/
theorem chunk_places {j k : Nat} (hj : j < 2 ^ 29) (hk : k < 2 ^ 29)
    (h : lba + 8 * j = wrap32 (lba + 8 * k)) : j = k := by
  unfold wrap32 at h
  omega

theorem chunks_fit_of_law [Inhabited σ] (hcount : 1 ≤ count) (hsize : count < 2 ^ 32)
    (hlaw : TransferLaw one sataTransfer lba count) : ChunksFit lba count := by
  by_contra hfit
  -- the first chunk that the code asks for at a wrong place
  have hbad : ∃ k, k < (count + 7) / 8 ∧
      ¬ (wrap32 (lba + 8 * k) = lba + 8 * k ∧ wrap32 (4096 * k) = 4096 * k) := by
    refine ⟨(count - 1) / 8, by omega, fun hsame => hfit ?_⟩
    have hlba := wrap32_lt (lba + 8 * ((count - 1) / 8))
    have haddr := wrap32_lt (4096 * ((count - 1) / 8))
    rw [hsame.1] at hlba
    rw [hsame.2] at haddr
    exact ⟨hlba, by omega⟩
  classical
  generalize hk : Nat.find hbad = k
  obtain ⟨hlast, hwrong⟩ := hk ▸ Nat.find_spec hbad
  have hright : ∀ j < k, wrap32 (lba + 8 * j) = lba + 8 * j ∧ wrap32 (4096 * j) = 4096 * j :=
    fun j hj => by
      by_contra hwrong
      exact Nat.find_min hbad (hk ▸ hj) ⟨by omega, hwrong⟩
  let ahci : Ahci σ := failsAt one (wrap32 (lba + 8 * k)) (0 + wrap32 (4096 * k))
  have hfails : (codeChunk ahci lba count 0 k (transferSectors one lba (8 * k) 0 default)).1 = 1 := by
    rw [codeChunk]
    exact congrArg Prod.fst (if_pos ⟨rfl, rfl⟩)
  have hbefore : ∀ j < k, codeChunk ahci lba count 0 j (transferSectors one lba (8 * j) 0 default) =
      (0, transferSectors one lba (8 * (j + 1)) 0 default) := by
    intro j hj
    have hroom : min 8 (count - 8 * j) = 8 := by omega
    have hother : ¬ (lba + 8 * j = wrap32 (lba + 8 * k) ∧
        0 + 4096 * j = 0 + wrap32 (4096 * k)) := fun h =>
      hj.ne (chunk_places (by omega) (by omega) h.1)
    rw [codeChunk, (hright j hj).1, (hright j hj).2, hroom]
    refine (if_neg hother).trans (congrArg (Prod.mk 0) ?_)
    rw [show 8 * (j + 1) = 8 * j + 8 by omega, transfer_sectors_add,
      show 512 * (8 * j) = 4096 * j by omega]
  have hresult : sataTransfer ahci lba count 0 default =
      codeChunk ahci lba count 0 k (transferSectors one lba (8 * k) 0 default) := by
    rw [sata_transfer_eq]
    exact @run_until_fails σ (codeChunk ahci lba count 0)
      (fun j => transferSectors one lba (8 * j) 0 default) _ k hbefore hlast
      (by rw [hfails]; exact one_ne_zero)
  have hcode : (sataTransfer ahci lba count 0 default).1 = 1 := by rw [hresult, hfails]
  obtain ⟨j, hj, heq⟩ := (hlaw ahci (fails_at_exact one _ _) 0 default).2
    (by rw [hcode]; exact one_ne_zero)
  rw [heq] at hcode
  have hplace : lba + 8 * j = wrap32 (lba + 8 * k) ∧ 0 + 4096 * j = 0 + wrap32 (4096 * k) := by
    by_contra hother
    have hzero : (ahci (lba + 8 * j) (min 8 (count - 8 * j)) (0 + 4096 * j)
        (transferSectors one lba (8 * j) 0 default)).1 = 0 := congrArg Prod.fst (if_neg hother)
    rw [hzero] at hcode
    exact zero_ne_one hcode
  obtain rfl := chunk_places (by omega) (by omega) hplace.1
  exact hwrong ⟨hplace.1.symm, by omega⟩

/-! ### Both directions -/

instance : Inhabited Machine := ⟨⟨fun _ _ => 0#8, fun _ => 0#8⟩⟩

/-- Reading and writing have the effect of single sectors exactly when the chunks fit. -/
theorem sata_transfers_iff (hcount : 1 ≤ count) (hsize : count < 2 ^ 32) :
    (TransferLaw readOne sataReadSector lba count ↔ ChunksFit lba count) ∧
      (TransferLaw writeOne sataWriteSector lba count ↔ ChunksFit lba count) :=
  ⟨⟨chunks_fit_of_law hcount hsize, transfer_law_of_fit hcount⟩,
    ⟨chunks_fit_of_law hcount hsize, transfer_law_of_fit hcount⟩⟩

/-- Eleven sectors in front of sector 2 ^ 32. -/
theorem sata_transfers_iff_eleven :
    TransferLaw readOne sataReadSector (2 ^ 32 - 12) 11 ∧
      TransferLaw writeOne sataWriteSector (2 ^ 32 - 12) 11 :=
  ⟨(sata_transfers_iff (by decide) (by decide)).1.mpr (by decide),
    (sata_transfers_iff (by decide) (by decide)).2.mpr (by decide)⟩

/-- A device that always succeeds. -/
def perfect (one : Nat → Nat → σ → σ) : Ahci σ := fun lba count buf s =>
  (0, transferSectors one lba count buf s)

/-- A read of sector 2 ^ 32 returns sector 0. -/
theorem sector_number_truncated : ¬ TransferLaw readOne sataReadSector (2 ^ 32) 1 := by
  intro hlaw
  have hread := (hlaw (perfect readOne) (fun _ _ _ _ _ => rfl) 0
    ⟨fun lba _ => if lba = 0 then 1#8 else 0#8, fun _ => 0#8⟩).1 rfl
  have hbyte := congrFun (congrArg Machine.mem hread) 0
  exact absurd hbyte (by decide +kernel)

end Sirius.Driver
