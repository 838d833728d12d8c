import Sirius.Cfs.Integrity
import Sirius.Library.Runs

/-!
# Freeing a damaged chain

`remove_blk` follows the numbers in the allocation table until it meets the end mark, and it clears
every entry on the way. It trusts each number: one that is free, reserved, out of range or cleared
before is followed like any other. So a call never reports an error on a disk without faults, and a
chain that runs into a free entry or into itself leads to entry 0, the first of the reserved ones.
-/

namespace Sirius.Cfs.User

open Library

/-- `l` is a well-formed chain from `b`: it ends at the end mark, and its blocks lie behind the blocks
of the allocation table. -/
structure GoodChain (bytes : Bytes) (f : SuperBlock) (b : Nat) (l : List Nat) : Prop where
  chain : Chain bytes f b l
  nonempty : l ≠ []
  range : ∀ c ∈ l, f.rootBlk ≤ c ∧ c < f.numOfBlk

/-- Following the numbers in the table from `b` leads to `c`. -/
def OnPath (bytes : Bytes) (f : SuperBlock) (b c : Nat) : Prop := ∃ k, (fat bytes f)^[k] b = c

/-- `remove_blk` is harmless: it returns, and for a chain that is not well-formed it reports an error
and has changed no entry of the table that is reserved or that it did not follow. -/
def FreesSafely (bytes : Bytes) (f : SuperBlock) (b : Nat) (blk : Bytes) : Prop :=
  ∃ r disk', Returns (fun n => removeBlk n b f blk ⟨bytes, []⟩) (r, disk') ∧
    ((∀ l, ¬ GoodChain bytes f b l) → r ≠ 0 ∧
      ∀ c < f.numOfBlk, c < f.rootBlk ∨ ¬ OnPath bytes f b c → fat disk'.bytes f c = fat bytes f c)

variable {f : SuperBlock} {bytes blk : Bytes} {disk disk' : Disk} {b c n index next : Nat}
  {flgStart start wstart w : Nat} {r : Int} {l : List Nat}

/-! ### The result -/

/-- The start of a round on a disk without faults. -/
theorem switch_sector_ok (hok : disk.fails = []) :
    ∃ blk' disk', switchSector start flgStart wstart w blk disk = (0, blk', disk') ∧
      disk'.fails = [] := by
  unfold switchSector
  by_cases hsame : start ≠ flgStart
  · rw [if_pos hsame]
    by_cases hw : w ≠ 0
    · have hok' : ({ disk with bytes := copyBytes disk.bytes (wstart * 512) blk 0 (1 * 512) } :
          Disk).fails = [] := hok
      simp only [if_pos hw, write_sector_ok hok, read_sector_ok hok', ne_eq, not_true_eq_false,
        if_false]
      exact ⟨_, _, rfl, hok⟩
    · simp only [if_neg hw, read_sector_ok hok, ne_eq, not_true_eq_false, if_false]
      exact ⟨_, _, rfl, hok⟩
  · rw [if_neg hsame]
    exact ⟨_, _, rfl, hok⟩

/-- On a disk without faults the loop never reports an error. The induction is on the rounds. -/
theorem remove_loop_result (n : Nat) : ∀ (index flgStart start wstart w : Nat) (blk : Bytes)
    (disk : Disk), disk.fails = [] →
    removeLoop f n index flgStart start wstart w blk disk = some (r, disk') → r = 0 := by
  induction n with
  | zero =>
      intro index flgStart start wstart w blk disk _ h
      cases h
  | succ n ih =>
      intro index flgStart start wstart w blk disk hok h
      obtain ⟨blk₁, disk₁, hswitch, hok₁⟩ : ∃ blk₁ disk₁,
          switchSector start flgStart wstart w blk disk = (0, blk₁, disk₁) ∧ disk₁.fails = [] :=
        switch_sector_ok hok
      rw [removeLoop, hswitch] at h
      simp only [ne_eq, not_true_eq_false, if_false, write_sector_ok hok₁] at h
      split at h
      · cases h
        rfl
      · exact ih _ _ _ _ _ _ _ hok₁ h

/-- More rounds do not change a result. -/
theorem remove_loop_mono (n : Nat) : ∀ (index flgStart start wstart w : Nat) (blk : Bytes)
    (disk : Disk) {result : Int × Disk} (k : Nat),
    removeLoop f n index flgStart start wstart w blk disk = some result →
    removeLoop f (n + k) index flgStart start wstart w blk disk = some result := by
  induction n with
  | zero =>
      intro index flgStart start wstart w blk disk result k h
      cases h
  | succ n ih =>
      intro index flgStart start wstart w blk disk result k h
      have hn : n + 1 + k = n + k + 1 := by omega
      rw [removeLoop] at h
      rw [hn, removeLoop]
      generalize switchSector start flgStart wstart w blk disk = switched at h ⊢
      obtain ⟨r, blk', disk'⟩ := switched
      simp only at h ⊢
      split
      case isTrue hr =>
        rw [if_pos hr] at h
        exact h
      case isFalse hr =>
        rw [if_neg hr] at h
        split
        case isTrue hend =>
          rw [if_pos hend] at h
          exact h
        case isFalse hend =>
          rw [if_neg hend] at h
          exact ih _ _ _ _ _ _ _ k h

/-! ### The path of a call -/

/-- The numbers `l` follow one another from `b`, none of their entries is the end mark, and the entry
of the last one is `next`. -/
def Visits (bytes : Bytes) (f : SuperBlock) : (b : Nat) → List Nat → (next : Nat) → Prop
  | b, [], next => b = next
  | b, c :: l, next => b = c ∧ fat bytes f c ≠ endMark ∧ Visits bytes f (fat bytes f c) l next

/-- Clearing the entry of another block leaves the path. -/
theorem Visits.clear {d : Nat} (h : Visits bytes f b l next) (hd : d ∉ l) :
    Visits (writeWord bytes (fatAddr f d) 0) f b l next := by
  induction l generalizing b with
  | nil => exact h
  | cons c l ih =>
      obtain ⟨rfl, hmark, hrest⟩ := h
      rw [List.mem_cons, not_or] at hd
      have hsame : fat (writeWord bytes (fatAddr f d) 0) f b = fat bytes f b :=
        fat_write_other hd.1 0
      exact ⟨rfl, hsame ▸ hmark, hsame.symm ▸ ih hrest hd.2⟩

/-- The loop over a path whose blocks differ clears their entries and goes on with the next number.
The induction is on the path. -/
theorem remove_loop_visits (hf : Formatted f) (l : List Nat) :
    ∀ (b flgStart wstart w : Nat) (blk bytes : Bytes) (disk : Disk), Visits bytes f b l next →
    l.Nodup → (∀ c ∈ l, c < f.numOfBlk) → l ≠ [] → disk.fails = [] →
    Buffered flgStart wstart w blk disk bytes →
    ∃ start blk' disk', disk'.fails = [] ∧ Buffered start start 1 blk' disk' (freed f l bytes) ∧
      ∀ n, removeLoop f (n + l.length) b flgStart (f.fatSector b) wstart w blk disk =
        removeLoop f n next start (f.fatSector next) start 1 blk' disk' := by
  induction l with
  | nil => exact fun _ _ _ _ _ _ _ _ _ _ hne => absurd rfl hne
  | cons c l ih =>
      intro b flgStart wstart w blk bytes disk hvisits hnodup hrange _ hok hbuffered
      obtain ⟨rfl, hmark, hrest⟩ := hvisits
      obtain ⟨hnot, hnodup⟩ := List.nodup_cons.mp hnodup
      obtain ⟨blk', disk', hok', hbuffered', hround⟩ :=
        remove_round_block hf (hrange b (List.mem_cons_self ..)) hok hbuffered
      cases l with
      | nil =>
          obtain rfl : fat bytes f b = next := hrest
          refine ⟨f.fatSector b, blk', disk', hok', hbuffered', fun n => ?_⟩
          rw [List.length_singleton, hround n, if_neg hmark]
      | cons d l =>
          obtain ⟨start, blk₂, disk₂, hok₂, hbuffered₂, hrun⟩ := ih (fat bytes f b) _ _ 1 blk' _ disk'
            (hrest.clear hnot) hnodup (fun e he => hrange e (List.mem_cons_of_mem _ he))
            (List.cons_ne_nil _ _) hok' hbuffered'
          refine ⟨start, blk₂, disk₂, hok₂, hbuffered₂, fun n => ?_⟩
          rw [List.length_cons, ← Nat.add_assoc, hround, if_neg hmark, hrun n]

/-! ### Entry 0 -/

/-- With a free entry 0 the loop stays at block 0 for good. -/
theorem remove_loop_zero_endless (hf : Formatted f) (hpos : 0 < f.numOfBlk) (n : Nat) :
    ∀ (flgStart wstart w : Nat) (blk bytes : Bytes) (disk : Disk), disk.fails = [] →
    Buffered flgStart wstart w blk disk bytes → fat bytes f 0 = 0 →
    removeLoop f n 0 flgStart (f.fatSector 0) wstart w blk disk = none := by
  induction n with
  | zero => exact fun _ _ _ _ _ _ _ _ _ => rfl
  | succ n ih =>
      intro flgStart wstart w blk bytes disk hok hbuffered hfree
      obtain ⟨blk', disk', hok', hbuffered', hround⟩ := remove_round_block hf hpos hok hbuffered
      have hmark : fat bytes f 0 ≠ endMark := by
        rw [hfree]
        decide
      rw [hround n, if_neg hmark, hfree]
      exact ih _ _ 1 blk' _ disk' hok' hbuffered' (fat_write_same (Nat.two_pow_pos 32))

/-- Clearing another word of the table leaves entry 0 free. -/
theorem fat_zero_cleared (hfree : fat bytes f 0 = 0) (index : Nat) :
    fat (writeWord bytes (slotAddr f index) 0) f 0 = 0 := by
  by_cases hsame : slotAddr f index = fatAddr f 0
  · rw [hsame]
    exact fat_write_same (Nat.two_pow_pos 32)
  · refine (read_write_word_other ?_).trans hfree
    -- both addresses are multiples of 4
    unfold slotAddr fatAddr at hsame
    unfold slotAddr
    omega

/-- A free entry 0 is still free when the loop returns. The induction is on the rounds. -/
theorem remove_loop_zero_free (hsize : f.bytePerSector = 512) (n : Nat) :
    ∀ (index flgStart wstart : Nat) (blk bytes : Bytes) (disk : Disk), disk.fails = [] →
    Buffered flgStart wstart 1 blk disk bytes → fat bytes f 0 = 0 →
    removeLoop f n index flgStart (f.fatSector index) wstart 1 blk disk = some (r, disk') →
    fat disk'.bytes f 0 = 0 := by
  induction n with
  | zero =>
      intro index flgStart wstart blk bytes disk _ _ _ h
      cases h
  | succ n ih =>
      intro index flgStart wstart blk bytes disk hok hbuffered hfree h
      obtain ⟨blk', disk₁, hok', hbuffered', hround⟩ :=
        remove_round (b := index) hsize hok (fun hw => absurd hw Nat.one_ne_zero) hbuffered
      have hfree' := fat_zero_cleared hfree index
      rw [hround n] at h
      split at h
      case isTrue =>
        cases h
        exact hfree'
      case isFalse => exact ih _ _ _ blk' _ disk₁ hok' hbuffered' hfree' h

/-- A chain that runs into a free entry or into itself: `remove_blk` goes on at block 0. If it
returns, it reports success and has freed the reserved entry 0; if that entry was free before or is
one of the chain, it does not return. -/
theorem damaged_chain_frees_zero (hf : Geometry f) (hvisits : Visits bytes f b l next)
    (hnodup : l.Nodup) (hrange : ∀ c ∈ l, c < f.numOfBlk) (hne : l ≠ [])
    (hnext : next = 0 ∨ next ∈ l) (blk : Bytes) :
    (∀ n r disk', removeBlk n b f blk ⟨bytes, []⟩ = some (r, disk') →
      r = 0 ∧ fat disk'.bytes f 0 = 0) ∧
    (fat bytes f 0 = 0 ∨ 0 ∈ l → ∀ n, removeBlk n b f blk ⟨bytes, []⟩ = none) := by
  have hpos : 0 < f.numOfBlk := (Nat.zero_le _).trans_lt hf.root
  obtain ⟨start, blk', disk₁, hok, hbuffered, hrun⟩ := remove_loop_visits hf.toFormatted l b endMark
    (f.fatSector b) 0 blk bytes ⟨bytes, []⟩ hvisits hnodup hrange hne rfl (.inl ⟨rfl, rfl, rfl⟩)
  have hfreed : fat bytes f 0 = 0 ∨ 0 ∈ l → fat (freed f l bytes) f 0 = 0 := by
    intro hzero
    rw [fat_freed]
    split
    case isTrue => rfl
    case isFalse hnot => exact hzero.resolve_right hnot
  -- behind the path the loop is at block 0, at once or after the cleared entry of a block of the path
  obtain ⟨k, start, blk', disk₁, bytes₁, hok, hbuffered, hfree, hrun⟩ :
      ∃ k start blk' disk₁ bytes₁, disk₁.fails = [] ∧ Buffered start start 1 blk' disk₁ bytes₁ ∧
        (fat bytes f 0 = 0 ∨ 0 ∈ l → fat bytes₁ f 0 = 0) ∧
        ∀ n, removeBlk (n + k) b f blk ⟨bytes, []⟩ =
          removeLoop f n 0 start (f.fatSector 0) start 1 blk' disk₁ := by
    obtain rfl | hmem := hnext
    · exact ⟨l.length, start, blk', disk₁, _, hok, hbuffered, hfreed, hrun⟩
    · obtain ⟨blk₂, disk₂, hok₂, hbuffered₂, hround⟩ :=
        remove_round_block hf.toFormatted (hrange next hmem) hok hbuffered
      have hcleared : fat (freed f l bytes) f next = 0 := by
        rw [fat_freed, if_pos hmem]
      refine ⟨1 + l.length, _, blk₂, disk₂, _, hok₂, hbuffered₂, fun hzero => ?_, fun n => ?_⟩
      · rw [← slot_addr_eq hf.bytePerSector (hf.in_range (hrange next hmem))]
        exact fat_zero_cleared (hfreed hzero) next
      · have hmark : (0 : Nat) ≠ endMark := by decide
        rw [← Nat.add_assoc]
        exact (hrun (n + 1)).trans (by rw [hround n, hcleared, if_neg hmark])
  constructor
  · intro n r disk' h
    refine ⟨remove_loop_result n _ _ _ _ _ _ _ rfl h, ?_⟩
    obtain ⟨blk₂, disk₂, hok₂, hbuffered₂, hround⟩ :=
      remove_round_block hf.toFormatted hpos hok hbuffered
    have hcleared : fat (writeWord bytes₁ (fatAddr f 0) 0) f 0 = 0 :=
      fat_write_same (Nat.two_pow_pos 32)
    have hlater : removeBlk (n + 1 + k) b f blk ⟨bytes, []⟩ = some (r, disk') := by
      rw [Nat.add_assoc]
      exact remove_loop_mono n _ _ _ _ _ _ _ (1 + k) h
    rw [hrun, hround n] at hlater
    split at hlater
    case isTrue =>
      cases hlater
      exact hcleared
    case isFalse =>
      exact remove_loop_zero_free hf.bytePerSector n _ _ _ _ _ _ hok₂ hbuffered₂ hcleared hlater
  · intro hzero n
    cases hresult : removeBlk n b f blk ⟨bytes, []⟩ with
    | none => rfl
    | some result =>
        have hlater := remove_loop_mono n _ _ _ _ _ _ _ k hresult
        have hendless := remove_loop_zero_endless hf.toFormatted hpos n _ _ _ _ _ _ hok hbuffered
          (hfree hzero)
        rw [← hrun n] at hendless
        exact absurd (hlater.symm.trans hendless) (Option.some_ne_none _)

/-! ### The theorem -/

/-- `remove_blk` is harmless exactly on the well-formed chains: on the others it never reports an
error. -/
theorem remove_blk_harmless_iff (f : SuperBlock) (hf : Geometry f) (bytes blk : Bytes) (b : Nat) :
    FreesSafely bytes f b blk ↔ ∃ l, GoodChain bytes f b l := by
  constructor
  · rintro ⟨r, disk', ⟨n, hreturns⟩, hdamaged⟩
    by_contra hnone
    obtain ⟨herror, -⟩ := hdamaged fun l hgood => hnone ⟨l, hgood⟩
    exact herror (remove_loop_result n _ _ _ _ _ _ _ rfl (hreturns n le_rfl))
  · rintro ⟨l, hgood⟩
    refine ⟨0, ⟨freed f l bytes, []⟩, ⟨f.numOfBlk, fun n hn => ?_⟩,
      fun hnone => absurd hgood (hnone l)⟩
    exact remove_blk_spec hf hgood.chain hgood.nonempty (fun c hc => (hgood.range c hc).2) hn
      f.rootBlk blk

/-- A chain of one block. -/
theorem remove_blk_harmless_iff_one_block :
    FreesSafely markedDisk (superBlockAt markedDisk 512) 1 fun _ => 0#8 := by
  have hgood : GoodChain markedDisk (superBlockAt markedDisk 512) 1 [1] := by
    have hend : fat markedDisk (superBlockAt markedDisk 512) 1 = endMark := by decide +kernel
    refine ⟨⟨rfl, by decide, hend⟩, by decide, fun c hc => ?_⟩
    rw [List.mem_singleton] at hc
    rw [hc]
    decide
  exact (remove_blk_harmless_iff (superBlockAt markedDisk 512) marked_disk_geometry markedDisk
    (fun _ => 0#8) 1).mpr ⟨[1], hgood⟩

/-- The entry of block 2 is free: `remove_blk` frees the reserved entry 0 as well and returns 0. -/
theorem free_block_removed : ¬ ∀ (f : SuperBlock), Geometry f → ∀ (bytes blk : Bytes),
    ∀ b < f.numOfBlk, FreesSafely bytes f b blk := by
  intro h
  obtain ⟨r, disk', ⟨n, hreturns⟩, hdamaged⟩ := h (superBlockAt markedDisk 512) marked_disk_geometry
    markedDisk (fun _ => 0#8) 2 (by decide)
  have hfree : fat markedDisk (superBlockAt markedDisk 512) 2 = 0 := by decide +kernel
  obtain ⟨herror, -⟩ := hdamaged fun l hgood => by
    obtain ⟨hchain, hne, hrange⟩ := hgood
    cases l with
    | nil => exact hne rfl
    | cons c l =>
        obtain ⟨rfl, -, hrest⟩ := hchain
        rw [hfree] at hrest
        cases l with
        | nil => exact absurd (Linked.nil_iff.mp hrest) (by decide)
        | cons d l =>
            obtain ⟨rfl, -⟩ := hrest
            exact absurd (hrange 0 (by simp)).1 (by decide)
  exact herror (remove_loop_result n _ _ _ _ _ _ _ rfl (hreturns n le_rfl))

end Sirius.Cfs.User
