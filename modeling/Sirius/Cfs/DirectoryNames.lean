import Sirius.Cfs.CopyRoundTrip
import Sirius.Cfs.CreateIntegrity

/-!
# The names in a directory

A directory has 64 slots, and each busy entry puts its padded name into one of them. A lookup in the
user library is a search through the slots. The operations on a directory change one slot at a time,
so names stay unique as long as each of them brings a name that no other slot has.
-/

namespace Sirius.Cfs.User

open Library

/-! ### Slots with values -/

section Slots

variable {ι α : Type*} {slot slot' : ι → Option α} {i : ι}

/-- No value is in two slots. -/
def Distinct (slot : ι → Option α) : Prop :=
  ∀ i j a, slot i = some a → slot j = some a → i = j

/-- One slot gets a value that no other slot has, or it keeps the one it has. -/
theorem Distinct.replace (h : Distinct slot) (hothers : ∀ j, j ≠ i → slot' j = slot j)
    (hnew : slot' i = slot i ∨ ∀ a, slot' i = some a → ∀ j, j ≠ i → slot j ≠ some a) :
    Distinct slot' := by
  have hone : ∀ j a, j ≠ i → slot' i = some a → slot' j ≠ some a := by
    intro j a hj ha hja
    rw [hothers j hj] at hja
    obtain hsame | hfresh := hnew
    · exact hj (h j i a hja (hsame ▸ ha))
    · exact hfresh a ha j hj hja
  intro j k a hja hka
  by_cases hj : j = i
  · by_cases hk : k = i
    · exact hj.trans hk.symm
    · exact absurd hka (hone k a hk (hj ▸ hja))
  · by_cases hk : k = i
    · exact absurd hja (hone j a hj (hk ▸ hka))
    · rw [hothers j hj] at hja
      rw [hothers k hk] at hka
      exact h j k a hja hka

end Slots

/-! ### The names -/

/-- A name as the 96 bytes of a directory entry hold it. -/
def paddedName (name : List Byte) : List Byte := (List.range 96).map fun k => name.getD k space

/-- The name of the busy entry `i` of the directory block `D`. -/
def entryName (bytes : Bytes) (f : SuperBlock) (D i : Nat) : Option (List Byte) :=
  if i < 64 ∧ busy bytes (entryAt f (D, i)) ≠ 0#8 then some (slice bytes (entryAt f (D, i)) 96)
  else none

/-- Only entry `i` of the directory `D` may have changed. The super block is the same, and no block
was freed. -/
structure ChangesEntry (bytes bytes' : Bytes) (f : SuperBlock) (D i : Nat) : Prop where
  super : superBlockAt bytes' 512 = superBlockAt bytes 512
  entries : ∀ j < 64, j ≠ i → SameEntry bytes bytes' f (D, j)
  taken : ∀ c < f.numOfBlk, fat bytes f c ≠ 0 → fat bytes' f c ≠ 0

variable {bytes bytes' heap d : Bytes} {f : SuperBlock} {D i j : Nat} {name path : List Byte}
  {attr : BitVec 32}

theorem ChangesEntry.refl : ChangesEntry bytes bytes f D i :=
  ⟨rfl, fun _ _ _ _ _ => rfl, fun _ _ h => h⟩

/-- Two changes of one entry. -/
theorem ChangesEntry.trans {bytes'' : Bytes} (h : ChangesEntry bytes bytes' f D i)
    (h' : ChangesEntry bytes' bytes'' f D i) : ChangesEntry bytes bytes'' f D i where
  super := h'.super.trans h.super
  entries := fun j hj hne k hk => (h'.entries j hj hne k hk).trans (h.entries j hj hne k hk)
  taken := fun c hc hused => h'.taken c hc (h.taken c hc hused)

theorem padded_name_eq (h : ∀ k < 96, bytes (j + k) = name.getD k space) :
    slice bytes j 96 = paddedName name :=
  List.map_congr_left fun k hk => h k (List.mem_range.mp hk)

theorem padded_name_iff :
    slice bytes j 96 = paddedName name ↔ ∀ k < 96, bytes (j + k) = name.getD k space := by
  refine ⟨fun h k hk => ?_, padded_name_eq⟩
  exact List.map_inj_left.mp h k (List.mem_range.mpr hk)

theorem entry_name_some :
    entryName bytes f D i = some (paddedName name) ↔ i < 64 ∧ busy bytes (entryAt f (D, i)) ≠ 0#8 ∧
      ∀ k < 96, bytes (entryAt f (D, i) + k) = name.getD k space := by
  rw [← padded_name_iff, entryName, ← and_assoc]
  split
  case isTrue h => simp [h]
  case isFalse h => simp [h]

/-- The names depend on the entries only. -/
theorem ChangesEntry.others (h : ChangesEntry bytes bytes' f D i) (hj : j ≠ i) :
    entryName bytes' f D j = entryName bytes f D j := by
  unfold entryName
  by_cases hlt : j < 64
  · have hsame := h.entries j hlt hj
    rw [hsame.busy, slice_congr fun k hk => hsame k (by omega)]
  · rw [if_neg fun hcond => hlt hcond.1, if_neg fun hcond => hlt hcond.1]

/-! ### The lookup -/

/-- `read_directory_entry` finds the entry with the name, or there is none. -/
theorem read_directory_entry_cases (hf : Geometry f) (bytes d heap : Bytes) (D : Nat)
    (hname : 0#8 ∉ name) :
    (∃ i, entryName bytes f D i = some (paddedName name) ∧
      ∃ d', readDirectoryEntry ⟨bytes, []⟩ d { f with rootBlk := D } (stringBytes name) heap =
          (0, d', ⟨bytes, []⟩) ∧
        ∀ k < 128, d' k = bytes (entryAt f (D, i) + k)) ∨
    ((∀ i, entryName bytes f D i ≠ some (paddedName name)) ∧
      readDirectoryEntry ⟨bytes, []⟩ d { f with rootBlk := D } (stringBytes name) heap =
        (-1, d, ⟨bytes, []⟩)) := by
  have hbyte : ∀ i < 64, ∀ k < 128, directoryBlock ⟨bytes, []⟩ { f with rootBlk := D } heap
      (i * 128 + k) = bytes (entryAt f (D, i) + k) := fun i hi k hk => by
    rw [same_directory_byte hf D bytes heap (by omega), entryAt, Nat.add_assoc]
  -- the comparison of the loop, in terms of the slots
  have hcmp : ∀ i < 64, (if busy (directoryBlock ⟨bytes, []⟩ { f with rootBlk := D } heap)
        (i * 128) ≠ 0#8
      then filenameCmp (directoryBlock ⟨bytes, []⟩ { f with rootBlk := D } heap) (i * 128)
        (stringBytes name) else -1) = 0 ↔ entryName bytes f D i = some (paddedName name) := by
    intro i hi
    have hbusy : busy (directoryBlock ⟨bytes, []⟩ { f with rootBlk := D } heap) (i * 128) =
        busy bytes (entryAt f (D, i)) := hbyte i hi 97 (by omega)
    rw [hbusy, entry_name_some, and_iff_right hi]
    by_cases hzero : busy bytes (entryAt f (D, i)) ≠ 0#8
    · rw [if_pos hzero, filename_cmp_iff _ _ hname, and_iff_right hzero]
      exact forall₂_congr fun k hk => by rw [hbyte i hi k (by omega)]
    · rw [if_neg hzero]
      exact ⟨fun h => absurd h (by decide), fun h => absurd h.1 hzero⟩
  obtain ⟨i, hi, hfound, hfirst⟩ | habsent := first_or_absent fun i =>
    if busy (directoryBlock ⟨bytes, []⟩ { f with rootBlk := D } heap) (i * 128) ≠ 0#8
    then filenameCmp (directoryBlock ⟨bytes, []⟩ { f with rootBlk := D } heap) (i * 128)
      (stringBytes name) else -1
  · refine .inl ⟨i, (hcmp i hi).mp hfound, copyBytes d 0 (directoryBlock ⟨bytes, []⟩
      { f with rootBlk := D } heap) (i * 128) 128, ?_, fun k hk => ?_⟩
    · have hloop := search_entries_found _ 0 (Nat.zero_le i) (show i < 0 + 64 by omega) hfound
        fun j _ hj => hfirst j hj
      rw [readDirectoryEntry, readRoot, read_sector_ok rfl]
      simp only [ne_eq, not_true_eq_false, if_false]
      unfold directoryBlock at hloop ⊢
      rw [hloop, if_pos ⟨rfl, hi⟩]
    · have hcopy :=
        holds_entry_copy d (directoryBlock ⟨bytes, []⟩ { f with rootBlk := D } heap) i k hk
      rw [hcopy, hbyte i hi k hk]
  · refine .inr ⟨fun i hsome => ?_, ?_⟩
    · have hi := (entry_name_some.mp hsome).1
      exact habsent i hi ((hcmp i hi).mpr hsome)
    · have hloop := search_entries_absent _ 63 0 0 fun j _ hj => habsent j (by omega)
      rw [readDirectoryEntry, readRoot, read_sector_ok rfl]
      simp only [ne_eq, not_true_eq_false, if_false]
      unfold directoryBlock at hloop
      rw [hloop, if_neg fun h => by omega]

/-! ### A new entry -/

/-- The name in a new entry. -/
theorem new_entry_name (hpath : 0#8 ∉ getFileName path) {b : Nat} :
    ∀ k < 96, newEntry path attr i b k = (getFileName path).getD k space := by
  intro k hk
  rw [newEntry, write_word_outside (by omega), Function.update_of_ne (by omega),
    Function.update_of_ne (by omega), write_word_outside (by omega)]
  exact pad_nulls_strcpy hpath hk

/-- A call of `create_file` changes its entry only. -/
theorem create_effect_changes (hf : Geometry f) {b : Nat} {dir : Bytes} (hin : PlaceIn f (D, i) b)
    (hother : D ≠ b) (heffect : CreateEffect bytes bytes' f (D, i) b dir) :
    ChangesEntry bytes bytes' f D i := by
  refine ⟨heffect.super_same hf hin, fun j hj hne => ?_, fun c hc hne => ?_⟩
  · have hsame : (D, j) ≠ (D, i) := fun heq => hne (congrArg Prod.snd heq)
    exact heffect.entry_same hf hin hin.dir hj hsame hother
  · by_cases hcb : c = b
    · rw [hcb, heffect.table]
      decide
    · rwa [heffect.fat_same hf hin hc hcb]

/-- `create_file` fills one slot with its name, or it changes no byte. -/
theorem create_file_changes (hf : Geometry f) (htaken : ReservedTaken bytes f)
    (hD : f.rootBlk ≤ D ∧ D < f.numOfBlk) (hused : fat bytes f D ≠ 0)
    (hpath : 0#8 ∉ getFileName path) (attr : BitVec 32) (blk heap : Bytes) :
    ∃ i bytes', ChangesEntry bytes bytes' f D i ∧
      (entryName bytes' f D i = entryName bytes f D i ∨
        entryName bytes' f D i = some (paddedName (getFileName path))) ∧
      (createFile { f with rootBlk := D } path attr blk heap ⟨bytes, []⟩).2.2.bytes = bytes' := by
  obtain ⟨i, b, bytes', hi, -, hlow, hhigh, hfree, hrun, heffect⟩ | ⟨-, hsame⟩ :=
    create_file_run hf htaken hD.2 hD.1 hused 
  · have hin : PlaceIn f (D, i) b := ⟨hD, hi, hlow, hhigh⟩
    have hother : D ≠ b := fun heq => hused (heq ▸ hfree)
    refine ⟨i, bytes', create_effect_changes hf hin hother heffect, .inr ?_, by rw [hrun]⟩
    refine entry_name_some.mpr ⟨hi, ?_, fun k hk => ?_⟩
    · rw [(create_new_entry heffect).1, new_entry_busy]
      decide
    · rw [heffect.entry k (by omega), new_entry_name hpath k hk]
  · exact ⟨0, bytes, .refl, .inl rfl, hsame⟩

end Sirius.Cfs.User
