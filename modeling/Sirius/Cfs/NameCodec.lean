import Sirius.Cfs.Rename

/-!
# Names in directory entries

`create_file` pads a name with spaces to 96 bytes, `filename_cmp` compares such a field with a padded
name, and `assert_fn` takes the spaces away again. The three loops agree: a field compares equal to
its own name only, and a listing returns the name that opens the entry.
-/

namespace Sirius.Cfs.User

open Library

/-- The 96 bytes that `create_file` makes of a name: `strcpy` into the cleared entry, then the loop
that turns null bytes into spaces. -/
def nameField (name : List Byte) : Bytes := padNulls (strcpy (fun _ => 0#8) 0 name) 0

variable {bytes heap d fn : Bytes} {f : SuperBlock} {D i : Nat} {n m name : List Byte}

/-- The field holds the name, then spaces. -/
theorem name_field_byte (hname : 0#8 ∉ name) : ∀ k < 96, nameField name k = name.getD k space :=
  fun _ hk => pad_nulls_strcpy hname hk

/-- A field compares equal to the name it was made of, and to no other. -/
theorem name_field_cmp (hn : TrimmedName n) (hm : TrimmedName m) :
    filenameCmp (nameField n) 0 (stringBytes m) = 0 ↔ n = m := by
  rw [filename_cmp_iff _ _ hm.noNull]
  constructor
  · intro hsame
    refine hn.eq_of_padded hm fun k hk => ?_
    rw [← hsame k hk, Nat.zero_add, name_field_byte hn.noNull k hk]
  · rintro rfl k hk
    rw [Nat.zero_add, name_field_byte hn.noNull k hk]

/-- The name of an entry as a listing shows it. -/
def listedName (fn : Bytes) : List Byte := cString (assertFn fn 96) 97 0

/-- `assert_fn` gives the name of a field back. -/
theorem listed_name_eq (hn : TrimmedName n) (hfn : ∀ k < 96, fn k = nameField n k)
    (hend : fn 96 = 0#8) : listedName fn = n := by
  have hlength := hn.length
  have hfield : ∀ k < 96, fn k = n.getD k space := fun k hk =>
    (hfn k hk).trans (name_field_byte hn.noNull k hk)
  exact c_string_eq (hn.assert_fn_holds hfield hend) hn.noNull (by omega)

/-- A lookup of the name that a listing shows finds an entry with this name. -/
theorem listed_name_opens (hf : Geometry f) (hn : TrimmedName n)
    (hentry : entryName bytes f D i = some (paddedName n)) (hfn : ∀ k < 96, fn k = nameField n k)
    (hend : fn 96 = 0#8) (d heap : Bytes) :
    ∃ j d', entryName bytes f D j = some (paddedName n) ∧
      readDirectoryEntry ⟨bytes, []⟩ d { f with rootBlk := D } (stringBytes (listedName fn)) heap =
        (0, d', ⟨bytes, []⟩) ∧
      ∀ k < 128, d' k = bytes (entryAt f (D, j) + k) := by
  rw [listed_name_eq hn hfn hend]
  obtain ⟨j, hj, d', hfound, hd⟩ | ⟨habsent, -⟩ :=
    read_directory_entry_cases hf bytes d heap D hn.noNull
  · exact ⟨j, d', hj, hfound, hd⟩
  · exact absurd hentry (habsent i)

/-- The name codec. The field of a name compares equal to the name and to no other one; followed by a
null byte it gives the name back; the field is what `create_file` stores for a path with this last
component, with a null byte behind it; and a busy entry with the name is found under the name that a
listing shows for it. -/
theorem name_codec (n m : List Byte) (hn : TrimmedName n) (hm : TrimmedName m) :
    (filenameCmp (nameField n) 0 (stringBytes m) = 0 ↔ n = m) ∧
    (∀ fn : Bytes, (∀ k < 96, fn k = nameField n k) → fn 96 = 0#8 → listedName fn = n) ∧
    (∀ (path : List Byte) (attr : BitVec 32) (i b : Nat), getFileName path = n →
      (∀ k < 96, newEntry path attr i b k = nameField n k) ∧ newEntry path attr i b 96 = 0#8) ∧
    ∀ (f : SuperBlock) (bytes : Bytes) (D i : Nat) (fn d heap : Bytes), Geometry f →
      entryName bytes f D i = some (paddedName n) → (∀ k < 96, fn k = nameField n k) →
      fn 96 = 0#8 → ∃ j d', entryName bytes f D j = some (paddedName n) ∧
        readDirectoryEntry ⟨bytes, []⟩ d { f with rootBlk := D } (stringBytes (listedName fn)) heap =
          (0, d', ⟨bytes, []⟩) ∧
        ∀ k < 128, d' k = bytes (entryAt f (D, j) + k) := by
  refine ⟨name_field_cmp hn hm, fun fn hfn hend => listed_name_eq hn hfn hend,
    fun path attr i b hpath => ?_, fun f bytes D i fn d heap hf hentry hfn hend =>
      listed_name_opens hf hn hentry hfn hend d heap⟩
  have hnull : 0#8 ∉ getFileName path := hpath ▸ hn.noNull
  refine ⟨fun k hk => ?_, new_entry_reserved (hpath ▸ hn.length)⟩
  rw [new_entry_name hnull k hk, hpath, name_field_byte hn.noNull k hk]

/-- The name `a b` with a space inside is none of the names that it starts with. -/
theorem name_codec_inner_space :
    filenameCmp (nameField [0x61#8, space, 0x62#8]) 0 (stringBytes [0x61#8]) ≠ 0 ∧
      listedName (nameField [0x61#8, space, 0x62#8]) = [0x61#8, space, 0x62#8] := by
  have hn : TrimmedName [0x61#8, space, 0x62#8] := ⟨by decide, by decide, by decide, by decide⟩
  have hm : TrimmedName [0x61#8] := ⟨by decide, by decide, by decide, by decide⟩
  obtain ⟨hcmp, hlisted, -⟩ := name_codec [0x61#8, space, 0x62#8] [0x61#8] hn hm
  exact ⟨fun hzero => absurd (hcmp.mp hzero) (by decide), hlisted _ (fun _ _ => rfl) (by decide)⟩

end Sirius.Cfs.User
