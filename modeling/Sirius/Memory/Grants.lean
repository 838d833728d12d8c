import Sirius.Memory.DmaContiguity

/-!
# Granted frames

`Granted` says that a piece of code has taken a list of frames from the bitmap. Such pieces can be
put one after the other, and the number of frames that are left goes down by the length of the list.
`alloc_pages` takes one frame for each page, in the order of the pages.
-/

namespace Sirius.Memory

open Library

/-- The frames of `l` were free, and are taken now. -/
structure Granted (ram : Bytes) (l : List Nat) (ram' : Bytes) : Prop where
  nodup : l.Nodup
  free : ∀ f ∈ l, FrameRange f ∧ frameBit ram f = false
  bits : ∀ g, frameBit ram' g = true ↔ frameBit ram g = true ∨ g ∈ l

variable {ram ram' ram₁ : Bytes} {l l₁ : List Nat} {f g n : Nat}

namespace Granted

theorem nil : Granted ram [] ram := ⟨List.nodup_nil, by simp, by simp⟩

theorem taken (h : Granted ram l ram') (hf : f ∈ l) : frameBit ram' f = true :=
  (h.bits f).mpr (.inr hf)

/-- A frame that is free afterwards was free before. -/
theorem free_before (h : Granted ram l ram') (hg : frameBit ram' g = false) :
    frameBit ram g = false ∧ g ∉ l := by
  have hnot : ¬ (frameBit ram g = true ∨ g ∈ l) := by
    rw [← h.bits, hg]
    exact Bool.false_ne_true
  rw [not_or, Bool.not_eq_true] at hnot
  exact hnot

theorem append (h : Granted ram l ram₁) (h' : Granted ram₁ l₁ ram') :
    Granted ram (l ++ l₁) ram' := by
  refine ⟨List.nodup_append.mpr ⟨h.nodup, h'.nodup, ?_⟩, fun f hf => ?_, fun g => ?_⟩
  · rintro f hf _ hf' rfl
    exact (h.free_before (h'.free f hf').2).2 hf
  · rcases List.mem_append.mp hf with hf | hf
    · exact h.free f hf
    · obtain ⟨hrange, hclear⟩ := h'.free f hf
      exact ⟨hrange, (h.free_before hclear).1⟩
  · rw [h'.bits, h.bits, List.mem_append, or_assoc]

/-- Taking the first free frame. -/
theorem first (hf : FirstFreeFrame ram f) : Granted ram [f] (setFrame ram f) := by
  refine ⟨List.nodup_singleton f, fun g hg => ?_, fun g => ?_⟩
  · rw [List.mem_singleton.mp hg]
    exact ⟨hf.range, hf.clear⟩
  · rw [frame_bit_set, Bool.or_eq_true, decide_eq_true_iff, List.mem_singleton, or_comm]

/-- The granted frames are those that are not left any more. -/
theorem left_iff (h : Granted ram l ram') :
    FramesLeft ram (l.length + n) ↔ FramesLeft ram' n := by
  have hlength : l.toFinset.card = l.length := List.toFinset_card_of_nodup h.nodup
  constructor
  · rintro ⟨free, hcard, hfree⟩
    obtain ⟨rest, hsub, hrest⟩ := Finset.exists_subset_card_eq
      (show n ≤ (free \ l.toFinset).card by
        have := Finset.le_card_sdiff l.toFinset free
        omega)
    refine ⟨rest, hrest, fun g hg => ?_⟩
    obtain ⟨hmem, hnot⟩ := Finset.mem_sdiff.mp (hsub hg)
    obtain ⟨hrange, hclear⟩ := hfree g hmem
    refine ⟨hrange, ?_⟩
    rw [List.mem_toFinset] at hnot
    rw [← Bool.not_eq_true, h.bits, hclear]
    simpa using hnot
  · rintro ⟨free, hcard, hfree⟩
    have hdisjoint : Disjoint l.toFinset free := by
      rw [Finset.disjoint_left]
      intro g hg hmem
      exact (h.free_before (hfree g hmem).2).2 (List.mem_toFinset.mp hg)
    refine ⟨l.toFinset ∪ free, ?_, fun g hg => ?_⟩
    · rw [Finset.card_union_of_disjoint hdisjoint, hlength, hcard]
    · rcases Finset.mem_union.mp hg with hg | hg
      · exact h.free g (List.mem_toFinset.mp hg)
      · exact ⟨(hfree g hg).1, (h.free_before (hfree g hg).2).1⟩

end Granted

theorem frames_left_zero (ram : Bytes) : FramesLeft ram 0 := ⟨∅, rfl, by simp⟩

theorem FramesLeft.mono {m : Nat} (h : FramesLeft ram n) (hm : m ≤ n) : FramesLeft ram m := by
  obtain ⟨free, hcard, hfree⟩ := h
  obtain ⟨rest, hsub, hrest⟩ := Finset.exists_subset_card_eq (show m ≤ free.card by omega)
  exact ⟨rest, hrest, fun f hf => hfree f (hsub hf)⟩

/-- `alloc_frame` grants a frame exactly when one is left. -/
theorem alloc_frame_granted (s : Mm) :
    (∃ f, FrameRange f ∧ allocFrame s = (f * 0x1000, { s with ramBitmap := setFrame s.ramBitmap f }) ∧
      Granted s.ramBitmap [f] (setFrame s.ramBitmap f)) ∨
    (¬ FramesLeft s.ramBitmap 1 ∧ allocFrame s = (0, s)) := by
  rcases alloc_frame_first s with ⟨f, hf, halloc⟩ | ⟨hfull, halloc⟩
  · exact .inl ⟨f, hf.range, halloc, Granted.first hf⟩
  · refine .inr ⟨?_, halloc⟩
    rintro ⟨free, hcard, hfree⟩
    obtain ⟨f, hf⟩ := Finset.card_pos.mp (show 0 < free.card by omega)
    have hclear := (hfree f hf).2
    rw [hfull f (hfree f hf).1] at hclear
    cases hclear

/-! ### Blocks of pages -/

/-- The frames of `n` pages from `page` on. -/
def pageFrames (s : Mm) (page n : Nat) : List Nat :=
  (List.range' page n).map fun q => (s.allocPte q).frames

@[simp] theorem page_frames_length (s : Mm) (page : Nat) : (pageFrames s page n).length = n := by
  simp [pageFrames]

/-- The loop of `alloc_pages` takes one frame for each page. -/
theorem alloc_pages_loop_granted {type page : Nat} {s s' : Mm}
    (hloop : allocPagesLoop type n page s = some s') :
    Granted s.ramBitmap (pageFrames s' page n) s'.ramBitmap ∧
      (∀ q, ¬ (page ≤ q ∧ q < page + n) → s'.allocPte q = s.allocPte q) := by
  induction n generalizing page s with
  | zero =>
      obtain rfl := Option.some.inj hloop
      exact ⟨Granted.nil, fun _ _ => rfl⟩
  | succ n ih =>
      rcases alloc_pages_loop_succ type n page s with ⟨f, hf, hstep⟩ | ⟨-, hstep⟩
      · rw [hstep] at hloop
        obtain ⟨hrest, hkept⟩ := ih hloop
        have hpage : (s'.allocPte page).frames = f := by
          rw [hkept page (by omega), give_page_self]
        refine ⟨?_, fun q hq => ?_⟩
        · rw [pageFrames, List.range'_succ, List.map_cons, hpage]
          exact (Granted.first hf).append hrest
        · rw [hkept q (by omega), give_page_other (by omega)]
      · rw [hstep] at hloop
        cases hloop

/-- `alloc_pages` takes one frame for each page of the block, and leaves the other entries as they
are. -/
theorem alloc_pages_grants {type len addr granted v : Nat} {s s' : Mm}
    (halloc : allocPages type len addr s = some (granted, v, s')) :
    ∃ page, Granted s.ramBitmap (pageFrames s' page len) s'.ramBitmap ∧
      (∀ q, ¬ (page ≤ q ∧ q < page + len) → s'.allocPte q = s.allocPte q) := by
  rw [allocPages] at halloc
  split at halloc
  · next hzero =>
      obtain ⟨-, hrest⟩ := Prod.mk.inj (Option.some.inj halloc)
      obtain ⟨-, rfl⟩ := Prod.mk.inj hrest
      rw [hzero]
      exact ⟨0, Granted.nil, fun _ _ => rfl⟩
  · split at halloc
    · cases halloc
    · obtain ⟨⟨index, bitmap⟩, -, halloc⟩ := Option.bind_eq_some_iff.mp halloc
      obtain ⟨s₁, hloop, halloc⟩ := Option.bind_eq_some_iff.mp halloc
      obtain ⟨-, hrest⟩ := Prod.mk.inj (Option.some.inj halloc)
      obtain ⟨-, rfl⟩ := Prod.mk.inj hrest
      obtain ⟨hgranted, hkept⟩ := alloc_pages_loop_granted hloop
      exact ⟨index, hgranted, hkept⟩

/-- The entries that have changed hold granted frames. -/
def ChangedGranted (s s' : Mm) (l : List Nat) : Prop :=
  ∀ q, s'.allocPte q ≠ s.allocPte q → (s'.allocPte q).frames ∈ l

theorem ChangedGranted.append {s s₁ s' : Mm} (h : ChangedGranted s s₁ l)
    (h' : ChangedGranted s₁ s' l₁) : ChangedGranted s s' (l ++ l₁) := by
  intro q hq
  rw [List.mem_append]
  by_cases hsame : s'.allocPte q = s₁.allocPte q
  · rw [hsame] at hq ⊢
    exact .inl (h q hq)
  · exact .inr (h' q hsame)

/-- What a call of `alloc_pages` takes. -/
theorem alloc_pages_takes {type len addr granted v : Nat} {s s' : Mm}
    (halloc : allocPages type len addr s = some (granted, v, s')) :
    ∃ l, l.length = len ∧ Granted s.ramBitmap l s'.ramBitmap ∧ ChangedGranted s s' l := by
  obtain ⟨page, hgranted, hkept⟩ := alloc_pages_grants halloc
  refine ⟨_, page_frames_length s' page, hgranted, fun q hq => ?_⟩
  by_cases hinside : page ≤ q ∧ q < page + len
  · exact List.mem_map.mpr ⟨q, List.mem_range'_1.mpr hinside, rfl⟩
  · exact absurd (hkept q hinside) hq

/-- `alloc_pages` for a list of blocks: their addresses. Each block has a type and a length. -/
def allocBlocks : List (Nat × Nat) → Mm → Option (List Nat × Mm)
  | [], s => some ([], s)
  | (type, len) :: blocks, s => do
      let (_, v, s) ← allocPages type len 0 s
      let (addrs, s) ← allocBlocks blocks s
      pure (v :: addrs, s)

theorem alloc_blocks_takes {blocks : List (Nat × Nat)} {addrs : List Nat} {s s' : Mm}
    (halloc : allocBlocks blocks s = some (addrs, s')) :
    ∃ l, l.length = (blocks.map Prod.snd).sum ∧ Granted s.ramBitmap l s'.ramBitmap ∧
      ChangedGranted s s' l := by
  induction blocks generalizing s addrs with
  | nil =>
      obtain ⟨-, rfl⟩ := Prod.mk.inj (Option.some.inj halloc)
      exact ⟨[], rfl, Granted.nil, fun q hq => absurd rfl hq⟩
  | cons block blocks ih =>
      obtain ⟨type, len⟩ := block
      obtain ⟨⟨granted, v, s₁⟩, hfirst, halloc⟩ := Option.bind_eq_some_iff.mp halloc
      obtain ⟨⟨rest, s₂⟩, hrest, halloc⟩ := Option.bind_eq_some_iff.mp halloc
      obtain ⟨-, rfl⟩ := Prod.mk.inj (Option.some.inj halloc)
      obtain ⟨l, hlength, hgranted, hchanged⟩ := alloc_pages_takes hfirst
      obtain ⟨l', hlength', hgranted', hchanged'⟩ := ih hrest
      refine ⟨l ++ l', ?_, hgranted.append hgranted', hchanged.append hchanged'⟩
      rw [List.length_append, hlength, hlength', List.map_cons, List.sum_cons]

end Sirius.Memory
