import Sirius.Memory.FrameBitmap
import Sirius.Library.Runs
import Mathlib.Data.List.Pairwise
import Mathlib.Data.Finset.Card

/-!
# The page allocator over whole runs

A run starts after `ram_setup` and `alloc_pages_setup` and applies `alloc_pages` and `free_pages`
in any order, as long as pages and frames are left. `PageInvariant` connects the state of the
allocator with the blocks that are live: disjoint ranges, the marks of their pages, their page
table entries and their frames. `page_allocator_invariant` is the result on runs.
-/

namespace Sirius.Memory

open Library

/-- Only the frame bitmap and the entries count for the invariant of the frames. -/
theorem FramesInv.congr {s s' : Mm} (h : FramesInv s) (hram : s'.ramBitmap = s.ramBitmap)
    (hpte : s'.allocPte = s.allocPte) : FramesInv s' := by
  constructor <;> rw [hpte]
  · exact h.range
  · rw [hram]
    exact h.taken
  · exact h.distinct
  · exact h.absent

/-! ### The loops over a block -/

/-- What `alloc_pages` does to the entries of `n` pages from `page` on, and to nothing else. -/
structure AllocEffect (type n page : Nat) (s s' : Mm) : Prop where
  inv : FramesInv s'
  bitmap : s'.pageBitmap = s.pageBitmap
  lock : s'.allocSpinLock = s.allocSpinLock
  given : ∀ q, page ≤ q → q < page + n →
    (s'.allocPte q).p = true ∧ (s'.allocPte q).us = decide (type ≠ 0)
  kept : ∀ q, ¬ (page ≤ q ∧ q < page + n) → s'.allocPte q = s.allocPte q
  frames : ∀ f, frameBit s'.ramBitmap f = true ↔
    frameBit s.ramBitmap f = true ∨ ∃ q, page ≤ q ∧ q < page + n ∧ (s'.allocPte q).frames = f

theorem alloc_pages_loop_effect {type n page : Nat} {s s' : Mm} (h : FramesInv s)
    (hbound : page + n ≤ pteCount)
    (habsent : ∀ q, page ≤ q → q < page + n → (s.allocPte q).p = false)
    (hloop : allocPagesLoop type n page s = some s') : AllocEffect type n page s s' := by
  induction n generalizing page s with
  | zero =>
      obtain rfl : s = s' := Option.some.inj hloop
      exact ⟨h, rfl, rfl, fun q hq hlt => by omega, fun q _ => rfl,
        fun f => ⟨.inl, fun hf => hf.elim id fun ⟨q, hq, hlt, _⟩ => by omega⟩⟩
  | succ n ih =>
      rcases alloc_pages_loop_succ type n page s with ⟨f, hf, hstep⟩ | ⟨-, hstep⟩
      · rw [hstep] at hloop
        have hpage := h.absent page (by omega) (habsent page le_rfl (by omega))
        have hrest : ∀ q, page + 1 ≤ q → q < page + 1 + n →
            ((givePage type page f s).allocPte q).p = false := fun q hq hlt => by
          rw [give_page_other (by omega)]
          exact habsent q (by omega) (by omega)
        have heffect := ih (give_page_inv h hf.range hf.clear) (by omega) hrest hloop
        have hself : s'.allocPte page = (givePage type page f s).allocPte page :=
          heffect.kept page (by omega)
        rw [give_page_self] at hself
        refine ⟨heffect.inv, heffect.bitmap, heffect.lock, fun q hq hlt => ?_, fun q hq => ?_,
          fun g => ?_⟩
        · rcases Nat.eq_or_lt_of_le hq with rfl | hq
          · rw [hself]
            by_cases htype : type = 0 <;> simp [htype, hpage.1]
          · exact heffect.given q hq (by omega)
        · rw [heffect.kept q (by omega), give_page_other (by omega)]
        · rw [heffect.frames, give_page_bit, Bool.or_eq_true, decide_eq_true_eq]
          constructor
          · rintro ((rfl | hg) | ⟨q, hq, hlt, hg⟩)
            · exact .inr ⟨page, le_rfl, by omega, by rw [hself]⟩
            · exact .inl hg
            · exact .inr ⟨q, by omega, by omega, hg⟩
          · rintro (hg | ⟨q, hq, hlt, hg⟩)
            · exact .inl (.inr hg)
            · rcases Nat.eq_or_lt_of_le hq with rfl | hq
              · rw [hself] at hg
                exact .inl (.inl hg.symm)
              · exact .inr ⟨q, hq, by omega, hg⟩
      · rw [hstep] at hloop
        cases hloop

/-- At least `n` frames are left. -/
def FramesLeft (ram : Bytes) (n : Nat) : Prop :=
  ∃ free : Finset Nat, free.card = n ∧ ∀ f ∈ free, FrameRange f ∧ frameBit ram f = false

/-- The loop returns when enough frames are left. -/
theorem alloc_pages_loop_returns {n : Nat} (type page : Nat) (s : Mm)
    (h : FramesLeft s.ramBitmap n) :
    ∃ s', allocPagesLoop type n page s = some s' := by
  induction n generalizing page s with
  | zero => exact ⟨s, rfl⟩
  | succ n ih =>
      obtain ⟨free, hcard, hfree⟩ := h
      rcases alloc_pages_loop_succ type n page s with ⟨f, -, hstep⟩ | ⟨hfull, -⟩
      · rw [hstep]
        -- whichever frame the iteration took, `n` of the free ones are left
        obtain ⟨rest, hsub, hrest⟩ :=
          Finset.exists_subset_card_eq (show n ≤ (free.erase f).card by
            have := Finset.pred_card_le_card_erase (s := free) (a := f)
            omega)
        refine ih (page + 1) _ ⟨rest, hrest, fun g hg => ?_⟩
        obtain ⟨hne, hmem⟩ := Finset.mem_erase.mp (hsub hg)
        refine ⟨(hfree g hmem).1, ?_⟩
        rw [give_page_bit, (hfree g hmem).2]
        simp [hne]
      · obtain ⟨f, hf⟩ := Finset.card_pos.mp (show 0 < free.card by omega)
        obtain ⟨hrange, hclear⟩ := hfree f hf
        rw [hfull f hrange] at hclear
        cases hclear

/-- What `free_pages` does to the entries of `n` pages from `page` on, and to nothing else. -/
structure FreeEffect (n page : Nat) (s s' : Mm) : Prop where
  inv : FramesInv s'
  bitmap : s'.pageBitmap = s.pageBitmap
  lock : s'.allocSpinLock = s.allocSpinLock
  taken : ∀ q, page ≤ q → q < page + n →
    (s'.allocPte q).p = false ∧ (s'.allocPte q).us = false ∧ (s'.allocPte q).frames = 0
  kept : ∀ q, ¬ (page ≤ q ∧ q < page + n) → s'.allocPte q = s.allocPte q
  frames : ∀ f, frameBit s'.ramBitmap f = true ↔
    frameBit s.ramBitmap f = true ∧ ∀ q, page ≤ q → q < page + n → (s.allocPte q).frames ≠ f

theorem free_pages_loop_effect {n page : Nat} {s : Mm} (h : FramesInv s)
    (hbound : page + n ≤ pteCount)
    (hpresent : ∀ q, page ≤ q → q < page + n → (s.allocPte q).p = true) :
    FreeEffect n page s (freePagesLoop n page s) := by
  induction n generalizing page s with
  | zero =>
      exact ⟨h, rfl, rfl, fun q hq hlt => by omega, fun q _ => rfl,
        fun f => ⟨fun hf => ⟨hf, fun q hq hlt => by omega⟩, And.left⟩⟩
  | succ n ih =>
      have hpage := hpresent page le_rfl (by omega)
      rw [free_pages_loop_succ (h.range page (by omega) hpage)]
      have hrest : ∀ q, page + 1 ≤ q → q < page + 1 + n →
          ((takePage page s).allocPte q).p = true := fun q hq hlt => by
        rw [take_page_other (by omega)]
        exact hpresent q (by omega) (by omega)
      have heffect := ih (take_page_inv h (by omega) hpage) (by omega) hrest
      refine ⟨heffect.inv, heffect.bitmap, heffect.lock, fun q hq hlt => ?_, fun q hq => ?_,
        fun f => ?_⟩
      · rcases Nat.eq_or_lt_of_le hq with rfl | hq
        · rw [heffect.kept page (by omega), take_page_self]
          exact ⟨rfl, rfl, rfl⟩
        · exact heffect.taken q hq (by omega)
      · rw [heffect.kept q (by omega), take_page_other (by omega)]
      · rw [heffect.frames, take_page_bit, Bool.and_eq_true, Bool.not_eq_true',
          decide_eq_false_iff_not]
        constructor
        · rintro ⟨⟨hne, hf⟩, hrest⟩
          refine ⟨hf, fun q hq hlt => ?_⟩
          rcases Nat.eq_or_lt_of_le hq with rfl | hq
          · exact Ne.symm hne
          · have hq' := hrest q hq (by omega)
            rwa [take_page_other (by omega)] at hq'
        · rintro ⟨hf, hall⟩
          refine ⟨⟨(hall page le_rfl (by omega)).symm, hf⟩, fun q hq hlt => ?_⟩
          rw [take_page_other (by omega)]
          exact hall q (by omega) (by omega)

/-! ### Live blocks -/

/-- A block returned by `alloc_pages`: its first page, its length and its type. -/
structure Block where
  index : Nat
  len : Nat
  type : Nat
  deriving DecidableEq, Repr

namespace Block

/-- The address `alloc_pages` stored for the block. -/
def addr (b : Block) : Nat := allocPageMemory + b.index * 0x1000

/-- The page belongs to the block. -/
def Covers (b : Block) (page : Nat) : Prop := b.index ≤ page ∧ page < b.index + b.len

/-- The page ranges of two blocks are disjoint. -/
def Apart (b c : Block) : Prop := b.index + b.len ≤ c.index ∨ c.index + c.len ≤ b.index

instance : Std.Symm Apart := ⟨fun _ _ => Or.symm⟩

theorem covers_first {b : Block} (h : 0 < b.len) : b.Covers b.index := ⟨le_rfl, by omega⟩

theorem addr_ne_zero (b : Block) : b.addr ≠ 0 := by
  unfold addr allocPageMemory
  omega

/-- The index that `free_pages` computes from the address. -/
theorem index_eq (b : Block) (h : b.index + b.len ≤ pteCount) :
    (b.addr + 2 ^ 64 - allocPageMemory) % 2 ^ 64 / 0x1000 % 2 ^ 32 = b.index := by
  have hcount : pteCount = 262144 := rfl
  unfold addr allocPageMemory
  omega

theorem Apart.not_covers {b c : Block} {page : Nat} (h : b.Apart c) (hb : b.Covers page) :
    ¬ c.Covers page := by
  unfold Apart Covers at *
  omega

end Block

/-- The marks of the live blocks: 01 on first pages, 11 on other pages, 00 elsewhere. -/
structure MarksMatch (bitmap : Bytes) (live : List Block) : Prop where
  head : ∀ b ∈ live, mark bitmap b.index = 1#2
  tail : ∀ b ∈ live, ∀ page, b.index < page → page < b.index + b.len → mark bitmap page = 3#2
  free : ∀ page < markCount, (∀ b ∈ live, ¬ b.Covers page) → mark bitmap page = 0#2

/-- The state of the allocator when the blocks of `live` are allocated. -/
structure PageInvariant (s : Mm) (live : List Block) : Prop where
  lock : s.allocSpinLock = 0
  bounds : ∀ b ∈ live, 0 < b.len ∧ b.index + b.len ≤ pteCount
  disjoint : live.Pairwise Block.Apart
  marks : MarksMatch s.pageBitmap live
  frames : FramesInv s
  present : ∀ page < pteCount, (s.allocPte page).p = true ↔ ∃ b ∈ live, b.Covers page
  user : ∀ b ∈ live, ∀ page, b.Covers page → (s.allocPte page).us = decide (b.type ≠ 0)

namespace PageInvariant

variable {s : Mm} {live : List Block}

/-- The order of the live blocks does not matter. -/
theorem perm (h : PageInvariant s live) {live' : List Block} (hperm : live.Perm live') :
    PageInvariant s live' := by
  have hmem : ∀ b, b ∈ live' ↔ b ∈ live := fun b => hperm.mem_iff.symm
  constructor
  · exact h.lock
  · exact fun b hb => h.bounds b ((hmem b).mp hb)
  · exact (hperm.pairwise_iff fun hapart => Or.symm hapart).mp h.disjoint
  · constructor
    · exact fun b hb => h.marks.head b ((hmem b).mp hb)
    · exact fun b hb => h.marks.tail b ((hmem b).mp hb)
    · exact fun page hpage hnone => h.marks.free page hpage fun b hb => hnone b ((hmem b).mpr hb)
  · exact h.frames
  · intro page hpage
    rw [h.present page hpage]
    exact exists_congr fun b => and_congr_left fun _ => (hmem b).symm
  · exact fun b hb => h.user b ((hmem b).mp hb)

/-- A page belongs to at most one live block. -/
theorem unique (h : PageInvariant s live) {b c : Block} (hb : b ∈ live) (hc : c ∈ live)
    {page : Nat} (hpb : b.Covers page) (hpc : c.Covers page) : b = c := by
  by_contra hne
  exact (h.disjoint.forall hb hc hne).not_covers hpb hpc

theorem nodup (h : PageInvariant s live) : live.Nodup := by
  refine h.disjoint.imp_of_mem fun hb hc hapart heq => ?_
  subst heq
  have := (h.bounds _ hb).1
  unfold Block.Apart at hapart
  omega

/-- Live blocks with one address are the same block. -/
theorem addr_inj (h : PageInvariant s live) {b c : Block} (hb : b ∈ live) (hc : c ∈ live)
    (haddr : b.addr = c.addr) : b = c := by
  have hindex : b.index = c.index := by
    unfold Block.addr at haddr
    omega
  have hfirst := Block.covers_first (h.bounds c hc).1
  rw [← hindex] at hfirst
  exact h.unique hb hc (Block.covers_first (h.bounds b hb).1) hfirst

/-- A page whose low mark bit is clear belongs to no live block. -/
theorem not_covered_of_low_clear (h : PageInvariant s live) {page : Nat}
    (hclear : mark s.pageBitmap page &&& 1#2 = 0#2) : ∀ b ∈ live, ¬ b.Covers page := by
  intro b hb hcovers
  rcases Nat.eq_or_lt_of_le hcovers.1 with heq | hlt
  · rw [← heq, h.marks.head b hb] at hclear
    exact absurd hclear (by decide)
  · rw [h.marks.tail b hb page hlt hcovers.2] at hclear
    exact absurd hclear (by decide)

/-- The mark of a page says what the page is. -/
theorem mark_cases (h : PageInvariant s live) {page : Nat} (hpage : page < markCount) :
    (mark s.pageBitmap page = 1#2 ↔ ∃ b ∈ live, b.index = page) ∧
      (mark s.pageBitmap page = 3#2 ↔ ∃ b ∈ live, b.index < page ∧ page < b.index + b.len) ∧
      (mark s.pageBitmap page = 0#2 ↔ ∀ b ∈ live, ¬ b.Covers page) := by
  have hhead : ∀ b ∈ live, b.index = page → mark s.pageBitmap page = 1#2 :=
    fun b hb heq => heq ▸ h.marks.head b hb
  have htail : ∀ b ∈ live, b.index < page ∧ page < b.index + b.len →
      mark s.pageBitmap page = 3#2 := fun b hb hin => h.marks.tail b hb page hin.1 hin.2
  have hfree : (∀ b ∈ live, ¬ b.Covers page) → mark s.pageBitmap page = 0#2 :=
    h.marks.free page hpage
  have hcases : (∃ b ∈ live, b.index = page) ∨
      (∃ b ∈ live, b.index < page ∧ page < b.index + b.len) ∨ ∀ b ∈ live, ¬ b.Covers page := by
    by_cases hcovered : ∃ b ∈ live, b.Covers page
    · obtain ⟨b, hb, hle, hlt⟩ := hcovered
      rcases Nat.eq_or_lt_of_le hle with heq | hgt
      · exact .inl ⟨b, hb, heq⟩
      · exact .inr (.inl ⟨b, hb, hgt, hlt⟩)
    · exact .inr (.inr fun b hb hcovers => hcovered ⟨b, hb, hcovers⟩)
  -- the three marks exclude one another, so each mark leaves one of the three cases
  obtain ⟨hone, hthree, hzero⟩ :
      (1#2 : BitVec 2) ≠ 3#2 ∧ (3#2 : BitVec 2) ≠ 0#2 ∧ (0#2 : BitVec 2) ≠ 1#2 := by decide
  refine ⟨⟨fun hmark => ?_, fun ⟨b, hb, heq⟩ => hhead b hb heq⟩,
    ⟨fun hmark => ?_, fun ⟨b, hb, hin⟩ => htail b hb hin⟩, ⟨fun hmark => ?_, hfree⟩⟩
  · rcases hcases with hfirst | ⟨b, hb, hin⟩ | hnone
    · exact hfirst
    · exact absurd (hmark.symm.trans (htail b hb hin)) hone
    · exact absurd ((hfree hnone).symm.trans hmark) hzero
  · rcases hcases with ⟨b, hb, heq⟩ | hinner | hnone
    · exact absurd ((hhead b hb heq).symm.trans hmark) hone
    · exact hinner
    · exact absurd (hmark.symm.trans (hfree hnone)) hthree
  · rcases hcases with ⟨b, hb, heq⟩ | ⟨b, hb, hin⟩ | hnone
    · exact absurd (hmark.symm.trans (hhead b hb heq)) hzero
    · exact absurd ((htail b hb hin).symm.trans hmark) hthree
    · exact hnone

/-- The page behind a live block carries no continuation mark, even when another block starts
there. -/
theorem mark_behind (h : PageInvariant s live) {b : Block} (hb : b ∈ live) :
    mark s.pageBitmap (b.index + b.len) ≠ 2#2 ∧ mark s.pageBitmap (b.index + b.len) ≠ 3#2 := by
  obtain ⟨hpos, hbound⟩ := h.bounds b hb
  have hcount : b.index + b.len < markCount := lt_of_le_of_lt hbound (by decide)
  by_cases hcovered : ∃ c ∈ live, c.Covers (b.index + b.len)
  · obtain ⟨c, hc, hle, hlt⟩ := hcovered
    rcases Nat.eq_or_lt_of_le hle with heq | hgt
    · rw [← heq, h.marks.head c hc]
      decide
    · -- the last page of `b` would belong to `c` as well
      have hlast : b.Covers (b.index + b.len - 1) := ⟨by omega, by omega⟩
      have heq := h.unique hb hc hlast ⟨by omega, by omega⟩
      subst heq
      omega
  · rw [h.marks.free _ hcount fun c hc hcovers => hcovered ⟨c, hc, hcovers⟩]
    decide

/-- The frames of the pages of a live block. -/
theorem frame_range (h : PageInvariant s live) {b : Block} (hb : b ∈ live) {page : Nat}
    (hpage : b.Covers page) : FrameRange (s.allocPte page).frames := by
  have hlt : page < pteCount := lt_of_lt_of_le hpage.2 (h.bounds b hb).2
  exact h.frames.range page hlt ((h.present page hlt).mpr ⟨b, hb, hpage⟩)

/-- `get_busy_page_size` recovers the length of every live block. -/
theorem busy_page_size (h : PageInvariant s live) {b : Block} (hb : b ∈ live) :
    getBusyPageSize s.pageBitmap b.index = some b.len := by
  obtain ⟨hpos, hbound⟩ := h.bounds b hb
  exact get_busy_page_size_eq hpos (lt_of_le_of_lt hbound (by decide)) (h.marks.head b hb)
    (h.marks.tail b hb) (h.mark_behind hb)

end PageInvariant

/-! ### One call -/

/-- A free run of `len` pages and `len` frames are left. -/
def NotExhausted (s : Mm) (len : Nat) : Prop :=
  (∃ i, i + len ≤ pteCount ∧ ∀ page, i ≤ page → page < i + len → mark s.pageBitmap page = 0#2) ∧
    FramesLeft s.ramBitmap len

/-- `free_pages` made exactly the pages and the frames of `b` free. -/
structure BlockFreed (s : Mm) (b : Block) (s' : Mm) : Prop where
  pages : ∀ page, b.Covers page → mark s'.pageBitmap page = 0#2 ∧
    (s'.allocPte page).p = false ∧ (s'.allocPte page).us = false ∧ (s'.allocPte page).frames = 0
  others : ∀ page, ¬ b.Covers page → mark s'.pageBitmap page = mark s.pageBitmap page ∧
    s'.allocPte page = s.allocPte page
  frames : ∀ f, frameBit s'.ramBitmap f = true ↔ frameBit s.ramBitmap f = true ∧
    ∀ page, b.Covers page → (s.allocPte page).frames ≠ f

section Calls

variable {s : Mm} {live : List Block}

/-- The page bitmap and the lock when `alloc_pages` starts its loop over the entries. -/
def markedFor (s : Mm) (i len : Nat) : Mm :=
  { s with pageBitmap := masked len (markPos i) false s.pageBitmap, allocSpinLock := 1 }

/-- The loop over the entries of a free run adds a block to the live ones. -/
theorem alloc_block_inv (h : PageInvariant s live) {type len i : Nat} (hpos : 0 < len)
    (hbound : i + len ≤ pteCount) (hclear : RunClear s.pageBitmap i len) {s' : Mm}
    (hloop : allocPagesLoop type len i (markedFor s i len) = some s') :
    PageInvariant { s' with allocSpinLock := 0 } (⟨i, len, type⟩ :: live) := by
  have hcount : pteCount < 2 ^ 31 ∧ pteCount < markCount := by decide
  -- no live block covers a page of the free run
  have hnew : ∀ b ∈ live, ∀ page, i ≤ page → page < i + len → ¬ b.Covers page :=
    fun b hb page hle hlt => h.not_covered_of_low_clear (hclear page hle hlt) b hb
  have habsent : ∀ q, i ≤ q → q < i + len → (s.allocPte q).p = false := fun q hq hlt => by
    rw [← Bool.not_eq_true, h.present q (by omega)]
    rintro ⟨b, hb, hcovers⟩
    exact hnew b hb q hq hlt hcovers
  have hmarkFree : ∀ q, i ≤ q → q < i + len → mark s.pageBitmap q = 0#2 := fun q hq hlt =>
    h.marks.free q (by omega) fun b hb => hnew b hb q hq hlt
  have hstart : FramesInv (markedFor s i len) := h.frames.congr rfl rfl
  have heffect := alloc_pages_loop_effect hstart hbound habsent hloop
  have hkept : ∀ q, ¬ (i ≤ q ∧ q < i + len) → s'.allocPte q = s.allocPte q := heffect.kept
  have hbitmap : s'.pageBitmap = masked len (markPos i) false s.pageBitmap := heffect.bitmap
  have hcovers : ∀ page, (Block.mk i len type).Covers page ↔ i ≤ page ∧ page < i + len :=
    fun page => Iff.rfl
  refine ⟨rfl, ?_, ?_, ⟨?_, ?_, ?_⟩, heffect.inv.congr rfl rfl, fun page hpage => ?_, ?_⟩
  · rintro b (_ | ⟨_, hb⟩)
    · exact ⟨hpos, hbound⟩
    · exact h.bounds b hb
  · refine List.pairwise_cons.mpr ⟨fun b hb => ?_, h.disjoint⟩
    have hbpos := (h.bounds b hb).1
    by_contra hmeet
    have hb₁ := hnew b hb (max i b.index) (by omega)
    unfold Block.Apart Block.Covers at *
    simp only at hmeet
    omega
  · rintro b (_ | ⟨_, hb⟩)
    · change mark s'.pageBitmap i = 1#2
      rw [hbitmap, mark_masked, if_pos ⟨le_rfl, by omega⟩, if_pos ⟨rfl, rfl⟩,
        hmarkFree i le_rfl (by omega)]
      decide
    · change mark s'.pageBitmap b.index = 1#2
      rw [hbitmap, mark_masked, if_neg fun hin =>
        hnew b hb _ hin.1 hin.2 (Block.covers_first (h.bounds b hb).1)]
      exact h.marks.head b hb
  · rintro b (_ | ⟨_, hb⟩) page hlt hend
    · change mark s'.pageBitmap page = 3#2
      simp only at hlt hend
      rw [hbitmap, mark_masked, if_pos ⟨by omega, hend⟩, if_neg fun heq => by omega]
    · change mark s'.pageBitmap page = 3#2
      rw [hbitmap, mark_masked, if_neg fun hin => hnew b hb _ hin.1 hin.2 ⟨by omega, hend⟩]
      exact h.marks.tail b hb page hlt hend
  · intro page hpage hnone
    change mark s'.pageBitmap page = 0#2
    rw [hbitmap, mark_masked,
      if_neg fun hin => hnone ⟨i, len, type⟩ (by simp) ((hcovers page).mpr hin)]
    exact h.marks.free page hpage fun b hb => hnone b (List.mem_cons_of_mem _ hb)
  · change (s'.allocPte page).p = true ↔ _
    by_cases hin : i ≤ page ∧ page < i + len
    · simp only [(heffect.given page hin.1 hin.2).1, true_iff]
      exact ⟨_, List.mem_cons_self .., (hcovers page).mpr hin⟩
    · rw [hkept page hin, h.present page hpage]
      simp [hcovers, hin]
  · rintro b (_ | ⟨_, hb⟩) page hpage
    · exact (heffect.given page hpage.1 hpage.2).2
    · change (s'.allocPte page).us = _
      rw [hkept page fun hin => hnew b hb page hin.1 hin.2 hpage]
      exact h.user b hb page hpage

/-- A call of `alloc_pages` on free pages of the window. -/
theorem alloc_pages_cases (h : PageInvariant s live) {type len addr granted v : Nat} {s' : Mm}
    (hpos : 0 < len) (halloc : allocPages type len addr s = some (granted, v, s')) :
    ∃ i last, granted = len ∧ v = allocPageMemory + i * 0x1000 ∧
      RunClear s.pageBitmap i len ∧
      allocPagesLoop type len i (markedFor s i len) = some last ∧
      s' = { last with allocSpinLock := 0 } := by
  have hlock : ¬ s.allocSpinLock ≠ 0 := not_not_intro h.lock
  rw [allocPages, if_neg (by omega), if_neg hlock] at halloc
  simp only [Option.bind_eq_bind, Option.bind_eq_some_iff] at halloc
  obtain ⟨⟨i, bitmap⟩, hget, last, hloop, hresult⟩ := halloc
  simp only [Option.pure_def, Option.some.injEq, Prod.mk.injEq] at hresult
  obtain ⟨rfl, rfl, rfl⟩ := hresult
  by_cases hlen : len < 2 ^ 31
  · rcases get_free_page_loop_spec s.pageBitmap hpos hlen markCount 0 with
      ⟨j, -, -, hclear, -, hpage⟩ | ⟨-, hpage⟩
    · have heq : some (i, bitmap) = some (j, masked len (markPos j) false s.pageBitmap) :=
        hget.symm.trans hpage
      simp only [Option.some.injEq, Prod.mk.injEq] at heq
      obtain ⟨rfl, rfl⟩ := heq
      exact ⟨i, last, rfl, rfl, hclear, hloop, rfl⟩
    · have heq : some (i, bitmap) = none := hget.symm.trans hpage
      cases heq
  · have heq : some (i, bitmap) = none := hget.symm.trans (get_free_page_loop_large _ hlen _ _ _)
    cases heq

/-- `alloc_pages` returns a new block as long as pages and frames are left, and the state matches
the live blocks with the new one added. -/
theorem alloc_pages_inv (h : PageInvariant s live) (type len addr : Nat) (hpos : 0 < len)
    (hleft : NotExhausted s len) :
    ∃ b s', allocPages type len addr s = some (len, b.addr, s') ∧ b.len = len ∧ b.type = type ∧
      PageInvariant s' (b :: live) := by
  obtain ⟨⟨j, hj, hfree⟩, hframes⟩ := hleft
  have hcount : pteCount < 2 ^ 31 ∧ pteCount < markCount := by decide
  have hrun : RunClear s.pageBitmap j len := fun q hq hlt => by
    rw [hfree q hq hlt]
    decide
  rcases get_free_page_loop_spec s.pageBitmap hpos (by omega) markCount 0 with
    ⟨i, -, -, hclear, hfirst, hpage⟩ | ⟨hnone, -⟩
  · -- first fit: the run found starts no later than the one that is known to be free
    have hi : i ≤ j := by
      by_contra hlt
      exact hfirst j (Nat.zero_le j) (by omega) hrun
    obtain ⟨s', hloop⟩ := alloc_pages_loop_returns type i (markedFor s i len) hframes
    refine ⟨⟨i, len, type⟩, { s' with allocSpinLock := 0 }, ?_, rfl, rfl,
      alloc_block_inv h hpos (by omega) hclear hloop⟩
    have hget : getFreePage s.pageBitmap len =
        some (i, masked len (markPos i) false s.pageBitmap) := hpage
    simp only [allocPages, if_neg (Nat.ne_of_gt hpos), h.lock, ne_eq, not_true, if_false, hget,
      Option.bind_eq_bind, Option.bind_some, Block.addr]
    unfold markedFor at hloop
    rw [hloop]
    rfl
  · exact absurd hrun (hnone j (Nat.zero_le j) (by omega))

/-- A call of `alloc_pages` that returns pages of the window adds its block to the live ones. -/
theorem alloc_pages_window_inv (h : PageInvariant s live) {type len addr granted v : Nat}
    {s' : Mm} (hpos : 0 < len) (halloc : allocPages type len addr s = some (granted, v, s'))
    (hbound : (v - allocPageMemory) / 0x1000 + len ≤ pteCount) :
    v = (Block.mk ((v - allocPageMemory) / 0x1000) len type).addr ∧
      PageInvariant s' (⟨(v - allocPageMemory) / 0x1000, len, type⟩ :: live) := by
  obtain ⟨i, last, -, rfl, hclear, hloop, rfl⟩ := alloc_pages_cases h hpos halloc
  have hindex : (allocPageMemory + i * 0x1000 - allocPageMemory) / 0x1000 = i := by omega
  rw [hindex] at hbound ⊢
  exact ⟨rfl, alloc_block_inv h hpos hbound hclear hloop⟩

/-- `free_pages` of a live block returns, frees exactly that block, and the state matches the
other live blocks. -/
theorem free_pages_inv (h : PageInvariant s live) {b : Block} (hb : b ∈ live) :
    ∃ s', freePages b.addr s = some s' ∧ BlockFreed s b s' ∧
      PageInvariant s' (live.erase b) := by
  obtain ⟨hpos, hbound⟩ := h.bounds b hb
  have hcount : pteCount = 262144 := rfl
  let start : Mm := { s with pageBitmap := umasked b.len (markPos b.index) s.pageBitmap }
  have hstart : FramesInv start := h.frames.congr rfl rfl
  have hpresent : ∀ q, b.index ≤ q → q < b.index + b.len → (start.allocPte q).p = true :=
    fun q hq hlt => (h.present q (by omega)).mpr ⟨b, hb, hq, hlt⟩
  have heffect := free_pages_loop_effect hstart hbound hpresent
  have hbitmap := heffect.bitmap
  -- the other blocks have no page in common with the one that is freed
  have hother : ∀ c ∈ live.erase b, c ∈ live ∧ ∀ page, c.Covers page → ¬ b.Covers page := by
    intro c hc
    obtain ⟨hne, hmem⟩ := (List.Nodup.mem_erase_iff h.nodup).mp hc
    exact ⟨hmem, fun page hcp hbp => hne (h.unique hmem hb hcp hbp)⟩
  refine ⟨freePagesLoop b.len b.index start, ?_, ⟨fun page hin => ⟨?_, ?_⟩, fun page hin =>
    ⟨?_, heffect.kept page hin⟩, fun f => ?_⟩, ?_⟩
  · simp only [freePages, if_neg b.addr_ne_zero, b.index_eq hbound, h.busy_page_size hb,
      Option.bind_eq_bind, Option.bind_some]
    rfl
  · rw [hbitmap, mark_umasked]
    exact if_pos hin
  · exact heffect.taken page hin.1 hin.2
  · rw [hbitmap, mark_umasked]
    exact if_neg hin
  · rw [heffect.frames]
    exact ⟨fun hf => ⟨hf.1, fun page hin => hf.2 page hin.1 hin.2⟩,
      fun hf => ⟨hf.1, fun q hq hlt => hf.2 q ⟨hq, hlt⟩⟩⟩
  · refine ⟨by rw [heffect.lock]; exact h.lock, fun c hc => h.bounds c (hother c hc).1,
      h.disjoint.sublist (List.erase_sublist ..), ⟨fun c hc => ?_, fun c hc page hlt hend => ?_,
        fun page hpage hnone => ?_⟩, heffect.inv, fun page hpage => ?_, fun c hc page hin => ?_⟩
    · obtain ⟨hmem, hapart⟩ := hother c hc
      have hfirst := hapart _ (Block.covers_first (h.bounds c hmem).1)
      rw [hbitmap, mark_umasked]
      exact (if_neg hfirst).trans (h.marks.head c hmem)
    · obtain ⟨hmem, hapart⟩ := hother c hc
      have hpage := hapart page ⟨by omega, hend⟩
      rw [hbitmap, mark_umasked]
      exact (if_neg hpage).trans (h.marks.tail c hmem page hlt hend)
    · rw [hbitmap, mark_umasked]
      by_cases hin : b.Covers page
      · exact if_pos hin
      · refine (if_neg hin).trans (h.marks.free page hpage fun c hc hcovers => ?_)
        by_cases heq : c = b
        · exact hin (heq ▸ hcovers)
        · exact hnone c ((List.Nodup.mem_erase_iff h.nodup).mpr ⟨heq, hc⟩) hcovers
    · by_cases hin : b.Covers page
      · simp only [(heffect.taken page hin.1 hin.2).1, Bool.false_eq_true, false_iff]
        rintro ⟨c, hc, hcovers⟩
        exact (hother c hc).2 page hcovers hin
      · rw [heffect.kept page hin, show start.allocPte page = s.allocPte page from rfl,
          h.present page hpage]
        constructor
        · rintro ⟨c, hc, hcovers⟩
          exact ⟨c, (List.Nodup.mem_erase_iff h.nodup).mpr
            ⟨fun heq => hin (heq ▸ hcovers), hc⟩, hcovers⟩
        · rintro ⟨c, hc, hcovers⟩
          exact ⟨c, (hother c hc).1, hcovers⟩
    · obtain ⟨hmem, hapart⟩ := hother c hc
      rw [heffect.kept page (hapart page hin)]
      exact h.user c hmem page hin

/-- The state behind `free_pages` of a live block. -/
theorem freed_inv (h : PageInvariant s live) {b : Block} {s' : Mm} (hb : b ∈ live)
    (hfree : freePages b.addr s = some s') :
    BlockFreed s b s' ∧ PageInvariant s' (live.erase b) := by
  obtain ⟨s'', hreturns, hspec⟩ := free_pages_inv h hb
  rw [hreturns] at hfree
  obtain rfl := Option.some.inj hfree
  exact hspec

end Calls

/-! ### Runs -/

/-- A call of the allocator. -/
inductive PageCall where
  | alloc (type len : Nat)
  | free (b : Block)

/-- The calls the runs are made of: allocations while pages and frames are left, and frees of
blocks that were allocated and not freed since. -/
def PageCall.Allowed : Mm × List Block → PageCall → Prop
  | (s, _), .alloc _ len => 0 < len ∧ NotExhausted s len
  | (_, live), .free b => b ∈ live

/-- A call together with the list of live blocks. -/
inductive PageStep : Mm × List Block → PageCall → Mm × List Block → Prop where
  | alloc (s s' : Mm) (live : List Block) (type len addr granted v : Nat) :
      allocPages type len addr s = some (granted, v, s') →
      PageStep (s, live) (.alloc type len)
        (s', ⟨(v - allocPageMemory) / 0x1000, len, type⟩ :: live)
  | free (s s' : Mm) (live : List Block) (b : Block) :
      freePages b.addr s = some s' → PageStep (s, live) (.free b) (s', live.erase b)

/-- The runs of the allocator after the setup of the bitmaps and the page tables. -/
def PageRun (s₀ s : Mm) (live : List Block) : Prop :=
  Run PageStep PageCall.Allowed (allocPagesSetup (ramSetup s₀), []) (s, live)

/-- The state the setup leaves. -/
theorem setup_inv (s₀ : Mm) : PageInvariant (allocPagesSetup (ramSetup s₀)) [] := by
  have hpte : ∀ page < pteCount, (allocPagesSetup (ramSetup s₀)).allocPte page =
      { p := false, rw := true, us := false, frames := 0 } := fun page hpage => if_pos hpage
  refine ⟨rfl, by simp, List.Pairwise.nil, ⟨by simp, by simp, fun page hpage _ => ?_⟩,
    ⟨?_, ?_, ?_, ?_⟩, ?_, by simp⟩
  · have hbyte : page / 4 < 0 + 0x2000000 := by
      have : markCount = 134217728 := rfl
      omega
    have hfill : (allocPagesSetup (ramSetup s₀)).pageBitmap (page / 4) = 0#8 :=
      if_pos ⟨Nat.zero_le _, hbyte⟩
    rw [mark, hfill]
    exact BitVec.extractLsb'_zero
  · intro page hpage hp
    simp [hpte page hpage] at hp
  · intro page hpage hp
    simp [hpte page hpage] at hp
  · intro page hpage other hother hp
    simp [hpte page hpage] at hp
  · intro page hpage _
    simp [hpte page hpage]
  · intro page hpage
    simp [hpte page hpage]

/-- The setup leaves 384 MiB of frames, and pages for all of them. -/
theorem setup_not_exhausted (s₀ : Mm) {len : Nat} (hlen : len ≤ 98304) :
    NotExhausted (allocPagesSetup (ramSetup s₀)) len := by
  have hmarks := (setup_inv s₀).marks.free
  have hcount : pteCount = 262144 ∧ markCount = 134217728 := ⟨rfl, rfl⟩
  refine ⟨⟨0, by omega, fun page _ hlt => hmarks page (by omega) (by simp)⟩,
    Finset.Ico 32768 (32768 + len), by simp, fun f hf => ?_⟩
  obtain ⟨hlow, hhigh⟩ := Finset.mem_Ico.mp hf
  have hbyte : (allocPagesSetup (ramSetup s₀)).ramBitmap (f / 8) = 0#8 :=
    if_pos ⟨by omega, by omega⟩
  refine ⟨⟨hlow, by omega⟩, ?_⟩
  rw [frameBit, hbyte]
  exact BitVec.getLsbD_zero

/-- A block is known from its address. -/
theorem block_of_addr {b : Block} {len type : Nat} (hlen : b.len = len) (htype : b.type = type) :
    (⟨(b.addr - allocPageMemory) / 0x1000, len, type⟩ : Block) = b := by
  obtain ⟨index, _, _⟩ := b
  obtain rfl : _ = len := hlen
  obtain rfl : _ = type := htype
  simp only [Block.addr, Block.mk.injEq, and_true]
  omega

/-- The invariant holds in every state of a run. -/
theorem page_run_inv {s₀ s : Mm} {live : List Block} (hrun : PageRun s₀ s live) :
    PageInvariant s live := by
  refine Run.invariant (fun state => PageInvariant state.1 state.2) hrun (setup_inv s₀) ?_
  rintro ⟨s, live⟩ call next h hallowed hstep
  cases hstep with
  | alloc _ s' _ type len addr granted v halloc =>
      obtain ⟨b, s'', hreturns, hlen, htype, hinv⟩ :=
        alloc_pages_inv h type len addr hallowed.1 hallowed.2
      rw [hreturns] at halloc
      simp only [Option.some.injEq, Prod.mk.injEq] at halloc
      obtain ⟨-, rfl, rfl⟩ := halloc
      rw [block_of_addr hlen htype]
      exact hinv
  | free _ s' _ b hfree => exact (freed_inv h hallowed hfree).2

/-- The calls the runs are made of: allocations that return pages of the window, and frees of
blocks that were allocated and not freed since. -/
def PageCall.InWindow : Mm × List Block → PageCall → Prop
  | (s, _), .alloc type len => 0 < len ∧ ∃ granted v s',
      allocPages type len 0 s = some (granted, v, s') ∧
        (v - allocPageMemory) / 0x1000 + len ≤ pteCount
  | (_, live), .free b => b ∈ live

/-- The runs after the setup whose calls meet `good`. -/
def AllocatorRun (good : Mm × List Block → PageCall → Prop) (s₀ s : Mm) (live : List Block) :
    Prop :=
  Run PageStep good (allocPagesSetup (ramSetup s₀), []) (s, live)

/-- The address in `*addr` before the call does not matter. -/
theorem alloc_pages_addr (type addr : Nat) {len : Nat} (s : Mm) (hpos : 0 < len) :
    allocPages type len addr s = allocPages type len 0 s := by
  have hlen : len ≠ 0 := by omega
  rw [allocPages, allocPages, if_neg hlen, if_neg hlen]

/-- The invariant holds in every state of a run inside the window. -/
theorem allocator_run_inv {s₀ s : Mm} {live : List Block}
    (hrun : AllocatorRun PageCall.InWindow s₀ s live) : PageInvariant s live := by
  refine Run.invariant (fun state => PageInvariant state.1 state.2) hrun (setup_inv s₀) ?_
  intro state call next h hgood hstep
  cases hstep with
  | alloc s s' live type len addr granted v halloc =>
      obtain ⟨hpos, granted', v', s'', hreturns, hbound⟩ := hgood
      rw [alloc_pages_addr type addr s hpos, hreturns] at halloc
      obtain ⟨rfl, rfl, rfl⟩ : granted' = granted ∧ v' = v ∧ s'' = s' := by simpa using halloc
      exact (alloc_pages_window_inv h hpos hreturns hbound).2
  | free s s' live b hfree => exact (freed_inv h hgood hfree).2

/-- The page allocator over whole runs. In every state a run reaches: the live blocks are
disjoint; the mark of a page is 01 exactly on first pages of live blocks, 11 exactly on their other
pages and 00 exactly on all others; `get_busy_page_size` returns the length of every live block; an
entry is present exactly for the pages of live blocks, is a user entry exactly for a nonzero type,
and present entries own distinct frames that are taken; `free_pages` of a live block frees exactly
that block; and `alloc_pages` returns while pages and frames are left. -/
theorem page_allocator_invariant (s₀ s : Mm) (live : List Block) (hrun : PageRun s₀ s live) :
    live.Pairwise Block.Apart ∧
    (∀ page < markCount,
      (mark s.pageBitmap page = 1#2 ↔ ∃ b ∈ live, b.index = page) ∧
      (mark s.pageBitmap page = 3#2 ↔ ∃ b ∈ live, b.index < page ∧ page < b.index + b.len) ∧
      (mark s.pageBitmap page = 0#2 ↔ ∀ b ∈ live, ¬ b.Covers page)) ∧
    (∀ b ∈ live, getBusyPageSize s.pageBitmap b.index = some b.len) ∧
    (∀ page < pteCount, ((s.allocPte page).p = true ↔ ∃ b ∈ live, b.Covers page) ∧
      ((s.allocPte page).p = true → frameBit s.ramBitmap (s.allocPte page).frames = true) ∧
      ∀ other < pteCount, (s.allocPte page).p = true → (s.allocPte other).p = true →
        (s.allocPte page).frames = (s.allocPte other).frames → page = other) ∧
    (∀ b ∈ live, b.index + b.len ≤ pteCount ∧
      ∀ page, b.Covers page → (s.allocPte page).us = decide (b.type ≠ 0)) ∧
    (∀ b ∈ live, ∃ s', freePages b.addr s = some s' ∧ BlockFreed s b s') ∧
    (∀ type len addr, 0 < len → NotExhausted s len →
      ∃ b s', allocPages type len addr s = some (len, b.addr, s') ∧ b.len = len ∧
        b.type = type ∧ PageRun s₀ s' (b :: live)) := by
  have h := page_run_inv hrun
  refine ⟨h.disjoint, fun page hpage => h.mark_cases hpage, fun b hb => h.busy_page_size hb,
    fun page hpage => ⟨h.present page hpage, h.frames.taken page hpage, h.frames.distinct page hpage⟩,
    fun b hb => ⟨(h.bounds b hb).2, h.user b hb⟩, fun b hb => ?_, fun type len addr hpos hleft => ?_⟩
  · obtain ⟨s', hreturns, hfreed, -⟩ := free_pages_inv h hb
    exact ⟨s', hreturns, hfreed⟩
  · obtain ⟨b, s', hreturns, hlen, htype, -⟩ := alloc_pages_inv h type len addr hpos hleft
    refine ⟨b, s', hreturns, hlen, htype, ?_⟩
    have hstep := PageStep.alloc s s' live type len addr len b.addr hreturns
    rw [block_of_addr hlen htype] at hstep
    exact Run.snoc hrun (.alloc type len) ⟨hpos, hleft⟩ hstep

/-- The result at a run that allocates a user block of two pages. -/
theorem page_allocator_invariant_two_pages :
    ∃ s b, PageRun ⟨fun _ => 0#8, fun _ => 0#8, fun _ => ⟨false, false, false, 0⟩, 0⟩ s [b] ∧
      getBusyPageSize s.pageBitmap b.index = some 2 := by
  have hsetup := page_allocator_invariant
    ⟨fun _ => 0#8, fun _ => 0#8, fun _ => ⟨false, false, false, 0⟩, 0⟩ _ [] Run.refl
  obtain ⟨-, -, -, -, -, -, halloc⟩ := hsetup
  obtain ⟨b, s, -, hlen, -, hrun⟩ :=
    halloc 1 2 0 (by decide) (setup_not_exhausted _ (by decide))
  have hblock := (page_allocator_invariant _ _ _ hrun).2.2.1 b (List.mem_singleton_self b)
  exact ⟨s, b, hrun, by rw [hblock, hlen]⟩

end Sirius.Memory
