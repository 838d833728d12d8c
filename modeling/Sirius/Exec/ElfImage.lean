import Sirius.Exec.Elf

/-!
# Where a loaded program lies

The end of a program is the end of the last section with contents, in the order of the section
headers. Sections without contents do not count, nor do the ends of earlier sections, so a file whose
sections are not in the order of their addresses, or whose `.bss` lies last, is loaded outside its
own range or shares memory with its arguments. `WellLaidOut` is the condition on the section headers
under which this does not happen.
-/

namespace Sirius.Exec

open Library

/-- The sections of a file. -/
def sections (bf : Bytes) : List Section := (List.range' 0 (shNum bf)).map (sectionAt bf)

/-- The section has bytes that are copied. -/
def Section.copied (s : Section) : Bool := s.loaded ∧ s.size ≠ 0

/-- The sections with bytes that are copied. -/
def copiedSections (bf : Bytes) : List Section := (sections bf).filter Section.copied

/-- The end of the last section with bytes that are copied. -/
def lastEnd (bf : Bytes) : Nat :=
  match (copiedSections bf).getLast? with
  | none => 0
  | some s => (s.addr + s.size) % 2 ^ 64

/-- The distance of an address from the start of the section. -/
def Section.index (s : Section) (a : Nat) : Nat := (a + (2 ^ 64 - s.addr)) % 2 ^ 64

/-- The address belongs to the section. -/
def Section.Covers (s : Section) (a : Nat) : Prop := s.index a < s.size

instance (s : Section) (a : Nat) : Decidable (s.Covers a) := inferInstanceAs (Decidable (_ < _))

/-- The byte that the last of the sections with the address has there in the file. -/
def contentAt (bf : Bytes) : List Section → Nat → Option Byte
  | [], _ => none
  | s :: l, a =>
      match contentAt bf l a with
      | some b => some b
      | none => if s.Covers a then some (bf ((s.offset + s.index a) % 2 ^ 64)) else none

/-- The program is loaded inside its range `[start, end)`: pages are mapped there, nothing is
written elsewhere, the bytes of sections without contents read as zero, and no section lies where
the arguments and the stack are. -/
structure LoadsInside (bf : Bytes) (phdr : ProgramHeader) : Prop where
  mapped : ∀ a, phdr.start ≤ a → a < phdr.endAddr → phdr.Mapped a
  inside : ∀ mem memory, loadElf64Segment bf mem = some memory →
    ∀ a < 2 ^ 64, a < phdr.start ∨ phdr.endAddr ≤ a → memory a = mem a
  zero : ∀ frames memory, programMemory bf frames phdr = some memory →
    ∀ s ∈ sections bf, s.addr ≠ 0 → s.type = shtNobits →
      ∀ a, phdr.start ≤ a → a < phdr.endAddr → s.Covers a → memory a = 0#8
  apart : ∀ s ∈ sections bf, s.addr ≠ 0 →
    ∀ k < appArgSize + appStakSize, ¬ s.Covers ((phdr.endAddr + k) % 2 ^ 64)

/-- The layout of a file that is loaded inside its range: every section with contents lies between
the start of the programs and the end of the last one; if there is one, the program with its
arguments and its stack is at most 1 GiB long; where contents lie over a section without contents
they are zero; and no section lies in the room of the arguments and the stack. -/
structure WellLaidOut (bf : Bytes) : Prop where
  inside : ∀ s ∈ copiedSections bf, 0x8000000000 ≤ s.addr ∧ s.addr + s.size ≤ lastEnd bf
  room : copiedSections bf ≠ [] → lastEnd bf + (appArgSize + appStakSize) ≤ 0x8000000000 + 2 ^ 30
  zero : ∀ s ∈ sections bf, s.addr ≠ 0 → s.type = shtNobits →
    ∀ a, 0x8000000000 ≤ a → a < lastEnd bf → s.Covers a →
      ∀ b, contentAt bf (copiedSections bf) a = some b → b = 0#8
  apart : ∀ s ∈ sections bf, s.addr ≠ 0 → s.size ≠ 0 →
    s.addr + s.size ≤ lastEnd bf ∨
      lastEnd bf + (appArgSize + appStakSize) ≤ s.addr ∧ s.addr + s.size ≤ lastEnd bf + 2 ^ 64

variable {bf mem memory : Bytes} {s : Section} {a n e i : Nat} {phdr : ProgramHeader}

/-! ### Copying a section -/

theorem read_long_lt (m : Bytes) (a : Nat) : readLong m a < 2 ^ 64 := by
  have hlow : readWord m a < 2 ^ 32 := read_word_lt
  have hhigh : readWord m (a + 4) < 2 ^ 32 := read_word_lt
  unfold readLong
  omega

theorem section_addr_lt (bf : Bytes) (i : Nat) : (sectionAt bf i).addr < 2 ^ 64 := read_long_lt _ _

/-- The address of a byte of the section is at its index. -/
theorem Section.index_add (haddr : s.addr < 2 ^ 64) (he : e < 2 ^ 64) :
    s.index ((s.addr + e) % 2 ^ 64) = e := by
  unfold Section.index
  omega

theorem Section.add_index (haddr : s.addr < 2 ^ 64) (ha : a < 2 ^ 64) :
    (s.addr + s.index a) % 2 ^ 64 = a := by
  unfold Section.index
  omega

/-- The loop over the bytes of a section. The induction is on the number of bytes; a byte that was
written is not written again, because a section is shorter than the address space. -/
theorem copy_loop_apply (haddr : s.addr < 2 ^ 64) (ha : a < 2 ^ 64) (hn : e + n < 2 ^ 64) :
    copyLoop bf s n e mem a =
      if e ≤ s.index a ∧ s.index a < e + n then bf ((s.offset + s.index a) % 2 ^ 64) else mem a := by
  induction n generalizing e mem with
  | zero =>
      rw [if_neg (by omega)]
      rfl
  | succ n ih =>
      rw [copyLoop, ih (by omega)]
      by_cases hlater : e + 1 ≤ s.index a ∧ s.index a < e + 1 + n
      · rw [if_pos hlater, if_pos (by omega)]
      rw [if_neg hlater]
      by_cases hhere : s.index a = e
      · have hsame : (s.addr + e) % 2 ^ 64 = a := by
          rw [← hhere, Section.add_index haddr ha]
        rw [if_pos (by omega), hsame, Function.update_self, hhere]
      · have hother : a ≠ (s.addr + e) % 2 ^ 64 := by
          intro heq
          rw [heq, Section.index_add haddr (by omega)] at hhere
          exact hhere rfl
        rw [if_neg (by omega), Function.update_of_ne hother]

/-- Loading one section. -/
theorem copy_section_apply (haddr : s.addr < 2 ^ 64) (hsize : s.size < 2 ^ 32) (ha : a < 2 ^ 64) :
    copyLoop bf s s.size 0 mem a =
      if s.Covers a then bf ((s.offset + s.index a) % 2 ^ 64) else mem a := by
  rw [copy_loop_apply haddr ha (by omega), Nat.zero_add]
  exact if_congr (and_iff_right (Nat.zero_le _)) rfl rfl

/-! ### The two loops over the sections -/

/-- The sections that the loops go through. -/
def sectionsFrom (bf : Bytes) (i n : Nat) : List Section := (List.range' i n).map (sectionAt bf)

theorem sections_from_succ (bf : Bytes) (i n : Nat) :
    sectionsFrom bf i (n + 1) = sectionAt bf i :: sectionsFrom bf (i + 1) n := by
  rw [sectionsFrom, List.range'_succ]
  rfl

/-- When the loop over the headers ends, no section is too long, and the end is that of the last
section with bytes, or the one it started with. -/
theorem header_loop_some {endAddr endAddr' : Nat}
    (h : headerLoop bf n i endAddr = some endAddr') :
    (∀ s ∈ sectionsFrom bf i n, s.loaded → s.size < 2 ^ 32) ∧
      endAddr' = (((sectionsFrom bf i n).filter Section.copied).getLast?.map
        fun s => (s.addr + s.size) % 2 ^ 64).getD endAddr := by
  induction n generalizing i endAddr with
  | zero =>
      cases h
      exact ⟨fun s hs => (List.not_mem_nil hs).elim, rfl⟩
  | succ n ih =>
      rw [sections_from_succ]
      simp only [headerLoop] at h
      split at h
      case isTrue hloaded =>
          split at h
          case isTrue => cases h
          case isFalse hsize =>
              obtain ⟨hsizes, hend⟩ := ih h
              refine ⟨fun s hs hl => ?_, ?_⟩
              · cases List.mem_cons.mp hs with
                | inl heq =>
                    rw [heq]
                    omega
                | inr hmem => exact hsizes s hmem hl
              · rw [hend]
                by_cases hzero : (sectionAt bf i).size = 0
                · rw [if_pos hzero, List.filter_cons_of_neg (by simp [Section.copied, hzero])]
                · rw [if_neg hzero,
                    List.filter_cons_of_pos (by simp [Section.copied, hzero, hloaded])]
                  cases hlast : ((sectionsFrom bf (i + 1) n).filter Section.copied).getLast? with
                  | none => simp [List.getLast?_cons, hlast]
                  | some s => simp [List.getLast?_cons, hlast]
      case isFalse hloaded =>
          obtain ⟨hsizes, hend⟩ := ih h
          refine ⟨fun s hs hl => ?_, ?_⟩
          · cases List.mem_cons.mp hs with
            | inl heq => exact absurd (heq ▸ hl) hloaded
            | inr hmem => exact hsizes s hmem hl
          · rw [hend, List.filter_cons_of_neg (by simp [Section.copied, hloaded])]

/-- The loop over the sections loads each address with the contents of the last section there. The
induction is on the number of sections; a later section overwrites an earlier one. -/
theorem segment_loop_spec (hsizes : ∀ s ∈ sectionsFrom bf i n, s.loaded → s.size < 2 ^ 32)
    (mem : Bytes) :
    ∃ memory, segmentLoop bf n i mem = some memory ∧ ∀ a < 2 ^ 64,
      memory a = (contentAt bf ((sectionsFrom bf i n).filter Section.copied) a).getD (mem a) := by
  induction n generalizing i mem with
  | zero => exact ⟨mem, rfl, fun a _ => rfl⟩
  | succ n ih =>
      rw [sections_from_succ] at hsizes ⊢
      have hrest : ∀ s ∈ sectionsFrom bf (i + 1) n, s.loaded → s.size < 2 ^ 32 :=
        fun s hs => hsizes s (List.mem_cons_of_mem _ hs)
      simp only [segmentLoop]
      by_cases hloaded : (sectionAt bf i).loaded = true
      · have hsize := hsizes _ (List.mem_cons_self ..) hloaded
        rw [if_pos hloaded, if_neg (by omega)]
        obtain ⟨memory, hrun, hmemory⟩ := ih hrest (copyLoop bf (sectionAt bf i)
          (sectionAt bf i).size 0 mem)
        refine ⟨memory, hrun, fun a ha => ?_⟩
        rw [hmemory a ha, copy_section_apply (section_addr_lt bf i) hsize ha]
        by_cases hzero : (sectionAt bf i).size = 0
        · have hnone : ¬ (sectionAt bf i).Covers a := by
            unfold Section.Covers
            omega
          rw [if_neg hnone, List.filter_cons_of_neg (by simp [Section.copied, hzero])]
        · rw [List.filter_cons_of_pos (by simp [Section.copied, hzero, hloaded]), contentAt]
          cases contentAt bf ((sectionsFrom bf (i + 1) n).filter Section.copied) a with
          | some b => rfl
          | none =>
              by_cases hcovers : (sectionAt bf i).Covers a
              · simp only [hcovers, if_true, Option.getD_none, Option.getD_some]
              · simp only [hcovers, if_false, Option.getD_none]
      · rw [if_neg hloaded, List.filter_cons_of_neg (by simp [Section.copied, hloaded])]
        exact ih hrest mem

/-- What acceptance by `load_elf64_header` means. -/
theorem load_header_accepted (h : loadElf64Header bf = some (0, phdr)) :
    (∀ s ∈ sections bf, s.loaded → s.size < 2 ^ 32) ∧ phdr.start = 0x8000000000 ∧
      phdr.endAddr = lastEnd bf := by
  unfold loadElf64Header at h
  split at h
  case isTrue => simp at h
  case isFalse =>
  split at h
  case isTrue => simp at h
  case isFalse =>
  split at h
  case isTrue => simp at h
  case isFalse =>
  simp only [Option.bind_eq_bind, Option.bind_eq_some_iff, Option.pure_def, Option.some.injEq,
    Prod.mk.injEq, true_and] at h
  obtain ⟨endAddr, hloop, rfl⟩ := h
  obtain ⟨hsizes, hend⟩ := header_loop_some hloop
  refine ⟨hsizes, rfl, ?_⟩
  show endAddr = lastEnd bf
  rw [hend, lastEnd]
  show _ = match (copiedSections bf).getLast? with
    | none => 0
    | some s => (s.addr + s.size) % 2 ^ 64
  rw [show (sectionsFrom bf 0 (shNum bf)).filter Section.copied = copiedSections bf from rfl]
  cases (copiedSections bf).getLast? with
  | none => rfl
  | some s => rfl

/-- The memory after `load_elf64_segment`. -/
theorem load_segment_accepted (h : loadElf64Header bf = some (0, phdr)) (mem : Bytes) :
    ∃ memory, loadElf64Segment bf mem = some memory ∧
      ∀ a < 2 ^ 64, memory a = (contentAt bf (copiedSections bf) a).getD (mem a) :=
  segment_loop_spec (load_header_accepted h).1 mem

/-- An address of one of the sections has contents. -/
theorem content_of_covers {l : List Section} (hs : s ∈ l) (hcovers : s.Covers a) :
    ∃ b, contentAt bf l a = some b := by
  induction l with
  | nil => cases hs
  | cons first l ih =>
      unfold contentAt
      cases hrest : contentAt bf l a with
      | some b => exact ⟨b, rfl⟩
      | none =>
          cases List.mem_cons.mp hs with
          | inl heq => exact ⟨_, if_pos (heq ▸ hcovers)⟩
          | inr hmem =>
              obtain ⟨b, hb⟩ := ih hmem
              rw [hrest] at hb
              cases hb

/-- An address with contents belongs to one of the sections. -/
theorem covers_of_content {l : List Section} {b : Byte} (h : contentAt bf l a = some b) :
    ∃ s ∈ l, s.Covers a := by
  induction l with
  | nil => cases h
  | cons first l ih =>
      unfold contentAt at h
      cases hrest : contentAt bf l a with
      | some c =>
          obtain ⟨s, hs, hcovers⟩ := ih (hrest.trans (by simpa [hrest] using h))
          exact ⟨s, List.mem_cons_of_mem _ hs, hcovers⟩
      | none =>
          rw [hrest] at h
          by_cases hcovers : first.Covers a
          · exact ⟨first, List.mem_cons_self .., hcovers⟩
          · simp [hcovers] at h

/-! ### The pages -/

/-- The pages of a program whose length fits an `int`. -/
theorem pagesize_of_length {phdr : ProgramHeader} {length : Nat} (hlength : length < 2 ^ 31)
    (hstack : (phdr.stack + (2 ^ 64 - phdr.start)) % 2 ^ 32 = length) :
    phdr.pagesize = ((length + 4095) / 4096 : Nat) ∧
      phdr.tbs = (((length + 4095) / 4096 + 511) / 512 : Nat) := by
  have hphys : phdr.physize = length := by
    rw [ProgramHeader.physize, BitVec.toInt_eq_toNat_cond, BitVec.toNat_ofNat, hstack,
      if_pos (by omega)]
  have hpages : phdr.pagesize = ((length + 4095) / 4096 : Nat) := by
    rw [ProgramHeader.pagesize, hphys, Int.tdiv_eq_ediv_of_nonneg (by omega),
      Int.tmod_eq_emod_of_nonneg (by omega)]
    split
    case isTrue => omega
    case isFalse => omega
  refine ⟨hpages, ?_⟩
  rw [ProgramHeader.tbs, hpages, Int.tdiv_eq_ediv_of_nonneg (by omega),
    Int.tmod_eq_emod_of_nonneg (by omega)]
  split
  case isTrue => omega
  case isFalse => omega

/-- One page directory maps at most 1 GiB. -/
theorem pagesize_le {phdr : ProgramHeader} (htbs : phdr.tbs ≤ 512) :
    phdr.pagesize ≤ 2 ^ 18 := by
  by_contra hlarge
  rw [ProgramHeader.tbs, Int.tdiv_eq_ediv_of_nonneg (by omega),
    Int.tmod_eq_emod_of_nonneg (by omega)] at htbs
  split at htbs
  case isTrue => omega
  case isFalse => omega

/-- The range of a program is mapped exactly when the program, with its arguments and its stack, is
at most 1 GiB long. -/
theorem mapped_iff_room {phdr : ProgramHeader} (hstart : phdr.start = 0x8000000000)
    (hstack : phdr.stack = (phdr.endAddr + appStakSize + appArgSize) % 2 ^ 64)
    (hlt : 0x8000000000 < phdr.endAddr) (hend : phdr.endAddr < 2 ^ 64) :
    (∀ a, phdr.start ≤ a → a < phdr.endAddr → phdr.Mapped a) ↔
      phdr.endAddr + (appArgSize + appStakSize) ≤ 0x8000000000 + 2 ^ 30 := by
  have hroom : appArgSize + appStakSize = 0x30000 := rfl
  have hlength : ∀ length, phdr.endAddr + 0x30000 = 0x8000000000 + length → length < 2 ^ 31 →
      (phdr.stack + (2 ^ 64 - phdr.start)) % 2 ^ 32 = length := by
    intro length heq hsmall
    rw [hstack, hstart, Nat.add_assoc, Nat.add_comm appStakSize, hroom, heq]
    omega
  rw [hroom]
  constructor
  · intro hmapped
    obtain ⟨_, hpage, htbs⟩ := hmapped (phdr.endAddr - 1) (by omega) (by omega)
    have hmax := pagesize_le htbs
    rw [hstart] at hpage
    -- at most 1 GiB is mapped, so the length did not wrap around
    have hshort : phdr.endAddr - 0x8000000000 ≤ 2 ^ 30 := by omega
    obtain ⟨length, heq⟩ :=
      Nat.exists_eq_add_of_le (show 0x8000000000 ≤ phdr.endAddr + 0x30000 by omega)
    obtain ⟨hpages, htables⟩ := pagesize_of_length (by omega) (hlength length heq (by omega))
    omega
  · intro hroom a hlow hhigh
    obtain ⟨length, heq⟩ :=
      Nat.exists_eq_add_of_le (show 0x8000000000 ≤ phdr.endAddr + 0x30000 by omega)
    obtain ⟨hpages, htables⟩ := pagesize_of_length (by omega) (hlength length heq (by omega))
    refine ⟨hlow, ?_, ?_⟩
    · rw [hpages, hstart]
      omega
    · rw [htables]
      omega

/-- The bytes that `exectve` clears. -/
theorem cleared_byte {phdr : ProgramHeader} {frames : Bytes} (hmapped : phdr.Mapped a)
    (hstart : phdr.start = 0x8000000000) :
    fillBytes frames 0x8000000000 (phdr.pagesize * 0x1000 % 2 ^ 32).toNat 0#8 a = 0#8 := by
  obtain ⟨hlow, hpage, htbs⟩ := hmapped
  have hmax := pagesize_le htbs
  rw [hstart] at hlow hpage
  refine if_pos ⟨hlow, ?_⟩
  omega

/-! ### The theorem -/

theorem last_end_lt (bf : Bytes) : lastEnd bf < 2 ^ 64 := by
  unfold lastEnd
  split
  case h_1 => omega
  case h_2 => omega

/-- A file without bytes to copy ends at 0. -/
theorem last_end_nil (h : copiedSections bf = []) : lastEnd bf = 0 := by
  rw [lastEnd, h]
  rfl

theorem copied_mem (hs : s ∈ copiedSections bf) : s.addr < 2 ^ 64 ∧ s.size ≠ 0 := by
  obtain ⟨hmem, hcopied⟩ := List.mem_filter.mp hs
  obtain ⟨i, _, rfl⟩ := List.mem_map.mp hmem
  simp only [Section.copied, decide_eq_true_eq] at hcopied
  exact ⟨section_addr_lt bf i, hcopied.2⟩

/-- What is written lies in the range exactly when every section with contents does. -/
theorem written_inside_iff (h : loadElf64Header bf = some (0, phdr)) :
    (∀ mem memory, loadElf64Segment bf mem = some memory →
      ∀ a < 2 ^ 64, a < phdr.start ∨ phdr.endAddr ≤ a → memory a = mem a) ↔
    ∀ s ∈ copiedSections bf, 0x8000000000 ≤ s.addr ∧ s.addr + s.size ≤ lastEnd bf := by
  obtain ⟨_, hstart, hend⟩ := load_header_accepted h
  have hlt := last_end_lt bf
  rw [hstart, hend]
  constructor
  · intro hinside s hs
    obtain ⟨haddr, hsize⟩ := copied_mem hs
    have hrange : ∀ a < 2 ^ 64, s.Covers a → 0x8000000000 ≤ a ∧ a < lastEnd bf := by
      intro a ha hcovers
      by_contra houtside
      obtain ⟨b, hb⟩ := content_of_covers hs hcovers
      obtain ⟨memory, hload, hmemory⟩ := load_segment_accepted h fun _ => b + 1#8
      have hsame := hinside _ memory hload a ha (by omega)
      rw [hmemory a ha, hb, Option.getD_some] at hsame
      have hne : b ≠ b + 1#8 := by simp
      exact hne hsame
    have hfirst := hrange s.addr haddr (by
      unfold Section.Covers Section.index
      omega)
    refine ⟨hfirst.1, ?_⟩
    by_cases hwrap : s.addr + s.size ≤ 2 ^ 64
    · have hlast := hrange (s.addr + s.size - 1) (by omega) (by
        unfold Section.Covers Section.index
        omega)
      omega
    · have hzero := hrange 0 (by omega) (by
        unfold Section.Covers Section.index
        omega)
      omega
  · intro hinside mem memory hload a ha houtside
    obtain ⟨memory', hload', hmemory⟩ := load_segment_accepted h mem
    cases hload.symm.trans hload'
    rw [hmemory a ha]
    cases hcontent : contentAt bf (copiedSections bf) a with
    | none => rfl
    | some b =>
        obtain ⟨s, hs, hcovers⟩ := covers_of_content hcontent
        have hbounds := hinside s hs
        unfold Section.Covers Section.index at hcovers
        omega

/-- The arguments and the stack do not wrap around. -/
theorem end_room (hroom : copiedSections bf ≠ [] →
      lastEnd bf + (appArgSize + appStakSize) ≤ 0x8000000000 + 2 ^ 30) :
    lastEnd bf + (appArgSize + appStakSize) ≤ 2 ^ 64 := by
  by_cases hnil : copiedSections bf = []
  · rw [last_end_nil hnil]
    decide
  · have h := hroom hnil
    omega

/-- A section with bytes keeps out of the arguments and the stack exactly when it ends before them
or starts behind them. -/
theorem apart_iff (hs : s ∈ sections bf) (hsize : s.size ≠ 0)
    (hroom : lastEnd bf + (appArgSize + appStakSize) ≤ 2 ^ 64) :
    (∀ k < appArgSize + appStakSize, ¬ s.Covers ((lastEnd bf + k) % 2 ^ 64)) ↔
      (s.addr + s.size ≤ lastEnd bf ∨
        lastEnd bf + (appArgSize + appStakSize) ≤ s.addr ∧
          s.addr + s.size ≤ lastEnd bf + 2 ^ 64) := by
  obtain ⟨i, _, rfl⟩ := List.mem_map.mp hs
  have haddr := section_addr_lt bf i
  have hblock : 0 < appArgSize + appStakSize := by decide
  generalize appArgSize + appStakSize = room at *
  unfold Section.Covers Section.index
  constructor
  · intro hapart
    have hfirst := hapart 0 hblock
    by_cases hbefore : (sectionAt bf i).addr < lastEnd bf
    · left
      omega
    · right
      by_cases hin : (sectionAt bf i).addr < lastEnd bf + room
      · have hhere := hapart ((sectionAt bf i).addr - lastEnd bf) (by omega)
        omega
      · omega
  · intro hlayout k hk
    omega

/-- ELF loading stays inside the image, with the condition under which it does: for every file that
`load_elf64_header` accepts, the program is loaded inside the range that is reported if and only if
the sections of the file are well laid out. -/
theorem elf_loads_inside_iff (bf : Bytes) (phdr : ProgramHeader)
    (h : loadElf64Header bf = some (0, phdr)) :
    LoadsInside bf phdr.withStack ↔ WellLaidOut bf := by
  obtain ⟨_, hstart, hend⟩ := load_header_accepted h
  have hstart' : phdr.withStack.start = 0x8000000000 := by
    rw [ProgramHeader.with_stack_start, hstart]
  have hend' : phdr.withStack.endAddr = lastEnd bf := by
    rw [ProgramHeader.with_stack_end, hend]
  have hlt := last_end_lt bf
  -- once a section is copied, all pages are mapped exactly when arguments and stack fit behind it
  have hmapped : copiedSections bf ≠ [] →
      (∀ s ∈ copiedSections bf, 0x8000000000 ≤ s.addr ∧ s.addr + s.size ≤ lastEnd bf) →
      ((∀ a, phdr.withStack.start ≤ a → a < phdr.withStack.endAddr → phdr.withStack.Mapped a) ↔
        lastEnd bf + (appArgSize + appStakSize) ≤ 0x8000000000 + 2 ^ 30) := by
    intro hne hinside
    obtain ⟨s, hs⟩ := List.exists_mem_of_ne_nil _ hne
    have hbounds := hinside s hs
    have hsize := (copied_mem hs).2
    rw [← hend']
    exact mapped_iff_room hstart' phdr.with_stack_stack (by omega) (by omega)
  constructor
  · intro hloads
    have hinside := (written_inside_iff h).mp (by
      simpa only [ProgramHeader.with_stack_start, ProgramHeader.with_stack_end] using hloads.inside)
    have hroom := fun hne => (hmapped hne hinside).mp hloads.mapped
    refine ⟨hinside, hroom, ?_, ?_⟩
    · intro s hs haddr htype a hlow hhigh hcovers b hb
      obtain ⟨memory, hload, hmemory⟩ := load_segment_accepted h
        (fillBytes (fun _ => 0#8) 0x8000000000
          (phdr.withStack.pagesize * 0x1000 % 2 ^ 32).toNat 0#8)
      have hzero := hloads.zero _ memory hload s hs haddr htype a (by omega) (by omega)
        hcovers
      rw [hmemory a (by omega), hb] at hzero
      exact hzero
    · intro s hs haddr hsize
      exact (apart_iff hs hsize (end_room hroom)).mp (by
        rw [← hend']
        exact hloads.apart s hs haddr)
  · intro hlayout
    -- an address inside the range means that some section is copied
    have hne : ∀ a, phdr.withStack.start ≤ a → a < phdr.withStack.endAddr →
        copiedSections bf ≠ [] := by
      intro a hlow hhigh hnil
      rw [hend', last_end_nil hnil] at hhigh
      omega
    have hwritten := (written_inside_iff h).mpr hlayout.inside
    refine ⟨fun a hlow hhigh => ?_, by
      simpa only [ProgramHeader.with_stack_start, ProgramHeader.with_stack_end] using hwritten,
      ?_, ?_⟩
    · have hne := hne a hlow hhigh
      exact (hmapped hne hlayout.inside).mpr (hlayout.room hne) a hlow hhigh
    · intro frames memory hload s hs haddr htype a hlow hhigh hcovers
      obtain ⟨memory', hload', hmemory⟩ := load_segment_accepted h (fillBytes frames 0x8000000000
        (phdr.withStack.pagesize * 0x1000 % 2 ^ 32).toNat 0#8)
      cases hload.symm.trans hload'
      rw [hmemory a (by omega)]
      cases hcontent : contentAt bf (copiedSections bf) a with
      | some b =>
          exact hlayout.zero s hs haddr htype a (by omega) (by omega) hcovers b hcontent
      | none =>
          have hne := hne a hlow hhigh
          exact cleared_byte ((hmapped hne hlayout.inside).mpr (hlayout.room hne) a hlow hhigh)
            hstart'
    · intro s hs haddr
      by_cases hsize : s.size = 0
      · intro k _ hcovers
        unfold Section.Covers at hcovers
        omega
      · rw [hend']
        exact (apart_iff hs hsize (end_room hlayout.room)).mpr
          (hlayout.apart s hs haddr hsize)

/-! ### The layout of the linker script -/

/-- Store section headers from `a` on. -/
def putSections : List Section → (a : Nat) → Bytes → Bytes
  | [], _, m => m
  | s :: l, a, m =>
      let m := writeWord m (a + 4) s.type
      let m := writeLong m (a + 16) s.addr
      let m := writeLong m (a + 24) s.offset
      let m := writeLong m (a + 32) s.size
      putSections l (a + 64) m

/-- An executable file with the sections; everything else in it is zero. -/
def elfFile (l : List Section) : Bytes :=
  let m : Bytes := fun _ => 0#8
  let m := Function.update m 4 2#8
  let m := writeHalf (writeHalf m 16 2) 18 62
  let m := writeLong (writeLong m 24 0x8000001000) 40 64
  let m := writeHalf m 60 l.length
  putSections l 64 m

/-- `.text`, `.bss` -/
def textBss : List Section :=
  [⟨shtProgbits, 0x8000001000, 0x1000, 0x1000⟩, ⟨shtNobits, 0x8000002000, 0x2000, 0x1000⟩]

/-- `.text`, `.bss` and `.eh_frame`, which the linker script puts last. -/
def textBssFrame : List Section :=
  textBss ++ [⟨shtProgbits, 0x8000003000, 0x2000, 0x1000⟩]

theorem text_bss_frame_sections : sections (elfFile textBssFrame) = textBssFrame := by
  decide +kernel

theorem text_bss_frame_copied : copiedSections (elfFile textBssFrame) =
    [⟨shtProgbits, 0x8000001000, 0x1000, 0x1000⟩, ⟨shtProgbits, 0x8000003000, 0x2000, 0x1000⟩] := by
  rw [copiedSections, text_bss_frame_sections]
  decide +kernel

theorem text_bss_frame_end : lastEnd (elfFile textBssFrame) = 0x8000004000 := by
  rw [lastEnd, text_bss_frame_copied]
  decide +kernel

theorem text_bss_frame_laid_out : WellLaidOut (elfFile textBssFrame) where
  inside := by
    rw [text_bss_frame_copied, text_bss_frame_end]
    decide +kernel
  room := by
    intro _
    rw [text_bss_frame_end]
    decide +kernel
  zero := by
    rw [text_bss_frame_sections, text_bss_frame_copied]
    intro s hs haddr htype a hlow hhigh hcovers b hb
    obtain ⟨t, ht, hother⟩ := covers_of_content hb
    have hbss : ∀ s ∈ textBssFrame, s.type = shtNobits → s.addr = 0x8000002000 ∧ s.size = 0x1000 := by
      decide +kernel
    have hfile : ∀ t ∈ [(⟨shtProgbits, 0x8000001000, 0x1000, 0x1000⟩ : Section),
        ⟨shtProgbits, 0x8000003000, 0x2000, 0x1000⟩],
        t.size = 0x1000 ∧ (t.addr = 0x8000001000 ∨ t.addr = 0x8000003000) := by
      decide +kernel
    have hs := hbss s hs htype
    have ht := hfile t ht
    rw [text_bss_frame_end] at hhigh
    unfold Section.Covers Section.index at hcovers hother
    omega
  apart := by
    rw [text_bss_frame_sections, text_bss_frame_end]
    decide +kernel

/-- The program header of such a file. -/
def headerTo (endAddr : Nat) : ProgramHeader := ⟨0x8000000000, endAddr, 0x8000001000, 0⟩

/-- With `.eh_frame` behind `.bss` the program is loaded inside its range. -/
theorem text_bss_frame_loads_inside :
    loadElf64Header (elfFile textBssFrame) = some (0, headerTo 0x8000004000) ∧
      LoadsInside (elfFile textBssFrame) (headerTo 0x8000004000).withStack := by
  have haccepted : loadElf64Header (elfFile textBssFrame) =
      some (0, headerTo 0x8000004000) := by
    decide +kernel
  exact ⟨haccepted, (elf_loads_inside_iff _ _ haccepted).mpr text_bss_frame_laid_out⟩

/-- Without it, the end of the program is that of `.text`, and the arguments are put into `.bss`. -/
theorem text_bss_arguments_overlap : ¬ ∀ (bf : Bytes) (phdr : ProgramHeader),
    loadElf64Header bf = some (0, phdr) → LoadsInside bf phdr.withStack := by
  intro h
  have haccepted : loadElf64Header (elfFile textBss) = some (0, headerTo 0x8000002000) := by
    decide +kernel
  have hsections : (⟨shtNobits, 0x8000002000, 0x2000, 0x1000⟩ : Section) ∈
      sections (elfFile textBss) := by
    decide +kernel
  have hapart := (h _ _ haccepted).apart _ hsections (by decide) 0 (by decide)
  exact hapart (by decide +kernel)

end Sirius.Exec
