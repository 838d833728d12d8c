import Sirius.Exec.Elf
import Sirius.Library.Counting

/-!
# The loops of the ELF loader

The functions of `Elf.lean` say what the loops of `load_elf64_header` and `load_elf64_segment` leave
behind. Here the loops run round by round, with their counters of 32 bits, over the memory that holds
the file and that the sections are copied to. A section size has 64 bits, so the counter `e` never
reaches a size of `2 ^ 32` or more.
-/

namespace Sirius.Exec

open Library

/-! ### The functions -/

/-- The bytes behind the pointer `bf`. Pointers wrap around at 64 bits. -/
def fileAt (mem : Bytes) (bf : Nat) : Bytes := fun a => mem ((bf + a) % 2 ^ 64)

/-- The section header behind the pointer `section`. -/
def sectionFrom (mem : Bytes) (p : Nat) : Section :=
  let s := fileAt mem p
  { type := readWord s 4
    addr := readLong s 16
    offset := readLong s 24
    size := readLong s 32 }

/-- `(char*)bf + header->e_shoff` -/
def sectionsStart (mem : Bytes) (bf : Nat) : Nat := (bf + readLong (fileAt mem bf) 40) % 2 ^ 64

/-- The inner loop of `load_elf64_header`, for at most `n` rounds. -/
def headerBytes (s : Section) (n endAddr : Nat) : Option Nat :=
  countLoop (fun (e : BitVec 32) _ => decide (e.toNat < s.size))
    (fun _ _ _ => some ((s.addr + s.size) % 2 ^ 64)) n 0 endAddr

/-- One round of the outer loop of `load_elf64_header`. The state is the pointer `sections` and
`phdr->end`. -/
def headerRound (mem : Bytes) (n : Nat) (state : Nat × Nat) : Option (Nat × Nat) :=
  let (p, endAddr) := state
  let s := sectionFrom mem p
  let p := (p + 64) % 2 ^ 64
  if s.addr = 0 then some (p, endAddr)
  else if s.type = shtProgbits then (headerBytes s n endAddr).map fun endAddr => (p, endAddr)
  else some (p, endAddr)

/-- The loops of `load_elf64_header`. -/
def headerSections (mem : Bytes) (bf n : Nat) : Option (Nat × Nat) :=
  countLoop (fun (i : BitVec 32) _ => decide (i.toInt < shNum (fileAt mem bf)))
    (fun n _ => headerRound mem n) n 0 (sectionsStart mem bf, 0)

/-- `load_elf64_header` with at most `n` rounds of each loop. -/
def runElf64Header (mem : Bytes) (bf n : Nat) : Option (Nat × ProgramHeader) :=
  let header := fileAt mem bf
  let empty : ProgramHeader := ⟨0, 0, 0, 0⟩
  if header 4 ≠ 2#8 then some (1, empty)
  else if readHalf header 16 ≠ 2 then some (2, empty)
  else if readHalf header 18 ≠ 62 then some (3, empty)
  else (headerSections mem bf n).map fun state =>
    (0, { start := 0x8000000000, endAddr := state.2, entry := readLong header 24, stack := 0 })

/-- The inner loop of `load_elf64_segment`, for at most `n` rounds. The section header is in the
memory that is written to. -/
def segmentBytes (bf p n : Nat) (mem : Bytes) : Option Bytes :=
  countLoop (fun (e : BitVec 32) mem => decide (e.toNat < (sectionFrom mem p).size))
    (fun _ e mem =>
      let s := sectionFrom mem p
      some (Function.update mem ((s.addr + e.toNat) % 2 ^ 64)
        (mem ((bf + s.offset + e.toNat) % 2 ^ 64)))) n 0 mem

/-- One round of the outer loop of `load_elf64_segment`. The state is the pointer `sections` and the
memory. -/
def segmentRound (bf n : Nat) (state : Nat × Bytes) : Option (Nat × Bytes) :=
  let (p, mem) := state
  let s := sectionFrom mem p
  let next := (p + 64) % 2 ^ 64
  if s.addr = 0 then some (next, mem)
  else if s.type = shtProgbits then (segmentBytes bf p n mem).map fun mem => (next, mem)
  else some (next, mem)

/-- The loops of `load_elf64_segment`. -/
def segmentSections (mem : Bytes) (bf n : Nat) : Option (Nat × Bytes) :=
  countLoop (fun (i : BitVec 32) state => decide (i.toInt < shNum (fileAt state.2 bf)))
    (fun n _ => segmentRound bf n) n 0 (sectionsStart mem bf, mem)

/-- `load_elf64_segment` with at most `n` rounds of each loop: the memory after it. -/
def runElf64Segment (mem : Bytes) (bf n : Nat) : Option Bytes :=
  (segmentSections mem bf n).map Prod.snd

/-! ### Section headers in memory -/

/-- `load_elf64_header` accepts the file. -/
def Accepted (bf : Bytes) : Prop := bf 4 = 2#8 ∧ readHalf bf 16 = 2 ∧ readHalf bf 18 = 62

instance (bf : Bytes) : Decidable (Accepted bf) := inferInstanceAs (Decidable (_ ∧ _ ∧ _))

/-- Every section that is loaded is shorter than the counter of the loops can count. -/
def CountableSections (bf : Bytes) : Prop :=
  ∀ i < shNum bf, (sectionAt bf i).loaded → (sectionAt bf i).size < 2 ^ 32

/-- The byte `a` of the file is one that the loops read headers from: the number of sections or a
section header. -/
def HeaderByte (bf : Bytes) (a : Nat) : Prop :=
  a = 60 ∨ a = 61 ∨ ∃ i < shNum bf, ∃ k < 64, a = (readLong bf 40 + 64 * i + k) % 2 ^ 64

/-- No section is copied over the headers. -/
def HeadersKept (mem : Bytes) (bf : Nat) : Prop :=
  ∀ i < shNum (fileAt mem bf), (sectionAt (fileAt mem bf) i).loaded →
    ∀ e < (sectionAt (fileAt mem bf) i).size, e < 2 ^ 32 → ∀ a, HeaderByte (fileAt mem bf) a →
      ((sectionAt (fileAt mem bf) i).addr + e) % 2 ^ 64 ≠ (bf + a) % 2 ^ 64

/-- The pointer to section header `i`. -/
def sectionPtr (mem : Bytes) (bf i : Nat) : Nat := (sectionsStart mem bf + 64 * i) % 2 ^ 64

variable {mem mem' : Bytes} {bf i p size endAddr : Nat} {s : Section}

theorem section_ptr_zero : sectionPtr mem bf 0 = sectionsStart mem bf := by
  unfold sectionPtr sectionsStart
  omega

theorem section_ptr_succ : (sectionPtr mem bf i + 64) % 2 ^ 64 = sectionPtr mem bf (i + 1) := by
  unfold sectionPtr
  omega

theorem file_at_section {k : Nat} :
    fileAt mem (sectionPtr mem bf i) k =
      fileAt mem bf ((readLong (fileAt mem bf) 40 + 64 * i + k) % 2 ^ 64) := by
  refine congrArg mem ?_
  unfold sectionPtr sectionsStart
  omega

/-- A word of a section header. -/
theorem read_word_section {k : Nat} :
    readWord (fileAt mem (sectionPtr mem bf i)) k =
      readWord (fileAt mem bf) ((readLong (fileAt mem bf) 40 + 64 * i + k) % 2 ^ 64) :=
  read_word_congr fun j _ => by
    rw [file_at_section]
    refine congrArg mem ?_
    omega

/-- The section header behind the pointer is the one of the file. -/
theorem section_from_ptr : sectionFrom mem (sectionPtr mem bf i) = sectionAt (fileAt mem bf) i := by
  have hlong : ∀ k, readLong (fileAt mem (sectionPtr mem bf i)) k =
      readLong (fileAt mem bf) ((readLong (fileAt mem bf) 40 + 64 * i + k) % 2 ^ 64) := by
    intro k
    rw [readLong, readLong, read_word_section, read_word_section]
    congr 2
    refine read_word_congr fun j _ => congrArg mem ?_
    omega
  simp only [sectionFrom, sectionAt, read_word_section, hlong]

/-- The counter of the outer loops, an `int`, reaches the number of sections. -/
theorem section_count_test {count : Nat} {i : BitVec 32} (hcount : count < 2 ^ 16)
    (hi : i.toNat ≤ count) : decide (i.toInt < count) = true ↔ i.toNat < count := by
  have hint : i.toInt = i.toNat := by
    rw [BitVec.toInt_eq_toNat_cond, if_pos (by omega)]
  rw [decide_eq_true_eq, hint]
  omega

theorem sh_num_lt (bf : Bytes) : shNum bf < 2 ^ 16 := by
  have hlow := (bf 60).isLt
  have hhigh := (bf 61).isLt
  unfold shNum readHalf
  omega

/-- A section with an address and contents is one that the loops go into. -/
theorem loaded_iff : s.loaded = true ↔ s.addr ≠ 0 ∧ s.type = shtProgbits := by
  rw [Section.loaded, decide_eq_true_eq]

/-! ### The loops of `load_elf64_header` -/

/-- The inner loop returns for a size that the counter reaches. -/
theorem header_bytes_returns (endAddr : Nat) (hsize : s.size < 2 ^ 32) :
    Returns (fun n => headerBytes s n endAddr)
      (if s.size = 0 then endAddr else (s.addr + s.size) % 2 ^ 64) := by
  obtain ⟨s', hreturns, hs'⟩ : ∃ s', Returns (fun n => headerBytes s n endAddr) s' ∧
      s' = if s.size = 0 then endAddr else (s.addr + s.size) % 2 ^ 64 :=
    count_loop_returns (fun e r => r = if e = 0 then endAddr else (s.addr + s.size) % 2 ^ 64) hsize
      (fun e _ _ _ => decide_eq_true_iff) (fun e _ _ _ => ⟨_, .of_add 0 fun _ => rfl, rfl⟩)
      (Nat.zero_le _) rfl
  rw [hs'] at hreturns
  exact hreturns

/-- For any larger size it does not return. -/
theorem header_bytes_endless (hsize : 2 ^ 32 ≤ s.size) (n : Nat) : headerBytes s n endAddr = none :=
  count_loop_endless (fun _ => True)
    (fun e _ _ => decide_eq_true (e.isLt.trans_le hsize)) (fun _ _ _ _ _ _ => trivial) n trivial

/-- What the outer loop keeps: the pointer is at header `k`, and the headers that are left lead to
the same end. -/
def HeaderInv (mem : Bytes) (bf k : Nat) (state : Nat × Nat) : Prop :=
  state.1 = sectionPtr mem bf k ∧
    headerLoop (fileAt mem bf) (shNum (fileAt mem bf) - k) k state.2 =
      headerLoop (fileAt mem bf) (shNum (fileAt mem bf)) 0 0

variable {k n : Nat} {state state' : Nat × Nat}

/-- A round over a section that the counter can count. -/
theorem header_round_returns (hk : k < shNum (fileAt mem bf)) (hs : HeaderInv mem bf k state)
    (hsize : (sectionAt (fileAt mem bf) k).loaded → (sectionAt (fileAt mem bf) k).size < 2 ^ 32) :
    ∃ state', Returns (fun n => headerRound mem n state) state' ∧
      HeaderInv mem bf (k + 1) state' := by
  obtain ⟨p, endAddr⟩ := state
  obtain ⟨rfl, hloop⟩ := hs
  have hleft : shNum (fileAt mem bf) - k = shNum (fileAt mem bf) - (k + 1) + 1 := by omega
  simp only [hleft, headerLoop] at hloop
  by_cases hloaded : (sectionAt (fileAt mem bf) k).loaded = true
  · obtain ⟨haddr, htype⟩ := loaded_iff.mp hloaded
    obtain ⟨least, hbytes⟩ := header_bytes_returns endAddr (hsize hloaded)
    rw [if_pos hloaded, if_neg (not_le.mpr (hsize hloaded))] at hloop
    refine ⟨((sectionPtr mem bf k + 64) % 2 ^ 64, if (sectionAt (fileAt mem bf) k).size = 0 then
      endAddr else ((sectionAt (fileAt mem bf) k).addr + (sectionAt (fileAt mem bf) k).size) % 2 ^ 64),
      ⟨least, fun n hn => ?_⟩, section_ptr_succ, hloop⟩
    have hrun := hbytes n hn
    simp only at hrun
    simp only [headerRound, section_from_ptr, if_neg haddr, if_pos htype, hrun, Option.map_some]
  · have hskip : ∀ n, headerRound mem n (sectionPtr mem bf k, endAddr) =
        some ((sectionPtr mem bf k + 64) % 2 ^ 64, endAddr) := by
      intro n
      simp only [headerRound, section_from_ptr]
      split
      case isTrue => rfl
      case isFalse haddr =>
        exact if_neg fun htype => hloaded (loaded_iff.mpr ⟨haddr, htype⟩)
    rw [if_neg hloaded] at hloop
    exact ⟨_, .of_add 0 hskip, section_ptr_succ, hloop⟩

/-- Every round moves the pointer on by one header. -/
theorem header_round_ptr (h : headerRound mem n state = some state') :
    state'.1 = (state.1 + 64) % 2 ^ 64 := by
  simp only [headerRound] at h
  split at h
  case isTrue =>
    cases h
    rfl
  case isFalse =>
    split at h
    case isTrue =>
      obtain ⟨endAddr, -, rfl⟩ := Option.map_eq_some_iff.mp h
      rfl
    case isFalse =>
      cases h
      rfl

/-- A round over a longer section. -/
theorem header_round_endless (hloaded : (sectionAt (fileAt mem bf) k).loaded = true)
    (hsize : 2 ^ 32 ≤ (sectionAt (fileAt mem bf) k).size) (n endAddr : Nat) :
    headerRound mem n (sectionPtr mem bf k, endAddr) = none := by
  obtain ⟨haddr, htype⟩ := loaded_iff.mp hloaded
  simp only [headerRound, section_from_ptr, if_neg haddr, if_pos htype,
    header_bytes_endless hsize, Option.map_none]

/-- `load_elf64_header` returns what `loadElf64Header` says when every section can be counted. -/
theorem run_header_returns (hsizes : CountableSections (fileAt mem bf)) :
    ∃ r, Returns (runElf64Header mem bf) r ∧ loadElf64Header (fileAt mem bf) = some r := by
  have hcount := sh_num_lt (fileAt mem bf)
  obtain ⟨state, ⟨least, hrun⟩, -, hend⟩ : ∃ state, Returns (fun n => headerSections mem bf n) state ∧
      HeaderInv mem bf (shNum (fileAt mem bf)) state :=
    count_loop_returns (HeaderInv mem bf) (by omega) (fun i _ hi _ => section_count_test hcount hi)
      (fun i _ hi hs => header_round_returns hi hs (hsizes i.toNat hi)) (Nat.zero_le _)
      ⟨section_ptr_zero.symm, rfl⟩
  have hloop : headerLoop (fileAt mem bf) (shNum (fileAt mem bf)) 0 0 = some state.2 := by
    rw [← hend, Nat.sub_self]
    rfl
  by_cases hclass : fileAt mem bf 4 ≠ 2#8
  · exact ⟨_, .of_add 0 fun n => if_pos hclass, if_pos hclass⟩
  by_cases htype : readHalf (fileAt mem bf) 16 ≠ 2
  · refine ⟨(2, ⟨0, 0, 0, 0⟩), .of_add 0 fun n => ?_, ?_⟩
    · simp only [runElf64Header, if_neg hclass, if_pos htype]
    · simp only [loadElf64Header, if_neg hclass, if_pos htype]
  by_cases hmachine : readHalf (fileAt mem bf) 18 ≠ 62
  · refine ⟨(3, ⟨0, 0, 0, 0⟩), .of_add 0 fun n => ?_, ?_⟩
    · simp only [runElf64Header, if_neg hclass, if_neg htype, if_pos hmachine]
    · simp only [loadElf64Header, if_neg hclass, if_neg htype, if_pos hmachine]
  refine ⟨(0, ⟨0x8000000000, state.2, readLong (fileAt mem bf) 24, 0⟩), ⟨least, fun n hn => ?_⟩, ?_⟩
  · have hsections : headerSections mem bf n = some state := hrun n hn
    simp only [runElf64Header, if_neg hclass, if_neg htype, if_neg hmachine, hsections,
      Option.map_some]
  · simp only [loadElf64Header, if_neg hclass, if_neg htype, if_neg hmachine, hloop,
      Option.bind_eq_bind, Option.bind_some]
    rfl

/-- `load_elf64_header` does not return when a section cannot be counted. -/
theorem run_header_endless (haccepted : Accepted (fileAt mem bf)) (hk : k < shNum (fileAt mem bf))
    (hloaded : (sectionAt (fileAt mem bf) k).loaded = true)
    (hsize : 2 ^ 32 ≤ (sectionAt (fileAt mem bf) k).size) (n : Nat) :
    runElf64Header mem bf n = none := by
  have hcount := sh_num_lt (fileAt mem bf)
  obtain ⟨hclass, htype, hmachine⟩ := haccepted
  have hstuck : headerSections mem bf n = none := count_loop_stuck
    (fun k state => state.1 = sectionPtr mem bf k) (show shNum (fileAt mem bf) < 2 ^ 32 by omega)
    (fun i _ hi _ => section_count_test hcount hi)
    (fun n i state state' _ hs hround => by
      rw [header_round_ptr hround, hs, section_ptr_succ])
    hk (fun n i state _ hs => by
      obtain ⟨p, endAddr⟩ := state
      cases hs
      exact header_round_endless hloaded hsize n endAddr)
    n (Nat.zero_le _) section_ptr_zero.symm
  simp only [runElf64Header, hclass, htype, hmachine, hstuck, ne_eq, not_true_eq_false, if_false,
    Option.map_none]

/-! ### The loops of `load_elf64_segment` -/

/-- The bytes of the headers are those of `mem`. -/
def SameHeaders (mem : Bytes) (bf : Nat) (mem' : Bytes) : Prop :=
  ∀ a, HeaderByte (fileAt mem bf) a → fileAt mem' bf a = fileAt mem bf a

theorem SameHeaders.sh_num (h : SameHeaders mem bf mem') :
    shNum (fileAt mem' bf) = shNum (fileAt mem bf) :=
  read_half_congr fun k hk => by
    refine h _ ?_
    unfold HeaderByte
    omega

/-- The section headers in memory are still those of the file. -/
theorem SameHeaders.section (h : SameHeaders mem bf mem') (hk : k < shNum (fileAt mem bf)) :
    sectionFrom mem' (sectionPtr mem bf k) = sectionAt (fileAt mem bf) k := by
  have hbyte : ∀ j < 64,
      fileAt mem' (sectionPtr mem bf k) j = fileAt mem (sectionPtr mem bf k) j := by
    intro j hj
    have hsame := h _ (.inr (.inr ⟨k, hk, j, hj, rfl⟩))
    rw [← file_at_section] at hsame
    rw [← hsame]
    refine congrArg mem' ?_
    unfold sectionPtr sectionsStart
    omega
  have hword : ∀ j, j + 4 ≤ 64 → readWord (fileAt mem' (sectionPtr mem bf k)) j =
      readWord (fileAt mem (sectionPtr mem bf k)) j :=
    fun j hj => read_word_congr fun i hi => hbyte _ (by omega)
  have hlong : ∀ j, j + 8 ≤ 64 → readLong (fileAt mem' (sectionPtr mem bf k)) j =
      readLong (fileAt mem (sectionPtr mem bf k)) j := by
    intro j hj
    rw [readLong, readLong, hword j (by omega), hword (j + 4) (by omega)]
  rw [← @section_from_ptr mem, sectionFrom, sectionFrom]
  simp only [hword 4 (by omega), hlong 16 (by omega), hlong 24 (by omega), hlong 32 (by omega)]

section Segment

variable (hkept : HeadersKept mem bf) (hk : k < shNum (fileAt mem bf))
  (hloaded : (sectionAt (fileAt mem bf) k).loaded = true)

include hkept hk hloaded

/-- A byte that is copied is none of the headers. -/
theorem SameHeaders.copy {e : BitVec 32} {value : Byte} (h : SameHeaders mem bf mem')
    (he : e.toNat < (sectionAt (fileAt mem bf) k).size) :
    SameHeaders mem bf (Function.update mem'
      (((sectionAt (fileAt mem bf) k).addr + e.toNat) % 2 ^ 64) value) := by
  intro a ha
  have hother := hkept k hk hloaded e.toNat he e.isLt a ha
  show Function.update mem' _ value _ = _
  rw [Function.update_of_ne (Ne.symm hother)]
  exact h a ha

/-- The inner loop returns for a size that the counter reaches. -/
theorem segment_bytes_returns (h : SameHeaders mem bf mem')
    (hsize : (sectionAt (fileAt mem bf) k).size < 2 ^ 32) :
    ∃ mem'', Returns (fun n => segmentBytes bf (sectionPtr mem bf k) n mem') mem'' ∧
      SameHeaders mem bf mem'' := by
  refine count_loop_returns (fun _ => SameHeaders mem bf) hsize
    (fun e mem' _ hs => ?_) (fun e mem' he hs => ⟨_, .of_add 0 fun _ => rfl, ?_⟩) (Nat.zero_le _) h
  · rw [hs.section hk]
    exact decide_eq_true_iff
  · rw [hs.section hk]
    exact hs.copy hkept hk hloaded he

/-- The inner loop keeps the headers. -/
theorem segment_bytes_keeps {mem'' : Bytes} (h : SameHeaders mem bf mem')
    (hrun : segmentBytes bf (sectionPtr mem bf k) n mem' = some mem'') :
    SameHeaders mem bf mem'' := by
  refine count_loop_keeps (SameHeaders mem bf)
    (fun _ e mem' mem'' htest hs hround => ?_) n h hrun
  rw [hs.section hk, decide_eq_true_eq] at htest
  cases hround
  rw [hs.section hk]
  exact hs.copy hkept hk hloaded htest

/-- For any larger size it does not return. -/
theorem segment_bytes_endless (h : SameHeaders mem bf mem')
    (hsize : 2 ^ 32 ≤ (sectionAt (fileAt mem bf) k).size) (n : Nat) :
    segmentBytes bf (sectionPtr mem bf k) n mem' = none := by
  have hlt : ∀ e : BitVec 32, e.toNat < (sectionAt (fileAt mem bf) k).size :=
    fun e => e.isLt.trans_le hsize
  refine count_loop_endless (SameHeaders mem bf) (fun e mem' hs => ?_)
    (fun _ e mem' mem'' hs hround => ?_) n h
  · rw [hs.section hk]
    exact decide_eq_true (hlt e)
  · cases hround
    rw [hs.section hk]
    exact hs.copy hkept hk hloaded (hlt e)

end Segment

/-- What the outer loop keeps: the pointer is at header `k`, and the headers are those of `mem`. -/
def SegmentInv (mem : Bytes) (bf k : Nat) (state : Nat × Bytes) : Prop :=
  state.1 = sectionPtr mem bf k ∧ SameHeaders mem bf state.2

section Rounds

variable {state state' : Nat × Bytes} (hkept : HeadersKept mem bf) (hk : k < shNum (fileAt mem bf))
  (hs : SegmentInv mem bf k state)

include hk hs

/-- A round over a section that is not loaded. -/
theorem segment_round_skips (hloaded : ¬ (sectionAt (fileAt mem bf) k).loaded = true) (n : Nat) :
    segmentRound bf n state = some (sectionPtr mem bf (k + 1), state.2) := by
  obtain ⟨p, mem'⟩ := state
  obtain ⟨rfl, hheaders⟩ := hs
  simp only [segmentRound, hheaders.section hk, section_ptr_succ]
  split
  case isTrue => rfl
  case isFalse haddr => exact if_neg fun htype => hloaded (loaded_iff.mpr ⟨haddr, htype⟩)

/-- A round over a section that is loaded. -/
theorem segment_round_loads (hloaded : (sectionAt (fileAt mem bf) k).loaded = true) (n : Nat) :
    segmentRound bf n state = (segmentBytes bf (sectionPtr mem bf k) n state.2).map
      fun mem' => (sectionPtr mem bf (k + 1), mem') := by
  obtain ⟨p, mem'⟩ := state
  obtain ⟨rfl, hheaders⟩ := hs
  obtain ⟨haddr, htype⟩ := loaded_iff.mp hloaded
  simp only [segmentRound, hheaders.section hk, section_ptr_succ, if_neg haddr, if_pos htype]

include hkept

/-- A round over a section that the counter can count. -/
theorem segment_round_returns
    (hsize : (sectionAt (fileAt mem bf) k).loaded → (sectionAt (fileAt mem bf) k).size < 2 ^ 32) :
    ∃ state', Returns (fun n => segmentRound bf n state) state' ∧
      SegmentInv mem bf (k + 1) state' := by
  by_cases hloaded : (sectionAt (fileAt mem bf) k).loaded = true
  · obtain ⟨mem', ⟨least, hbytes⟩, hsame⟩ :=
      segment_bytes_returns hkept hk hloaded hs.2 (hsize hloaded)
    refine ⟨(_, mem'), ⟨least, fun n hn => ?_⟩, rfl, hsame⟩
    show segmentRound bf n state = _
    rw [segment_round_loads hk hs hloaded n]
    exact congrArg (Option.map _) (hbytes n hn)
  · exact ⟨_, .of_add 0 (segment_round_skips hk hs hloaded), rfl, hs.2⟩

/-- Every round moves the pointer on by one header and keeps the headers. -/
theorem segment_round_keeps (h : segmentRound bf n state = some state') :
    SegmentInv mem bf (k + 1) state' := by
  by_cases hloaded : (sectionAt (fileAt mem bf) k).loaded = true
  · rw [segment_round_loads hk hs hloaded n] at h
    obtain ⟨mem', hbytes, rfl⟩ := Option.map_eq_some_iff.mp h
    exact ⟨rfl, segment_bytes_keeps hkept hk hloaded hs.2 hbytes⟩
  · rw [segment_round_skips hk hs hloaded n] at h
    cases h
    exact ⟨rfl, hs.2⟩

end Rounds

theorem segment_inv_start : SegmentInv mem bf 0 (sectionsStart mem bf, mem) :=
  ⟨section_ptr_zero.symm, fun _ _ => rfl⟩

theorem segment_count_test {state : Nat × Bytes} {i : BitVec 32}
    (hi : i.toNat ≤ shNum (fileAt mem bf)) (hs : SegmentInv mem bf i.toNat state) :
    decide (i.toInt < shNum (fileAt state.2 bf)) = true ↔ i.toNat < shNum (fileAt mem bf) := by
  rw [hs.2.sh_num]
  exact section_count_test (sh_num_lt _) hi

/-- `load_elf64_segment` returns when every section can be counted. -/
theorem run_segment_returns (hkept : HeadersKept mem bf)
    (hsizes : CountableSections (fileAt mem bf)) : ∃ mem', Returns (runElf64Segment mem bf) mem' := by
  have hcount := sh_num_lt (fileAt mem bf)
  obtain ⟨state, ⟨least, hrun⟩, -⟩ : ∃ state, Returns (fun n => segmentSections mem bf n) state ∧
      SegmentInv mem bf (shNum (fileAt mem bf)) state :=
    count_loop_returns (SegmentInv mem bf) (by omega) (fun i _ hi hs => segment_count_test hi hs)
      (fun i _ hi hs => segment_round_returns hkept hi hs (hsizes i.toNat hi)) (Nat.zero_le _)
      segment_inv_start
  exact ⟨state.2, least, fun n hn => congrArg (Option.map Prod.snd) (hrun n hn)⟩

/-- `load_elf64_segment` does not return when a section cannot be counted. -/
theorem run_segment_endless (hkept : HeadersKept mem bf) (hk : k < shNum (fileAt mem bf))
    (hloaded : (sectionAt (fileAt mem bf) k).loaded = true)
    (hsize : 2 ^ 32 ≤ (sectionAt (fileAt mem bf) k).size) (n : Nat) :
    runElf64Segment mem bf n = none := by
  have hcount := sh_num_lt (fileAt mem bf)
  have hstuck : segmentSections mem bf n = none := count_loop_stuck (SegmentInv mem bf)
    (show shNum (fileAt mem bf) < 2 ^ 32 by omega)
    (fun i _ hi hs => segment_count_test hi hs)
    (fun n i state state' hi hs hround => segment_round_keeps hkept hi hs hround)
    hk (fun n i state _ hs => by
      rw [segment_round_loads hk hs hloaded n, segment_bytes_endless hkept hk hloaded hs.2 hsize]
      rfl)
    n (Nat.zero_le _) segment_inv_start
  rw [runElf64Segment, hstuck]
  rfl

/-! ### The theorem -/

/-- A section that cannot be counted. -/
theorem not_countable_iff : ¬ CountableSections (fileAt mem bf) ↔
    ∃ k < shNum (fileAt mem bf), (sectionAt (fileAt mem bf) k).loaded = true ∧
      2 ^ 32 ≤ (sectionAt (fileAt mem bf) k).size := by
  unfold CountableSections
  push Not
  rfl

/-- The loops of `load_elf64_header` on a file that it accepts end exactly when every section that
is loaded is shorter than `2 ^ 32` bytes, and so do those of `load_elf64_segment` when no section is
copied over the headers. -/
theorem elf_loops_end_iff (mem : Bytes) (bf : Nat) (haccepted : Accepted (fileAt mem bf)) :
    ((∃ r, Returns (runElf64Header mem bf) r) ↔ CountableSections (fileAt mem bf)) ∧
    (HeadersKept mem bf →
      ((∃ mem', Returns (runElf64Segment mem bf) mem') ↔ CountableSections (fileAt mem bf))) := by
  have hnever : ∀ {ρ : Type} {f : Nat → Option ρ}, (∀ n, f n = none) → ¬ ∃ r, Returns f r := by
    rintro ρ f hnone ⟨r, least, hrun⟩
    have hsome := hrun least le_rfl
    rw [hnone] at hsome
    cases hsome
  refine ⟨⟨fun hends => ?_, fun hsizes => ?_⟩, fun hkept => ⟨fun hends => ?_, fun hsizes => ?_⟩⟩
  · by_contra hnot
    obtain ⟨k, hk, hloaded, hsize⟩ := not_countable_iff.mp hnot
    exact hnever (run_header_endless haccepted hk hloaded hsize) hends
  · obtain ⟨r, hreturns, -⟩ := run_header_returns hsizes
    exact ⟨r, hreturns⟩
  · by_contra hnot
    obtain ⟨k, hk, hloaded, hsize⟩ := not_countable_iff.mp hnot
    exact hnever (run_segment_endless hkept hk hloaded hsize) hends
  · exact run_segment_returns hkept hsizes

/-- A file with one section, whose size is `2 + 2 ^ 32 * high`. -/
def oneSectionFile (high : Byte) : Bytes := fun a =>
  match a with
  | 4 => 2#8
  | 16 => 2#8
  | 18 => 62#8
  | 40 => 64#8
  | 60 => 1#8
  | 68 => 1#8
  | 84 => 0x80#8
  | 96 => 2#8
  | 100 => high
  | _ => 0#8

theorem one_section_small :
    shNum (fileAt (oneSectionFile 0#8) 0) = 1 ∧
      sectionAt (fileAt (oneSectionFile 0#8) 0) 0 = ⟨1, 0x8000000000, 0, 2⟩ ∧
      readLong (fileAt (oneSectionFile 0#8) 0) 40 = 64 := by
  decide

theorem one_section_kept : HeadersKept (oneSectionFile 0#8) 0 := by
  obtain ⟨hcount, hsection, hstart⟩ := one_section_small
  intro i hi _ e he _ a ha
  rw [hcount] at hi
  obtain rfl : i = 0 := by omega
  unfold HeaderByte at ha
  rw [hcount, hstart] at ha
  rw [hsection] at he ⊢
  simp only at he ⊢
  omega

/-- A section of two bytes is loaded. -/
theorem elf_loops_end_iff_two_bytes :
    (∃ r, Returns (runElf64Header (oneSectionFile 0#8) 0) r) ∧
      ∃ mem', Returns (runElf64Segment (oneSectionFile 0#8) 0) mem' := by
  have hsizes : CountableSections (fileAt (oneSectionFile 0#8) 0) := by
    obtain ⟨hcount, hsection, -⟩ := one_section_small
    intro i hi _
    rw [hcount] at hi
    obtain rfl : i = 0 := by omega
    rw [hsection]
    decide
  obtain ⟨hheader, hsegment⟩ := elf_loops_end_iff (oneSectionFile 0#8) 0 (by decide)
  exact ⟨hheader.mpr hsizes, (hsegment one_section_kept).mpr hsizes⟩

/-- A section of four gigabytes and two bytes stops the loader for good. -/
theorem long_section_endless : ¬ ∀ (mem : Bytes) (bf : Nat), Accepted (fileAt mem bf) →
    (∃ r, Returns (runElf64Header mem bf) r) ∧ ∃ mem', Returns (runElf64Segment mem bf) mem' := by
  intro hends
  obtain ⟨⟨r, least, hrun⟩, -⟩ := hends (oneSectionFile 1#8) 0 (by decide)
  have hendless : runElf64Header (oneSectionFile 1#8) 0 least = none :=
    run_header_endless (k := 0) (by decide) (by decide) (by decide) (by decide) least
  rw [hrun least le_rfl] at hendless
  cases hendless

end Sirius.Exec
