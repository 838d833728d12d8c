import Sirius.Memory.Grants
import Sirius.Exec.CommandLine
import Sirius.Exec.ElfImage

/-!
# The address space of a program

`exectve` and `exectve_child` of `kernel/exectve.c` up to the new thread: they allocate four kinds of
tables, give every page of the program a frame of its own and have the thread created, which takes
more blocks. `alloc_pages` does not return when the frames run out, and the loop over the pages does
not look at what `alloc_frame` returns. What is put into the pages is in `Elf` and `CommandLine`.
-/

namespace Sirius.Exec

open Library Memory Process

/-! ### The tables -/

/-- The tables of a new address space: their addresses, as the thread keeps them, and their entries.
An entry has the same fields in all of them; the physical address of the next table is in
`frames`. -/
structure UserTables where
  (pml4eAddr pdpteAddr pdeAddr pteAddr : Nat)
  (pml4e pdpte pde pte : Nat → PageTableEntry)

/-- An entry of a cleared table. -/
def clearEntry : PageTableEntry := { p := false, rw := false, us := false, frames := 0 }

/-- An entry for the frame at a physical address. -/
def userEntry (phy : Nat) : PageTableEntry :=
  { p := true, rw := true, us := true, frames := ((phy >>> 12) &&& 0xffffffffffff) % 2 ^ 40 }

/-- The loop over `n` more pages from page `i` on. -/
def pagesLoop : (n i : Nat) → (Nat → PageTableEntry) → Mm → (Nat → PageTableEntry) × Mm
  | 0, _, pte, s => (pte, s)
  | n + 1, i, pte, s =>
      let (frame, s) := allocFrame s
      pagesLoop n (i + 1) (Function.update pte i (userEntry frame)) s

/-- The loop over `n` more page tables from number `i` on. Entries from 512 on lie behind the page
directory. -/
def directoryLoop (s : Mm) : (n i virt : Nat) → (Nat → PageTableEntry) →
    Option (Nat → PageTableEntry)
  | 0, _, _, pde => some pde
  | n + 1, i, virt, pde => do
      let phy ← getPhyAddr s virt
      directoryLoop s n (i + 1) (virt + 0x1000) (Function.update pde i (userEntry phy))

/-- The part of `exectve` and `exectve_child` that makes the address space. `kernel` is the first
entry of the kernel's `pml4e`. -/
def makeTables (kernel : PageTableEntry) (phdr : ProgramHeader) (s : Mm) :
    Option (UserTables × Mm) := do
  let (_, pml4eAddr, s) ← allocPages 0 1 0 s
  let (_, pdpteAddr, s) ← allocPages 0 1 0 s
  let (_, pdeAddr, s) ← allocPages 0 1 0 s
  let (_, pteAddr, s) ← allocPages 0 (phdr.tbs % 2 ^ 32).toNat 0 s
  let (pte, s) := pagesLoop phdr.pagesize.toNat 0 (fun _ => clearEntry) s
  let pde ← directoryLoop s phdr.tbs.toNat 0 pteAddr fun _ => clearEntry
  let phyPde ← getPhyAddr s pdeAddr
  let phyPdpte ← getPhyAddr s pdpteAddr
  pure ({
    pml4eAddr, pdpteAddr, pdeAddr, pteAddr, pde, pte
    pml4e := Function.update (Function.update (fun _ => clearEntry) 0 kernel) 1 (userEntry phyPdpte)
    pdpte := Function.update (fun _ => clearEntry) 0 (userEntry phyPde) }, s)

/-- The entry is present and holds the frame of the page at `table`. -/
def PointsTo (s : Mm) (e : PageTableEntry) (table : Nat) : Prop :=
  e.p = true ∧ getPhyAddr s table = some (e.frames <<< 12)

instance (s : Mm) (e : PageTableEntry) (table : Nat) : Decidable (PointsTo s e table) :=
  inferInstanceAs (Decidable (_ ∧ _))

/-- The frame that the processor finds for the page `i` of the program, which starts at
0x8000000000. A page directory has 512 entries. -/
def UserTables.translate (t : UserTables) (s : Mm) (i : Nat) : Option Nat :=
  if PointsTo s (t.pml4e 1) t.pdpteAddr ∧ PointsTo s (t.pdpte 0) t.pdeAddr ∧ i / 512 < 512 ∧
      PointsTo s (t.pde (i / 512)) (t.pteAddr + i / 512 * 0x1000) ∧ (t.pte i).p = true then
    some (t.pte i).frames
  else none

/-! ### The new thread -/

/-- The blocks of a standard stream: the `FILE` and its buffer. -/
def streamBlocks : List (Nat × Nat) := [(1, 1), (1, 2)]

/-- What allocates the thread. -/
inductive Creator where
  | exectve
  | exectveChild (thread : Nat)

/-- The blocks that `create_thread` and `create_thread_child` allocate, in this order: the thread,
for a father also three streams, the pipe, the mouse and the window, and the pool. -/
def Creator.blocks : Creator → List (Nat × Nat)
  | .exectve =>
      [(0, 2)] ++ streamBlocks ++ streamBlocks ++ streamBlocks ++ streamBlocks ++
        [(1, 1), (1, 512 * 3), (0, 2)]
  | .exectveChild _ => [(0, 2), (0, 2)]

/-- What the create functions get: the addresses of these blocks. -/
def Creator.resources (creator : Creator) (fxsave : Fin 512 → Byte) (addrs : List Nat) :
    Resources :=
  let block (k : Nat) : BitVec 64 := BitVec.ofNat 64 (addrs.getD k 0)
  match creator with
  | .exectve => ⟨addrs.getD 0 0, fxsave, block 1, block 3, block 5, block 7, block 9, block 10, block 11⟩
  | .exectveChild _ => ⟨addrs.getD 0 0, fxsave, 0, 0, 0, 0, 0, 0, block 1⟩

/-- The address of the directory in the program. -/
def Creator.pwd (creator : Creator) (phdr : ProgramHeader) : Nat :=
  match creator with
  | .exectve => phdr.pwd
  | .exectveChild _ => phdr.childArgvPtr

/-- The thread of the program. -/
def Creator.create (creator : Creator) (n : Nat) (argc : BitVec 64) (image : Image) (s : Tasks) :
    Option (BitVec 64 × Tasks) :=
  match creator with
  | .exectve => Process.exectve n argc (some image) s
  | .exectveChild thread => Process.exectveChild n argc (some image) thread s

/-- `exectve` and `exectve_child`: the number of the new thread, or 0 for a file that is rejected.
`none` is a call that does not return. -/
def Creator.run (creator : Creator) (n : Nat) (kernel : PageTableEntry) (fxsave : Fin 512 → Byte)
    (user argc : BitVec 64) (bf : Bytes) (s : Mm) (tasks : Tasks) :
    Option (BitVec 64 × Mm × Tasks) := do
  let (error, phdr) ← loadElf64Header bf
  if error ≠ 0 then pure (0#64, s, tasks)
  else
    let phdr := phdr.withStack
    let (t, s) ← makeTables kernel phdr s
    let phy ← getPhyAddr s t.pml4eAddr
    let (addrs, s) ← allocBlocks creator.blocks s
    let (pid, tasks) ← creator.create n argc
      { r := creator.resources fxsave addrs
        entry := BitVec.ofNat 64 phdr.entry
        stack := BitVec.ofNat 64 phdr.stack
        phy := BitVec.ofNat 64 phy
        user := user
        arg := BitVec.ofNat 64 (creator.pwd phdr + 0x1000)
        pwd := BitVec.ofNat 64 (creator.pwd phdr) } tasks
    pure (pid, s, tasks)

/-! ### The property -/

/-- Every page of the program is mapped to a frame that was free before the call, and is taken after
it. No other page of the program has this frame, and no page that the call got for its tables. -/
structure UserFrames (s s' : Mm) (t : UserTables) (pagesize : Int) : Prop where
  page : ∀ i : Nat, (i : Int) < pagesize → ∃ f, t.translate s' i = some f ∧ FrameRange f ∧
    frameBit s.ramBitmap f = false ∧ frameBit s'.ramBitmap f = true
  distinct : ∀ (i j : Nat) (f : Nat), (i : Int) < pagesize → (j : Int) < pagesize →
    t.translate s' i = some f → t.translate s' j = some f → i = j
  tables : ∀ (i f q : Nat), (i : Int) < pagesize → t.translate s' i = some f →
    s'.allocPte q ≠ s.allocPte q → (s'.allocPte q).frames ≠ f

/-- The frames that the call takes. -/
def neededFrames (phdr : ProgramHeader) (creator : Creator) : Nat :=
  3 + phdr.tbs.toNat + phdr.pagesize.toNat + (creator.blocks.map Prod.snd).sum

/-- The pages of every address space that the call makes have frames of their own, and the call
returns 0 without a new thread when the frames run out. -/
structure FramesSafe (creator : Creator) (kernel : PageTableEntry) (fxsave : Fin 512 → Byte)
    (user argc : BitVec 64) (bf : Bytes) (phdr : ProgramHeader) (s : Mm) (tasks : Tasks) : Prop where
  granted : ∀ t s', makeTables kernel phdr s = some (t, s') → UserFrames s s' t phdr.pagesize
  failure : ¬ FramesLeft s.ramBitmap (neededFrames phdr creator) → ∃ s',
    Returns (fun n => creator.run n kernel fxsave user argc bf s tasks) (0#64, s', tasks)

variable {s s' : Mm} {tasks : Tasks} {phdr : ProgramHeader} {kernel : PageTableEntry} {t : UserTables}
  {pte pte' pde pde' : Nat → PageTableEntry} {f i n virt phy : Nat}

/-! ### The loops -/

/-- An entry made from the address of a frame. -/
theorem user_entry_frame (hf : FrameRange f) : (userEntry (f * 0x1000)).frames = f :=
  stored_frame_eq hf

/-- An entry made from what `get_phy_addr` returns for a table. -/
theorem user_entry_points (h : getPhyAddr s virt = some phy) : PointsTo s (userEntry phy) virt := by
  refine ⟨rfl, h.trans (congrArg some ?_)⟩
  have hmask : ∀ n : Nat, n &&& 0xffffffffffff = n % 2 ^ 48 := fun n =>
    Nat.and_two_pow_sub_one_eq_mod n 48
  rw [getPhyAddr] at h
  dsimp only at h
  split at h
  · have hphy := Option.some.inj h
    generalize (s.allocPte _).frames = frames at hphy
    rw [hmask, Nat.shiftLeft_eq] at hphy
    show phy = ((phy >>> 12 &&& 0xffffffffffff) % 2 ^ 40) <<< 12
    rw [hmask, Nat.shiftLeft_eq, Nat.shiftRight_eq_div_pow]
    omega
  · cases h

/-- The loop over the pages changes only the bitmap of the frames. -/
theorem pages_loop_entries (n i : Nat) (pte : Nat → PageTableEntry) (s : Mm) :
    (pagesLoop n i pte s).2.allocPte = s.allocPte := by
  induction n generalizing i pte s with
  | zero => rfl
  | succ n ih =>
      rcases alloc_frame_granted s with ⟨f, -, halloc, -⟩ | ⟨-, halloc⟩
      · rw [pagesLoop, halloc]
        exact ih ..
      · rw [pagesLoop, halloc]
        exact ih ..

theorem pages_loop_other (hi : ¬ (i ≤ f ∧ f < i + n)) : (pagesLoop n i pte s).1 f = pte f := by
  induction n generalizing i pte s with
  | zero => rfl
  | succ n ih =>
      have hne : f ≠ i := by omega
      rw [pagesLoop]
      generalize allocFrame s = r
      obtain ⟨frame, s₁⟩ := r
      rw [ih (by omega), Function.update_of_ne hne]

/-- With enough frames, each page gets one of them. -/
theorem pages_loop_granted (i : Nat) (pte : Nat → PageTableEntry) (h : FramesLeft s.ramBitmap n) :
    ∃ l, l.length = n ∧ Granted s.ramBitmap l (pagesLoop n i pte s).2.ramBitmap ∧
      ∀ (k : Nat) (f : Nat), l[k]? = some f →
        (pagesLoop n i pte s).1 (i + k) = userEntry (f * 0x1000) := by
  induction n generalizing i pte s with
  | zero => exact ⟨[], rfl, Granted.nil, fun k f hk => by cases hk⟩
  | succ n ih =>
      rcases alloc_frame_granted s with ⟨f, -, halloc, hgranted⟩ | ⟨hnone, -⟩
      · rw [pagesLoop, halloc]
        dsimp only
        rw [Nat.add_comm] at h
        obtain ⟨l, hlength, hrest, hentries⟩ :=
          ih (s := { s with ramBitmap := setFrame s.ramBitmap f }) (i + 1)
            (Function.update pte i (userEntry (f * 0x1000))) (hgranted.left_iff.mp h)
        refine ⟨f :: l, by rw [List.length_cons, hlength], hgranted.append hrest, fun k g hk => ?_⟩
        cases k with
        | zero =>
            obtain rfl := Option.some.inj hk
            show (pagesLoop n (i + 1) (Function.update pte i _) _).1 i = _
            rw [pages_loop_other (by omega), Function.update_self]
        | succ k =>
            rw [show i + (k + 1) = i + 1 + k by omega]
            exact hentries k g hk
      · exact absurd (h.mono (by omega)) hnone

/-- Whether or not the frames suffice: at least one frame is left after the loop exactly when there
was one more than the loop needs. -/
theorem pages_loop_left {m : Nat} (hm : 0 < m) (pte : Nat → PageTableEntry) :
    FramesLeft s.ramBitmap (n + m) ↔ FramesLeft (pagesLoop n i pte s).2.ramBitmap m := by
  induction n generalizing i pte s with
  | zero => rw [Nat.zero_add, pagesLoop]
  | succ n ih =>
      rcases alloc_frame_granted s with ⟨f, -, halloc, hgranted⟩ | ⟨hnone, halloc⟩
      · rw [pagesLoop, halloc]
        dsimp only
        rw [show n + 1 + m = 1 + (n + m) by omega]
        exact hgranted.left_iff.trans (ih (s := { s with ramBitmap := setFrame s.ramBitmap f }) ..)
      · rw [pagesLoop, halloc]
        dsimp only
        rw [← ih]
        exact ⟨fun h => absurd (h.mono (by omega)) hnone, fun h => absurd (h.mono (by omega)) hnone⟩

/-- When the frames run out, a page is mapped to the frame 0. -/
theorem pages_loop_short (i : Nat) (pte : Nat → PageTableEntry)
    (h : ¬ FramesLeft s.ramBitmap n) :
    ∃ k < n, (pagesLoop n i pte s).1 (i + k) = userEntry 0 := by
  induction n generalizing i pte s with
  | zero => exact absurd (frames_left_zero _) h
  | succ n ih =>
      rcases alloc_frame_granted s with ⟨f, -, halloc, hgranted⟩ | ⟨hnone, halloc⟩
      · rw [pagesLoop, halloc]
        have hleft : FramesLeft s.ramBitmap (1 + n) ↔ _ := hgranted.left_iff
        rw [Nat.add_comm, hleft] at h
        obtain ⟨k, hk, hentry⟩ := ih (s := { s with ramBitmap := setFrame s.ramBitmap f }) (i + 1) _ h
        refine ⟨k + 1, by omega, ?_⟩
        rw [show i + (k + 1) = i + 1 + k by omega]
        exact hentry
      · refine ⟨0, by omega, ?_⟩
        rw [pagesLoop, halloc]
        show (pagesLoop n (i + 1) (Function.update pte i _) _).1 i = _
        rw [pages_loop_other (by omega), Function.update_self]

theorem directory_loop_other (h : directoryLoop s n i virt pde = some pde')
    (hf : ¬ (i ≤ f ∧ f < i + n)) :
    pde' f = pde f := by
  induction n generalizing i virt pde with
  | zero => rw [Option.some.inj h]
  | succ n ih =>
      obtain ⟨phy, -, h⟩ := Option.bind_eq_some_iff.mp h
      rw [ih h (by omega), Function.update_of_ne (by omega)]

/-- Every page table has its entry in the directory. -/
theorem directory_loop_points (h : directoryLoop s n i virt pde = some pde') {k : Nat} (hk : k < n) :
    PointsTo s (pde' (i + k)) (virt + k * 0x1000) := by
  induction n generalizing i virt pde k with
  | zero => omega
  | succ n ih =>
      obtain ⟨phy, hphy, h⟩ := Option.bind_eq_some_iff.mp h
      cases k with
      | zero =>
          rw [Nat.add_zero, directory_loop_other h (by omega), Function.update_self, Nat.zero_mul,
            Nat.add_zero]
          exact user_entry_points hphy
      | succ k =>
          have hrest := ih h (k := k) (by omega)
          rw [show i + 1 + k = i + (k + 1) by omega,
            show virt + 0x1000 + k * 0x1000 = virt + (k + 1) * 0x1000 by omega] at hrest
          exact hrest

/-! ### The sizes -/

/-- The division of C cuts off towards zero. -/
theorem tdiv_tmod_spec (x : Int) {d : Int} (hd : 0 < d) : d * x.tdiv d + x.tmod d = x ∧
    (0 ≤ x → 0 ≤ x.tmod d ∧ x.tmod d < d) ∧ (x ≤ 0 → -d < x.tmod d ∧ x.tmod d ≤ 0) := by
  refine ⟨Int.mul_tdiv_add_tmod x d, fun hx => ⟨Int.tmod_nonneg d hx, Int.tmod_lt_of_pos x hd⟩,
    fun hx => ?_⟩
  obtain ⟨n, rfl⟩ := Int.exists_eq_neg_ofNat hx
  have hlow := Int.tmod_nonneg d (Int.natCast_nonneg n)
  have hhigh := Int.tmod_lt_of_pos n hd
  rw [Int.neg_tmod]
  omega

/-- The size of a program is an `int`. -/
theorem tbs_bounds (phdr : ProgramHeader) : -1024 ≤ phdr.tbs ∧ phdr.tbs ≤ 1024 ∧
    phdr.pagesize.toNat ≤ 512 * phdr.tbs.toNat ∧
      (1 < phdr.tbs → 512 * (phdr.tbs - 1) < phdr.pagesize) := by
  have hlow : -2 ^ 31 ≤ phdr.physize := BitVec.le_toInt _
  have hhigh : phdr.physize < 2 ^ 31 := BitVec.toInt_lt
  obtain ⟨hsize, hpos, hneg⟩ := tdiv_tmod_spec phdr.physize (show 0 < 0x1000 by decide)
  obtain ⟨hsize', hpos', hneg'⟩ := tdiv_tmod_spec phdr.pagesize (show 0 < 512 by decide)
  have hpages : -524288 ≤ phdr.pagesize ∧ phdr.pagesize ≤ 524288 := by
    rw [ProgramHeader.pagesize]
    split
    case isTrue => omega
    case isFalse => omega
  rw [ProgramHeader.tbs]
  split
  case isTrue => omega
  case isFalse => omega

/-! ### The whole call -/

/-- `alloc_pages` does not return for a negative number of pages. -/
theorem alloc_pages_negative {type addr : Nat} {len : Int} (hneg : len < 0) (hbound : -1024 ≤ len) :
    allocPages type (len % 2 ^ 32).toNat addr s = none := by
  have hlarge : ¬ (len % 2 ^ 32).toNat < 2 ^ 31 := by omega
  have hpage : getFreePage s.pageBitmap (len % 2 ^ 32).toNat = none :=
    get_free_page_loop_large _ hlarge ..
  rw [allocPages, if_neg (by omega), hpage]
  split
  case isTrue => rfl
  case isFalse => rfl

/-- What is known of the tables: `l` are the frames that `alloc_pages` took for them, and `s₁` is the
state before the loop over the pages. -/
structure TablesMade (phdr : ProgramHeader) (s s₁ s' : Mm) (t : UserTables) (l : List Nat) : Prop where
  length : l.length = 3 + phdr.tbs.toNat
  granted : Granted s.ramBitmap l s₁.ramBitmap
  changed : ChangedGranted s s' l
  pages : (pagesLoop phdr.pagesize.toNat 0 (fun _ => clearEntry) s₁) = (t.pte, s')
  pml4e : PointsTo s' (t.pml4e 1) t.pdpteAddr
  pdpte : PointsTo s' (t.pdpte 0) t.pdeAddr
  pde : ∀ k < phdr.tbs.toNat, PointsTo s' (t.pde k) (t.pteAddr + k * 0x1000)

theorem make_tables_spec (h : makeTables kernel phdr s = some (t, s')) :
    ∃ s₁ l, TablesMade phdr s s₁ s' t l := by
  obtain ⟨hlow, hhigh, -, -⟩ := tbs_bounds phdr
  obtain ⟨⟨_, pml4eAddr, s₂⟩, hpml4e, h⟩ := Option.bind_eq_some_iff.mp h
  obtain ⟨⟨_, pdpteAddr, s₃⟩, hpdpte, h⟩ := Option.bind_eq_some_iff.mp h
  obtain ⟨⟨_, pdeAddr, s₄⟩, hpde, h⟩ := Option.bind_eq_some_iff.mp h
  obtain ⟨⟨_, pteAddr, s₁⟩, hpte, h⟩ := Option.bind_eq_some_iff.mp h
  dsimp only at hpdpte hpde hpte h
  have hpos : 0 ≤ phdr.tbs := by
    by_contra hneg
    rw [alloc_pages_negative (by omega) hlow] at hpte
    cases hpte
  obtain ⟨l₂, hlength₂, hgranted₂, hchanged₂⟩ := alloc_pages_takes hpml4e
  obtain ⟨l₃, hlength₃, hgranted₃, hchanged₃⟩ := alloc_pages_takes hpdpte
  obtain ⟨l₄, hlength₄, hgranted₄, hchanged₄⟩ := alloc_pages_takes hpde
  obtain ⟨l₁, hlength₁, hgranted₁, hchanged₁⟩ := alloc_pages_takes hpte
  have hentries := pages_loop_entries phdr.pagesize.toNat 0 (fun _ => clearEntry) s₁
  generalize hpages : pagesLoop phdr.pagesize.toNat 0 (fun _ => clearEntry) s₁ = r at h hentries
  obtain ⟨pte, s₅⟩ := r
  obtain ⟨pde, hdirectory, h⟩ := Option.bind_eq_some_iff.mp h
  obtain ⟨phyPde, hphyPde, h⟩ := Option.bind_eq_some_iff.mp h
  obtain ⟨phyPdpte, hphyPdpte, h⟩ := Option.bind_eq_some_iff.mp h
  obtain ⟨rfl, rfl⟩ := Prod.mk.inj (Option.some.inj h)
  refine ⟨s₁, l₂ ++ l₃ ++ l₄ ++ l₁, ?_, ?_, ?_, hpages, ?_, ?_, fun k hk => ?_⟩
  · simp only [List.length_append, hlength₂, hlength₃, hlength₄, hlength₁]
    omega
  · exact ((hgranted₂.append hgranted₃).append hgranted₄).append hgranted₁
  · have hchanged := ((hchanged₂.append hchanged₃).append hchanged₄).append hchanged₁
    intro q hq
    dsimp only at hentries
    rw [hentries] at hq ⊢
    exact hchanged q hq
  · simpa only [Function.update_self] using user_entry_points hphyPdpte
  · simpa only [Function.update_self] using user_entry_points hphyPde
  · have hpoints := directory_loop_points hdirectory hk
    rw [Nat.zero_add] at hpoints
    exact hpoints

/-- A page of the program is translated through the tables. -/
theorem TablesMade.translate {s₁ : Mm} {l : List Nat} (h : TablesMade phdr s s₁ s' t l)
    (htbs : phdr.tbs ≤ 512) (hi : (i : Int) < phdr.pagesize) (hp : (t.pte i).p = true) :
    t.translate s' i = some (t.pte i).frames := by
  obtain ⟨-, -, hpages, -⟩ := tbs_bounds phdr
  exact if_pos ⟨h.pml4e, h.pdpte, by omega, h.pde _ (by omega), hp⟩

/-- With enough frames, every page of the program has its own. -/
theorem TablesMade.user_frames {s₁ : Mm} {l : List Nat} (h : TablesMade phdr s s₁ s' t l)
    (htbs : phdr.tbs ≤ 512) (hleft : FramesLeft s₁.ramBitmap phdr.pagesize.toNat) :
    UserFrames s s' t phdr.pagesize := by
  obtain ⟨frames, hlength, hgranted, hentries⟩ :=
    pages_loop_granted 0 (fun _ => clearEntry) hleft
  rw [h.pages] at hgranted hentries
  have hall := h.granted.append hgranted
  have hpage : ∀ i : Nat, (i : Int) < phdr.pagesize → ∃ f, frames[i]? = some f ∧ f ∈ frames ∧
      t.translate s' i = some f := by
    intro i hi
    obtain ⟨f, hf⟩ : ∃ f, frames[i]? = some f :=
      Option.ne_none_iff_exists'.mp (List.getElem?_eq_none_iff.not.mpr (by omega))
    have hmem := List.mem_of_getElem? hf
    have hentry : t.pte i = userEntry (f * 0x1000) := by
      rw [← hentries i f hf, Nat.zero_add]
    refine ⟨f, hf, hmem, ?_⟩
    rw [h.translate htbs hi (by rw [hentry]; rfl), hentry,
      user_entry_frame (hgranted.free f hmem).1]
  refine ⟨fun i hi => ?_, fun i j f hi hj hf hf' => ?_, fun i f q hi hf hq heq => ?_⟩
  · obtain ⟨f, -, hmem, htranslate⟩ := hpage i hi
    have hmem' := List.mem_append_right l hmem
    exact ⟨f, htranslate, (hall.free f hmem').1, (hall.free f hmem').2, hall.taken hmem'⟩
  · obtain ⟨g, hg, -, htranslate⟩ := hpage i hi
    obtain ⟨g', hg', -, htranslate'⟩ := hpage j hj
    obtain rfl := Option.some.inj (htranslate.symm.trans hf)
    obtain rfl := Option.some.inj (htranslate'.symm.trans hf')
    exact (List.getElem?_inj (by omega) hgranted.nodup).mp (hg.trans hg'.symm)
  · obtain ⟨g, -, hmem, htranslate⟩ := hpage i hi
    obtain rfl := Option.some.inj (htranslate.symm.trans hf)
    exact List.disjoint_of_nodup_append hall.nodup (h.changed q hq) (heq ▸ hmem)

/-- When the frames run out in the loop over the pages, a page is mapped to the frame 0. -/
theorem short_page_frame_zero (h : makeTables kernel phdr s = some (t, s')) (htbs : phdr.tbs ≤ 512)
    (hshort : ¬ FramesLeft s.ramBitmap (3 + phdr.tbs.toNat + phdr.pagesize.toNat)) :
    ∃ i : Nat, (i : Int) < phdr.pagesize ∧ t.translate s' i = some 0 := by
  obtain ⟨s₁, l, hmade⟩ := make_tables_spec h
  rw [← hmade.length, hmade.granted.left_iff] at hshort
  obtain ⟨k, hk, hentry⟩ := pages_loop_short 0 (fun _ => clearEntry) hshort
  rw [hmade.pages, Nat.zero_add] at hentry
  dsimp only at hentry
  refine ⟨k, by omega, ?_⟩
  rw [hmade.translate htbs (by omega) (by rw [hentry]; rfl), hentry]
  rfl

/-- The thread takes at least one frame. -/
theorem blocks_pos (creator : Creator) : 0 < (creator.blocks.map Prod.snd).sum := by
  cases creator with
  | exectve => decide
  | exectveChild thread => exact Nat.succ_pos _

/-- A call that returns has found all its frames. -/
theorem run_frames_left {creator : Creator} {fxsave : Fin 512 → Byte} {user argc : BitVec 64}
    {bf : Bytes} {tasks' : Tasks} {pid : BitVec 64} {header : ProgramHeader}
    (hload : loadElf64Header bf = some (0, header))
    (h : creator.run n kernel fxsave user argc bf s tasks = some (pid, s', tasks')) :
    FramesLeft s.ramBitmap (neededFrames header.withStack creator) := by
  rw [Creator.run, hload, Option.bind_eq_bind, Option.bind_some] at h
  dsimp only at h
  rw [if_neg (not_not.mpr rfl)] at h
  obtain ⟨⟨t, s₂⟩, htables, h⟩ := Option.bind_eq_some_iff.mp h
  obtain ⟨phy, -, h⟩ := Option.bind_eq_some_iff.mp h
  obtain ⟨⟨addrs, s₃⟩, hblocks, -⟩ := Option.bind_eq_some_iff.mp h
  obtain ⟨s₁, l, hmade⟩ := make_tables_spec htables
  obtain ⟨l', hlength, hgranted, -⟩ := alloc_blocks_takes hblocks
  have hthread : FramesLeft s₂.ramBitmap (creator.blocks.map Prod.snd).sum := by
    rw [← hlength, ← Nat.add_zero l'.length, hgranted.left_iff]
    exact frames_left_zero _
  have hpages := pages_loop_left (n := header.withStack.pagesize.toNat) (i := 0) (s := s₁)
    (blocks_pos creator) fun _ => clearEntry
  rw [hmade.pages] at hpages
  rw [neededFrames, Nat.add_assoc, ← hmade.length, hmade.granted.left_iff]
  exact hpages.mpr hthread

/-- The frames of `exectve` and `exectve_child` are safe exactly when enough frames are left, and the
program needs at most 512 page tables unless its tables are not made at all. -/
theorem user_frames_iff (creator : Creator) (kernel : PageTableEntry) (fxsave : Fin 512 → Byte)
    (user argc : BitVec 64) (bf : Bytes) (header : ProgramHeader) (s : Mm) (tasks : Tasks)
    (hload : loadElf64Header bf = some (0, header)) :
    FramesSafe creator kernel fxsave user argc bf header.withStack s tasks ↔
      FramesLeft s.ramBitmap (neededFrames header.withStack creator) ∧
        (header.withStack.tbs ≤ 512 ∨ makeTables kernel header.withStack s = none) := by
  constructor
  · intro h
    refine ⟨?_, ?_⟩
    · by_contra hshort
      obtain ⟨s', k, hk⟩ := h.failure hshort
      exact hshort (run_frames_left hload (hk k le_rfl))
    · by_contra hlarge
      rw [not_or] at hlarge
      obtain ⟨⟨t, s'⟩, htables⟩ := Option.ne_none_iff_exists'.mp hlarge.2
      obtain ⟨-, -, -, hpages⟩ := tbs_bounds header.withStack
      have hsize : ((512 * 512 : Nat) : Int) < header.withStack.pagesize := by omega
      obtain ⟨f, htranslate, -⟩ := (h.granted t s' htables).page (512 * 512) hsize
      rw [UserTables.translate, if_neg fun hall => absurd hall.2.2.1 (by decide)] at htranslate
      cases htranslate
  · rintro ⟨hleft, hfits⟩
    refine ⟨fun t s' htables => ?_, fun hshort => absurd hleft hshort⟩
    obtain ⟨s₁, l, hmade⟩ := make_tables_spec htables
    have htbs : header.withStack.tbs ≤ 512 := by
      refine hfits.resolve_right fun hnone => ?_
      rw [hnone] at htables
      cases htables
    refine hmade.user_frames htbs ?_
    rw [neededFrames, Nat.add_assoc, ← hmade.length, hmade.granted.left_iff] at hleft
    exact hleft.mono (Nat.le_add_right ..)

/-- The machine after the setup has enough frames for a small program. -/
theorem user_frames_after_setup : FramesSafe .exectve clearEntry (fun _ => 0#8) 0#64 0#64
    (elfFile textBssFrame) (headerTo 0x8000004000).withStack (allocPagesSetup (ramSetup clearMachine))
    zeroTasks := by
  have hload : loadElf64Header (elfFile textBssFrame) = some (0, headerTo 0x8000004000) := by
    decide +kernel
  refine (user_frames_iff _ _ _ _ _ _ _ _ _ hload).mpr ⟨?_, .inl (by decide +kernel)⟩
  exact (setup_not_exhausted clearMachine (by decide +kernel)).2

/-- The machine after the setup when only eight frames are left. -/
def fullMachine : Mm :=
  { allocPagesSetup (ramSetup clearMachine) with
    ramBitmap := fun i => if i = 4096 then 0#8 else 0xff#8 }

theorem full_machine_left (h : FramesLeft fullMachine.ramBitmap n) : n ≤ 8 := by
  obtain ⟨free, rfl, hfree⟩ := h
  have hsub : free ⊆ Finset.Ico 32768 32776 := by
    intro f hf
    have hclear := (hfree f hf).2
    have hbyte : f / 8 = 4096 := by
      by_contra hne
      have hmod : ∀ k : Fin 8, (0xff#8).getLsbD k = true := by decide
      have hbit : frameBit fullMachine.ramBitmap f = (0xff#8).getLsbD (f % 8) :=
        congrArg (BitVec.getLsbD · (f % 8)) (if_neg hne)
      rw [hbit, hmod ⟨f % 8, by omega⟩] at hclear
      cases hclear
    rw [Finset.mem_Ico]
    omega
  have hcard := Finset.card_le_card hsub
  rwa [Nat.card_Ico] at hcard

/-- With eight frames left the program gets its tables and four of its 52 pages; the others are mapped
to the frame 0, and the call hangs in `alloc_pages` for the thread. -/
theorem short_call_does_not_fail : ¬ ∀ (creator : Creator) (kernel : PageTableEntry)
    (fxsave : Fin 512 → Byte) (user argc : BitVec 64) (bf : Bytes) (header : ProgramHeader) (s : Mm)
    (tasks : Tasks), loadElf64Header bf = some (0, header) →
    FramesSafe creator kernel fxsave user argc bf header.withStack s tasks := by
  intro h
  have hload : loadElf64Header (elfFile textBssFrame) = some (0, headerTo 0x8000004000) := by
    decide +kernel
  have hsafe := h .exectve clearEntry (fun _ => 0#8) 0#64 0#64 (elfFile textBssFrame) _ fullMachine
    zeroTasks hload
  have hneeded : neededFrames (headerTo 0x8000004000).withStack .exectve = 1609 := by
    decide +kernel
  have hshort : ¬ FramesLeft fullMachine.ramBitmap
      (neededFrames (headerTo 0x8000004000).withStack .exectve) := fun hleft => by
    have hlimit := full_machine_left hleft
    omega
  obtain ⟨s', k, hk⟩ := hsafe.failure hshort
  exact hshort (run_frames_left hload (hk k le_rfl))

end Sirius.Exec
