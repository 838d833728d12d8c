import Sirius.Library.LazyRing
import Sirius.Stdio.Console

/-!
# The standard streams are queues

`StdStream.Represents` reads the buffer of a stream as a lazily wrapped ring of cells; every write
and every read of the four functions is the call of the ring. `console_fifo` is the result on runs:
the characters come out in the order they went in, unless a read starts with both offsets at the
end of the buffer, or `getkey` returns a character 0.
-/

namespace Sirius.Stdio

open Library

/-- The number of cells of the buffer. -/
def StdStream.cellCount : StdStream → Nat
  | .stdin => 8192
  | .stdout => 4096

/-- The cell at an offset. -/
def StdStream.cellAt : StdStream → Bytes → Nat → Nat
  | .stdin, m, a => (m a).toNat
  | .stdout, m, a => readHalf m a

/-- The stream is a ring of cells, into which `count` cells were written. -/
structure StdStream.Represents (std : StdStream) (fp : File) (ring : LazyRing Nat) (count : Nat) :
    Prop where
  flags : fp.flags = std.flags
  level : fp.level = 0
  bsize : fp.bsize = bufsiz
  off : fp.off = std.cellSize * ring.off
  off2 : fp.off2 = std.cellSize * ring.off2
  bound : ring.off ≤ std.cellCount
  fsize : fp.fsize = std.cellSize * min count std.cellCount
  slots : ∀ k < std.cellCount, std.cellAt fp.buffer (std.cellSize * k) = ring.slots k

/-- The stream is a queue: its ring holds the cells that were written and not read. -/
structure ConsoleInv (std : StdStream) (s : Console) (ring : LazyRing Nat) : Prop where
  represents : std.Represents s.fp ring s.written.length
  queue : ring.Queue std.cellCount s.written s.delivered.length
  order : s.InOrder std

variable {std : StdStream} {s : Console} {fp : File} {ring : LazyRing Nat} {count : Nat}
  {reader : StdReader}

/-! ### Cells -/

theorem cell_size_count (std : StdStream) : std.cellSize * std.cellCount = bufsiz := by
  cases std <;> rfl

theorem cell_size_pos (std : StdStream) : 0 < std.cellSize := by
  cases std <;> exact Nat.zero_lt_succ _

theorem cell_count_pos (std : StdStream) : 0 < std.cellCount := by
  cases std <;> exact Nat.zero_lt_succ _

/-- The wrapped offset of the stream is that of the ring. -/
theorem wrapped_offset (std : StdStream) (pos : Nat) :
    (if std.cellSize * pos ≥ bufsiz then 0 else std.cellSize * pos) =
      std.cellSize * LazyRing.wrap std.cellCount pos := by
  rw [← cell_size_count std]
  exact LazyRing.mul_wrap (cell_size_pos std) std.cellCount pos

theorem StdStream.Represents.at_end_iff (h : std.Represents fp ring count) :
    AtBufferEnd fp ↔ ring.AtEnd std.cellCount := by
  rw [AtBufferEnd, LazyRing.AtEnd, h.off, h.off2, h.bsize, ← cell_size_count std,
    Nat.mul_right_inj (cell_size_pos std).ne', Nat.mul_right_inj (cell_size_pos std).ne']

/-! ### Writes -/

/-- The value that a write puts into a cell of the stream. -/
def StdStream.pick : StdStream → BitVec 16 → Byte → Nat
  | .stdin, _, c => c.toNat
  | .stdout, half, _ => half.toNat

/-- The buffer after a write, cell by cell. -/
theorem cell_at_write (std : StdStream) (m : Bytes) (half : BitVec 16) (c : Byte) (j k : Nat) :
    std.cellAt (if std.flags = 3#32 then writeHalf m (std.cellSize * j) half.toNat
        else Function.update m (std.cellSize * j) c) (std.cellSize * k) =
      if k = j then std.pick half c else std.cellAt m (std.cellSize * k) := by
  cases std with
  | stdin =>
      have hflag : ¬ StdStream.stdin.flags = 3#32 := by decide
      simp only [hflag, if_false, StdStream.cellAt, StdStream.cellSize, Nat.one_mul,
        StdStream.pick]
      by_cases hk : k = j
      · rw [if_pos hk, hk, Function.update_self]
      · rw [if_neg hk, Function.update_of_ne hk]
  | stdout =>
      have hflag : StdStream.stdout.flags = 3#32 := rfl
      simp only [hflag, if_true, StdStream.cellAt, StdStream.cellSize, StdStream.pick]
      by_cases hk : k = j
      · rw [if_pos hk, hk, read_write_half_same half.isLt]
      · rw [if_neg hk]
        exact read_half_congr fun i hi => write_half_outside (by omega)

/-- A write is the write of the ring. -/
theorem put_cell_represents (h : std.Represents fp ring count) (half : BitVec 16) (c : Byte)
    (hcount : ring.off = LazyRing.offsetAfter std.cellCount count) :
    std.Represents (putCell half c fp) (ring.put std.cellCount (std.pick half c)) (count + 1) := by
  have hoff := wrapped_offset std ring.off
  rw [← h.off, ← h.bsize] at hoff
  have hlow : ¬ fp.level ≥ fp.bsize := by
    rw [h.level, h.bsize]
    decide
  -- the write starts at the slot behind the last one
  have hslot : LazyRing.wrap std.cellCount ring.off = count % std.cellCount := by
    rw [hcount, LazyRing.wrap_offset_after (cell_count_pos std)]
  have hlt : count % std.cellCount < std.cellCount := Nat.mod_lt _ (cell_count_pos std)
  have hsize : (if fp.flags = 3#32 then 2 else 1) = std.cellSize := by
    rw [h.flags]
    cases std <;> rfl
  have hput : putCell half c fp = { fp with
      buffer := if std.flags = 3#32 then
          writeHalf fp.buffer (std.cellSize * (count % std.cellCount)) half.toNat
        else Function.update fp.buffer (std.cellSize * (count % std.cellCount)) c
      off := (std.cellSize * (count % std.cellCount) + std.cellSize) % 2 ^ 32
      fsize := if (std.cellSize * (count % std.cellCount) + std.cellSize) % 2 ^ 32 > fp.fsize then
          (fp.fsize + std.cellSize) % 2 ^ 32
        else fp.fsize } := by
    rw [← hslot, ← hoff, ← hsize, ← h.flags]
    obtain ⟨level, flags, bsize, buffer, mode, off⟩ := fp
    obtain rfl : level = 0 := h.level
    simp only at hlow
    by_cases hwrap : off ≥ bsize <;>
      simp only [putCell, hlow, hwrap, false_or, if_true, if_false]
  have hfit : std.cellSize * (count % std.cellCount) + std.cellSize ≤ bufsiz := by
    rw [← cell_size_count std, ← Nat.mul_succ]
    exact Nat.mul_le_mul_left _ hlt
  have hnext : (std.cellSize * (count % std.cellCount) + std.cellSize) % 2 ^ 32 =
      std.cellSize * (count % std.cellCount) + std.cellSize := by
    simp only [bufsiz] at hfit
    omega
  rw [hnext] at hput
  rw [hput]
  constructor
  case flags => exact h.flags
  case level => exact h.level
  case bsize => exact h.bsize
  case off =>
      show _ = std.cellSize * (LazyRing.wrap std.cellCount ring.off + 1)
      rw [hslot, Nat.mul_succ]
  case off2 => exact h.off2
  case bound =>
      show LazyRing.wrap std.cellCount ring.off + 1 ≤ _
      rw [hslot]
      exact hlt
  case fsize =>
      -- `fsize` grows until the ring was filled once
      show (if std.cellSize * (count % std.cellCount) + std.cellSize > fp.fsize then
          (fp.fsize + std.cellSize) % 2 ^ 32
        else fp.fsize) = std.cellSize * min (count + 1) std.cellCount
      rw [h.fsize]
      rcases Nat.lt_or_ge count std.cellCount with hnew | hfull
      · rw [Nat.mod_eq_of_lt hnew] at hnext ⊢
        rw [Nat.min_eq_left hnew.le, Nat.min_eq_left hnew, hnext,
          if_pos (Nat.lt_add_of_pos_right (cell_size_pos std)), Nat.mul_succ]
      · rw [Nat.min_eq_right hfull, Nat.min_eq_right (Nat.le_succ_of_le hfull), cell_size_count,
          if_neg (Nat.not_lt.mpr hfit)]
  case slots =>
      intro k hk
      show _ = Function.update ring.slots (LazyRing.wrap std.cellCount ring.off) _ k
      rw [hslot, cell_at_write, Function.update_apply, h.slots k hk]

/-! ### Reads -/

/-- What a reading function returns for what the ring returned. -/
def StdReader.Answers (reader : StdReader) (std : StdStream) (r : Option Int) :
    Option Nat → Prop
  | none => reader.ReportsNothing r
  | some cell => r = some (reader.view std cell)

/-- The read offset after wrapping. -/
theorem StdStream.Represents.wrapped (h : std.Represents fp ring count) :
    (if fp.off2 ≥ fp.bsize then { fp with off2 := 0 } else fp) =
      { fp with off2 := std.cellSize * LazyRing.wrap std.cellCount ring.off2 } := by
  have hoff2 := wrapped_offset std ring.off2
  rw [← h.off2, ← h.bsize] at hoff2
  rw [← hoff2]
  split <;> rfl

/-- The offsets of the stream meet when those of the ring do. -/
theorem StdStream.Represents.empty_iff (h : std.Represents fp ring count) (pos : Nat) :
    fp.off = std.cellSize * pos ↔ ring.off = pos := by
  rw [h.off, Nat.mul_right_inj (cell_size_pos std).ne']

/-- The first byte of a two-byte cell is the character. -/
theorem low_byte_of_half (m : Bytes) (a : Nat) : (m a).toNat = readHalf m a % 2 ^ 8 := by
  have hlt := (m a).isLt
  unfold readHalf
  omega

/-- `std_getc` behind its first check, and `stdgetc_r`. -/
theorem get_cell_eq (h : std.Represents fp ring count) (cell : Bytes → Nat → Nat) :
    getCell cell fp =
      if ring.off = LazyRing.wrap std.cellCount ring.off2 then
        (if std = .stdin then none else some eof,
          { fp with off2 := std.cellSize * LazyRing.wrap std.cellCount ring.off2 })
      else
        (some (if std = .stdin then
            (fp.buffer (std.cellSize * LazyRing.wrap std.cellCount ring.off2)).toNat
          else cell fp.buffer (std.cellSize * LazyRing.wrap std.cellCount ring.off2) : Nat),
          { fp with off2 :=
            (std.cellSize * LazyRing.wrap std.cellCount ring.off2 + std.cellSize) % 2 ^ 32 }) := by
  have hsame : ∀ a b : Nat, (a ≤ b ∧ a ≥ b) ↔ a = b := fun a b => by omega
  rw [getCell, h.wrapped]
  simp only [hsame, h.empty_iff, h.flags, eq_comm (b := fp.off)]
  cases std <;> simp [StdStream.flags, StdStream.cellSize]

/-- `getkey` and `getkeyw` on `stdin`. -/
theorem get_key_eq (h : std.Represents fp ring count) (hstd : std = .stdin) (empty : Option Int) :
    getKey empty fp =
      if ring.off = LazyRing.wrap std.cellCount ring.off2 then
        (empty, { fp with off2 := std.cellSize * LazyRing.wrap std.cellCount ring.off2 })
      else
        (some (fp.buffer (std.cellSize * LazyRing.wrap std.cellCount ring.off2)).toNat,
          { fp with off2 :=
            (std.cellSize * LazyRing.wrap std.cellCount ring.off2 + std.cellSize) % 2 ^ 32 }) := by
  have hsame : ∀ a b : Nat, (a ≤ b ∧ a ≥ b) ↔ a = b := fun a b => by omega
  rw [getKey, h.wrapped]
  simp only [hsame, h.empty_iff, h.flags]
  subst hstd
  simp [StdStream.flags, StdStream.cellSize]

/-- A call that returns the cell at the wrapped offset, or says that there is none, is the read of
the ring. -/
theorem represents_get (h : std.Represents fp ring count) {empty : Option Int} {value : Int}
    (hempty : reader.ReportsNothing empty)
    (hvalue : value = reader.view std
      (std.cellAt fp.buffer (std.cellSize * LazyRing.wrap std.cellCount ring.off2)))
    {r : Option Int × File}
    (hr : r = if ring.off = LazyRing.wrap std.cellCount ring.off2 then
        (empty, { fp with off2 := std.cellSize * LazyRing.wrap std.cellCount ring.off2 })
      else
        (some value, { fp with off2 :=
          (std.cellSize * LazyRing.wrap std.cellCount ring.off2 + std.cellSize) % 2 ^ 32 })) :
    std.Represents r.2 (ring.get std.cellCount).2 count ∧
      reader.Answers std r.1 (ring.get std.cellCount).1 := by
  have hlt : LazyRing.wrap std.cellCount ring.off2 < std.cellCount := by
    rw [LazyRing.wrap]
    split
    · exact cell_count_pos std
    · omega
  rw [hr, LazyRing.get]
  by_cases hmeet : ring.off = LazyRing.wrap std.cellCount ring.off2
  · rw [if_pos hmeet, if_pos hmeet]
    exact ⟨⟨h.flags, h.level, h.bsize, h.off, rfl, h.bound, h.fsize, h.slots⟩, hempty⟩
  · rw [if_neg hmeet, if_neg hmeet]
    refine ⟨⟨h.flags, h.level, h.bsize, h.off, ?_, h.bound, h.fsize, h.slots⟩, ?_⟩
    · have hfit : std.cellSize * (LazyRing.wrap std.cellCount ring.off2 + 1) ≤ bufsiz := by
        rw [← cell_size_count std]
        exact Nat.mul_le_mul_left _ hlt
      rw [Nat.mul_succ] at hfit ⊢
      simp only [bufsiz] at hfit
      exact Nat.mod_eq_of_lt (by omega)
    · rw [h.slots _ hlt] at hvalue
      exact congrArg some hvalue

/-- A read is the read of the ring. The kernel looks at `fsize` first, which is 0 only before the
first write. -/
theorem reader_read_represents (h : std.Represents fp ring count) (hreads : reader.Reads std)
    (hstart : count = 0 → ring.get std.cellCount = (none, ring)) :
    std.Represents (reader.read fp).2 (ring.get std.cellCount).2 count ∧
      reader.Answers std (reader.read fp).1 (ring.get std.cellCount).1 := by
  cases reader with
  | kernel =>
      by_cases hzero : fp.fsize = 0
      · have hcount : count = 0 := by
          rw [h.fsize] at hzero
          have hsize := (Nat.mul_eq_zero.mp hzero).resolve_left (cell_size_pos std).ne'
          have hpos := cell_count_pos std
          omega
        rw [hstart hcount]
        simp only [StdReader.read, Kernel.stdGetc, hzero, if_true]
        exact ⟨h, .inr (.inl rfl)⟩
      · simp only [StdReader.read, Kernel.stdGetc, hzero, if_false]
        refine represents_get h ?_ ?_ (get_cell_eq h readHalf)
        · cases std
          · exact .inl rfl
          · exact .inr (.inl rfl)
        · cases std <;> rfl
  | user =>
      refine represents_get h ?_ ?_ (get_cell_eq h fun m a => (m a).toNat)
      · cases std
        · exact .inl rfl
        · exact .inr (.inl rfl)
      · cases std
        · rfl
        · exact congrArg Nat.cast (low_byte_of_half _ _)
  | getkey =>
      obtain rfl : std = .stdin := hreads
      exact represents_get h (.inr (.inr ⟨rfl, rfl⟩)) rfl (get_key_eq h rfl (some 0))
  | getkeyw =>
      obtain rfl : std = .stdin := hreads
      exact represents_get h (.inl rfl) rfl (get_key_eq h rfl none)

/-! ### One call -/

theorem view_nonneg (reader : StdReader) (std : StdStream) (cell : Nat) :
    0 ≤ reader.view std cell := by
  cases reader <;> cases std <;> exact Int.natCast_nonneg _

/-- A value read from a cell does not say that there is nothing to read, unless `getkey` returns
0. -/
theorem not_reports_nothing {cell : Nat} (hkey : reader = .getkey → reader.view std cell ≠ 0) :
    ¬ reader.ReportsNothing (some (reader.view std cell)) := by
  have hpos := view_nonneg reader std cell
  rintro (hnone | heof | ⟨hreader, hzero⟩)
  · cases hnone
  · rw [Option.some.inj heof, eof] at hpos
    exact absurd hpos (by decide)
  · exact hkey hreader (Option.some.inj hzero)

theorem console_inv_opened (std : StdStream) (heap : Bytes) :
    ConsoleInv std (Console.opened std heap)
      ⟨fun k => std.cellAt (stdOpenFile std.flags heap).buffer (std.cellSize * k), 0, 0⟩ where
  represents := ⟨rfl, rfl, rfl, rfl, rfl, Nat.zero_le _, by
    rw [Console.opened, List.length_nil, Nat.zero_min]
    rfl, fun _ _ => rfl⟩
  queue := LazyRing.Queue.empty (cell_count_pos std) _
  order := ⟨le_rfl, fun k reader r hk => by simp [Console.opened] at hk⟩

/-- The ring before the first write. -/
theorem ConsoleInv.get_start (h : ConsoleInv std s ring) (hcount : s.written.length = 0) :
    ring.get std.cellCount = (none, ring) := by
  have hle := h.queue.le
  refine h.queue.get_empty (fun hend => ?_) (by omega)
  have hoff := h.queue.off
  rw [hcount, hend.2] at hoff
  exact absurd hoff (cell_count_pos std).ne'

/-- A write keeps the invariant. -/
theorem console_write_inv (h : ConsoleInv std s ring) (writer : StdWriter) (c : BitVec 32)
    (hroom : s.Allowed std (.write writer c)) :
    ConsoleInv std (s.call std (.write writer c)) (ring.put std.cellCount (std.cell writer c)) := by
  have hnew : s.written.length + 1 < s.delivered.length + std.cellCount := by
    simp only [Console.Allowed, ← cell_size_count std] at hroom
    have hlt := Nat.lt_of_mul_lt_mul_left hroom
    omega
  have hcell : std.cell writer c = std.pick (writer.half c) (c.setWidth 8) := by
    cases std <;> rfl
  have hwrite : (writer.write c s.fp).2 = putCell (writer.half c) (c.setWidth 8) s.fp := by
    cases writer <;> rfl
  refine ⟨?_, h.queue.put hnew _, ?_⟩
  · show std.Represents (writer.write c s.fp).2 _ (s.written ++ [std.cell writer c]).length
    rw [hwrite, hcell, List.length_append, List.length_singleton]
    exact put_cell_represents h.represents _ _ h.queue.off
  · obtain ⟨hle, horder⟩ := h.order
    refine ⟨?_, fun k reader r hk => ?_⟩
    · show s.delivered.length ≤ (s.written ++ [std.cell writer c]).length
      rw [List.length_append]
      exact Nat.le_add_right_of_le hle
    · obtain ⟨cell, hcell, hr⟩ := horder k reader r hk
      obtain ⟨hlt, -⟩ := List.getElem?_eq_some_iff.mp hcell
      exact ⟨cell, (List.getElem?_append_left hlt).trans hcell, hr⟩

/-- A read that can go right keeps the invariant and does what the law says. -/
theorem console_read_inv (h : ConsoleInv std s ring) (reader : StdReader)
    (hreads : reader.Reads std)
    (havoids : s.Avoids std (.read reader)) :
    ConsoleInv std (s.call std (.read reader)) (ring.get std.cellCount).2 ∧
      s.ReadsInOrder std reader := by
  obtain ⟨hnotEnd, hkey⟩ := havoids
  have hend : ¬ ring.AtEnd std.cellCount := by rwa [← h.represents.at_end_iff]
  obtain ⟨hnext, hanswers⟩ := reader_read_represents h.represents hreads h.get_start
  have hle := h.queue.le
  rcases Nat.eq_or_lt_of_le hle with hall | hlt
  · -- nothing is unread: the call says so and the stream stays as it is
    rw [h.queue.get_empty hend hall] at hnext hanswers ⊢
    have hcall : s.call std (.read reader) = { s with fp := (reader.read s.fp).2 } := by
      have hnothing : reader.ReportsNothing (reader.read s.fp).1 := hanswers
      simp only [Console.call, hnothing, if_true, List.append_nil]
    rw [Console.ReadsInOrder, hcall]
    exact ⟨⟨hnext, h.queue, h.order⟩, ⟨fun _ => hall, fun _ => hanswers⟩, h.order⟩
  · -- the next unread cell is read
    obtain ⟨hget, hqueue⟩ := h.queue.get hlt
    have hcell : s.written[s.delivered.length]? = some s.written[s.delivered.length] :=
      List.getElem?_eq_getElem hlt
    rw [hget] at hanswers
    have hvalue : (reader.read s.fp).1 = some (reader.view std s.written[s.delivered.length]) :=
      hanswers
    have hsome : ¬ reader.ReportsNothing
        (some (reader.view std s.written[s.delivered.length])) :=
      not_reports_nothing fun hreader => hkey hreader _ hcell
    have hcall : s.call std (.read reader) =
        { s with
          fp := (reader.read s.fp).2
          delivered := s.delivered ++
            [(reader, reader.view std s.written[s.delivered.length])] } := by
      simp only [Console.call, hvalue, hsome, if_false, Option.toList_some, List.map_cons,
        List.map_nil]
    have horder : (s.call std (.read reader)).InOrder std := by
      rw [hcall]
      refine ⟨?_, fun k reader' r hk => ?_⟩
      · show (s.delivered ++ [_]).length ≤ s.written.length
        rw [List.length_append, List.length_singleton]
        exact hlt
      · rcases Nat.lt_or_ge k s.delivered.length with hold | hnew
        · rw [List.getElem?_append_left hold] at hk
          exact h.order.2 k reader' r hk
        · obtain ⟨hbound, hvalue⟩ := List.getElem?_eq_some_iff.mp hk
          rw [List.length_append, List.length_singleton] at hbound
          obtain rfl : k = s.delivered.length := by omega
          rw [List.getElem_concat_length rfl, Prod.mk.injEq] at hvalue
          exact ⟨_, hcell, by rw [← hvalue.1, ← hvalue.2]⟩
    refine ⟨⟨?_, ?_, horder⟩, ⟨fun hnothing => ?_, fun hall => absurd hall hlt.ne⟩, horder⟩
    · rw [hcall]
      exact hnext
    · rw [hcall, List.length_append, List.length_singleton]
      exact hqueue
    · rw [hvalue] at hnothing
      exact absurd hnothing hsome

/-- A read that does what the law says delivers one more value if one is unread. -/
theorem console_read_delivers (hlaw : s.ReadsInOrder std reader)
    (hlt : s.delivered.length < s.written.length) :
    (s.call std (.read reader)).delivered.length = s.delivered.length + 1 := by
  have hsome : ¬ reader.ReportsNothing (reader.read s.fp).1 := fun hnothing =>
    hlt.ne (hlaw.1.mp hnothing)
  obtain ⟨value, hvalue⟩ := Option.ne_none_iff_exists'.mp fun hnone => hsome (.inl hnone)
  rw [hvalue] at hsome
  simp only [Console.call, hvalue, hsome, if_false, List.length_append, Option.toList_some,
    List.length_map, List.length_singleton]

/-- A read of `std_getc`, `stdgetc_r` or `getkeyw` with both offsets at the end of the buffer
returns a character although everything written has been read. -/
theorem console_read_at_end (h : ConsoleInv std s ring) (reader : StdReader)
    (hreads : reader.Reads std) (hreader : reader ≠ .getkey) (hend : AtBufferEnd s.fp) :
    s.delivered.length = s.written.length ∧
      ¬ reader.ReportsNothing (reader.read s.fp).1 := by
  obtain ⟨-, hanswers⟩ := reader_read_represents h.represents hreads h.get_start
  obtain ⟨hall, hget⟩ := h.queue.get_at_end (h.represents.at_end_iff.mp hend)
  rw [hget] at hanswers
  have hvalue : (reader.read s.fp).1 = some (reader.view std (ring.slots 0)) := hanswers
  rw [hvalue]
  exact ⟨hall, not_reports_nothing fun hkey => absurd hkey hreader⟩

/-! ### Runs -/

/-- The invariant holds in every state of a safe run. -/
theorem safe_console_run_inv {heap : Bytes}
    (hrun : SafeConsoleRun std (Console.opened std heap) s) : ∃ ring, ConsoleInv std s ring := by
  refine Run.invariant (fun s => ∃ ring, ConsoleInv std s ring) hrun
    ⟨_, console_inv_opened std heap⟩ fun s call s' h hgood hstep => ?_
  obtain ⟨ring, h⟩ := h
  obtain ⟨hallowed, havoids⟩ := hgood
  rw [hstep]
  cases call with
  | write writer c => exact ⟨_, console_write_inv h writer c hallowed⟩
  | read reader => exact ⟨_, (console_read_inv h reader hallowed havoids).1⟩

/-- A safe run in which `n` characters are each read with `getkeyw` right after they were
written. -/
theorem keys_run (heap : Bytes) (n : Nat) :
    ∃ s, SafeConsoleRun .stdin (Console.opened .stdin heap) s ∧ s.written.length = n ∧
      s.delivered.length = n := by
  induction n with
  | zero => exact ⟨Console.opened .stdin heap, Run.refl, rfl, rfl⟩
  | succ n ih =>
      obtain ⟨s, hrun, hwritten, hdelivered⟩ := ih
      have hroom : s.Allowed .stdin (.write .kernel 65#32) := by
        simp [Console.Allowed, hwritten, hdelivered, StdStream.cellSize, bufsiz]
      have hwrite := hrun.snoc (.write .kernel 65#32) ⟨hroom, trivial⟩ rfl
      generalize hafter : s.call .stdin (.write .kernel 65#32) = after at hwrite
      have hlength : after.written.length = n + 1 := by
        simp [← hafter, Console.call, hwritten]
      have hpending : after.delivered.length = n := by
        rw [← hafter, ← hdelivered]
        rfl
      obtain ⟨ring, h⟩ := safe_console_run_inv hwrite
      have hend : ¬ AtBufferEnd after.fp := fun hend => by
        have hall := (console_read_at_end h .getkeyw rfl StdReader.noConfusion hend).1
        omega
      have havoids : after.Avoids .stdin (.read .getkeyw) :=
        ⟨hend, fun hkey => StdReader.noConfusion hkey⟩
      refine ⟨_, hwrite.snoc (.read .getkeyw) ⟨rfl, havoids⟩ rfl, hlength, ?_⟩
      have hlaw := (console_read_inv h .getkeyw rfl havoids).2
      rw [console_read_delivers hlaw (by omega), hpending]

end Sirius.Stdio
