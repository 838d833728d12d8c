import Sirius.Library.Bytes

/-!
# The page allocator

`alloc_pages` and `free_pages` of `kernel/mm.c`. Virtual pages are accounted for in `PAGE_BITMAP`,
which holds two bits for each page, four pages to a byte: 01 for the first page of a block, 11 for
its other pages and 00 for a free page. The length of a block is not stored anywhere; `free_pages`
finds it by scanning the marks up to the next head or free page. Physical frames are accounted for
in `RAM_BITMAP`, one bit for each frame, and the page table entries in `alloc_pte` connect the two.
-/

namespace Sirius.Memory

open Library

/-- The fields of `pae_page_table_t` that the allocator writes. -/
structure PageTableEntry where
  p : Bool
  rw : Bool
  us : Bool
  frames : Nat
  deriving DecidableEq, Repr

/-- The globals of `mm.c`: the two bitmaps, the page table entries of the allocation window and
the lock. -/
structure Mm where
  ramBitmap : Bytes
  pageBitmap : Bytes
  allocPte : Nat → PageTableEntry
  allocSpinLock : Nat

/-- `ALLOC_PAGE_MEMORY`: the virtual address of the first page. -/
def allocPageMemory : Nat := 0x100000000

/-- The number of page table entries that `alloc_pages_setup` creates. -/
def pteCount : Nat := 512 * 512

/-- `ram_setup`: the first 128 MiB are reserved, the frames up to 512 MiB are free. The rest of
the bitmap is left as it is. -/
def ramSetup (s : Mm) : Mm :=
  let len := 128 * 1024 / 4 / 8
  let ram := fillBytes s.ramBitmap 0 len 0xff#8
  { s with ramBitmap := fillBytes ram len ((512 - 128) * 1024 / 4 / 8) 0#8 }

/-- `alloc_pages_setup`: no page is allocated and no entry is present. -/
def allocPagesSetup (s : Mm) : Mm :=
  { s with
    allocSpinLock := 0
    pageBitmap := fillBytes s.pageBitmap 0 0x2000000 0#8
    allocPte := fun i =>
      if i < pteCount then { p := false, rw := true, us := false, frames := 0 }
      else s.allocPte i }

/-! ### Frames -/

/-- Inner loop of `alloc_frame`: the first clear bit of a byte, from bit `8 - n` on. -/
def clearBit (b : Byte) : (n : Nat) → Option Nat
  | 0 => none
  | n + 1 => if (b >>> (7 - n)) &&& 1#8 = 0#8 then some (7 - n) else clearBit b n

/-- Outer loop of `alloc_frame`: the byte and the bit of the first free frame from byte `i` on. -/
def searchFrame (ram : Bytes) : (n i : Nat) → Option (Nat × Nat)
  | 0, _ => none
  | n + 1, i =>
      match clearBit (ram i) 8 with
      | some t => some (i, t)
      | none => searchFrame ram n (i + 1)

/-- `alloc_frame`: the address of a frame, or 0 when the bitmap has none left. -/
def allocFrame (s : Mm) : Nat × Mm :=
  let limit := 512 * 1024 / 4
  match searchFrame s.ramBitmap (limit - 4096) 4096 with
  | some (i, t) =>
      ((i * 8 + t) * 0x1000 % 2 ^ 32,
        { s with ramBitmap := Function.update s.ramBitmap i (s.ramBitmap i ||| (1#8 <<< t)) })
  | none => (0, s)

/-- `free_frame`. Frames below 128 MiB are never released. -/
def freeFrame (s : Mm) (addr : Nat) : Nat × Mm :=
  if addr = 0 ∨ addr < 0x8000000 then (0, s)
  else
    let block := addr / 0x1000 % 2 ^ 32
    let byte := block / 8
    let bit := block % 8
    (byte ||| (bit <<< 24),
      { s with ramBitmap :=
          Function.update s.ramBitmap byte (s.ramBitmap byte &&& ~~~(1#8 <<< bit)) })

/-! ### Marks

The loops over `PAGE_BITMAP` move over the marks with a byte pointer and a bit offset in
`0, 2, 4, 6`. -/

/-- The mark after the one at byte `p`, bit `x`. -/
def nextMark (pos : Nat × Nat) : Nat × Nat :=
  if pos.2 + 2 < 8 then (pos.1, pos.2 + 2) else (pos.1 + 1, 0)

/-- The loop of `linear`, with `a` marks found free so far. -/
def linearLoop (bitmap : Bytes) : (n : Nat) → (pos : Nat × Nat) → (a : Nat) → Nat
  | 0, _, a => a
  | n + 1, pos, a =>
      if bitmap pos.1 &&& (1#8 <<< pos.2) = 0#8 then linearLoop bitmap n (nextMark pos) (a + 1)
      else 0

/-- `linear`: `len` if the `len` pages from `pos` on are free, and 0 otherwise. A length from
`2^31` on is negative as the `int` parameter, and the loop does not run. -/
def linear (bitmap : Bytes) (pos : Nat × Nat) (len : Nat) : Nat :=
  if len < 2 ^ 31 then linearLoop bitmap len pos 0 else 0

/-- `masked`: the head mark on the first page, the continuation mark on the others. -/
def masked : (n : Nat) → (pos : Nat × Nat) → (a : Bool) → Bytes → Bytes
  | 0, _, _, bitmap => bitmap
  | n + 1, pos, a, bitmap =>
      masked n (nextMark pos) true
        (Function.update bitmap pos.1
          (bitmap pos.1 ||| ((if a then 3#8 else 1#8) <<< pos.2)))

/-- `umasked`: the free mark on every page. -/
def umasked : (n : Nat) → (pos : Nat × Nat) → Bytes → Bytes
  | 0, _, bitmap => bitmap
  | n + 1, pos, bitmap =>
      umasked n (nextMark pos)
        (Function.update bitmap pos.1 (bitmap pos.1 &&& ~~~(3#8 <<< pos.2)))

/-- The loop of `get_free_page`, at page `a`. `none` is the endless loop after the last page. -/
def getFreePageLoop (bitmap : Bytes) (len : Nat) :
    (n : Nat) → (pos : Nat × Nat) → (a : Nat) → Option (Nat × Bytes)
  | 0, _, _ => none
  | n + 1, pos, a =>
      if bitmap pos.1 &&& (1#8 <<< pos.2) = 0#8 ∧ len = linear bitmap pos len then
        some (a, masked len pos false bitmap)
      else getFreePageLoop bitmap len n (nextMark pos) (a + 1)

/-- The number of marks in `PAGE_BITMAP`. -/
def markCount : Nat := 4 * (268435456 / 8)

/-- `get_free_page`: the first page of the first free run of `len` pages, which it marks. -/
def getFreePage (bitmap : Bytes) (len : Nat) : Option (Nat × Bytes) :=
  getFreePageLoop bitmap len markCount (0, 0) 0

/-- The loop of `get_busy_page_size`. `none` is a scan that leaves the bitmap. -/
def getBusyPageSizeLoop (bitmap : Bytes) :
    (n : Nat) → (pos : Nat × Nat) → (sim : Bool) → (a : Nat) → Option Nat
  | 0, _, _, _ => none
  | n + 1, pos, sim, a =>
      if bitmap pos.1 &&& (3#8 <<< pos.2) = 1#8 <<< pos.2 ∨
          bitmap pos.1 &&& (3#8 <<< pos.2) = 0#8 then
        if sim then some a else getBusyPageSizeLoop bitmap n (nextMark pos) true (a + 1)
      else getBusyPageSizeLoop bitmap n (nextMark pos) sim (a + 1)

/-- `get_busy_page_size`: the number of pages up to the next head or free page. -/
def getBusyPageSize (bitmap : Bytes) (index : Nat) : Option Nat :=
  getBusyPageSizeLoop bitmap (markCount - index) (index / 4, index % 4 * 2) false 0

/-! ### Blocks -/

/-- The loop of `alloc_pages`: a frame for each of `n` entries from `page` on. `none` is the
endless loop when the frames run out. -/
def allocPagesLoop (type : Nat) : (n page : Nat) → Mm → Option Mm
  | 0, _, s => some s
  | n + 1, page, s =>
      let (frame, s) := allocFrame s
      if frame = 0 then none
      else
        let pte := { s.allocPte page with
          p := true
          us := if type ≠ 0 then true else (s.allocPte page).us
          frames := ((frame >>> 12) &&& 0xffffffffffff) % 2 ^ 40 }
        allocPagesLoop type n (page + 1)
          { s with allocPte := Function.update s.allocPte page pte }

/-- `alloc_pages`: the length granted, the value of `*addr` and the new state. `none` if the call
never returns. -/
def allocPages (type len addr : Nat) (s : Mm) : Option (Nat × Nat × Mm) :=
  if len = 0 then some (0, addr, s)
  else if s.allocSpinLock ≠ 0 then none
  else do
    let (index, bitmap) ← getFreePage s.pageBitmap len
    let s ← allocPagesLoop type len index { s with pageBitmap := bitmap, allocSpinLock := 1 }
    pure (len, allocPageMemory + index * 0x1000, { s with allocSpinLock := 0 })

/-- The loop of `free_pages` over `n` entries from `page` on. -/
def freePagesLoop : (n page : Nat) → Mm → Mm
  | 0, _, s => s
  | n + 1, page, s =>
      let (_, s) := freeFrame s ((s.allocPte page).frames <<< 12 % 2 ^ 40)
      let pte := { s.allocPte page with p := false, us := false, frames := 0 }
      freePagesLoop n (page + 1) { s with allocPte := Function.update s.allocPte page pte }

/-- `free_pages`. `none` if the scan for the length of the block leaves the bitmap. -/
def freePages (addr : Nat) (s : Mm) : Option Mm :=
  if addr = 0 then some s
  else do
    let index := (addr + 2 ^ 64 - allocPageMemory) % 2 ^ 64 / 0x1000 % 2 ^ 32
    let len ← getBusyPageSize s.pageBitmap index
    pure (freePagesLoop len index
      { s with pageBitmap := umasked len (index / 4, index % 4 * 2) s.pageBitmap })

end Sirius.Memory
