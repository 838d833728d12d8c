import Sirius.Library.Bytes

/-!
# Loading a program

`load_elf64_header` and `load_elf64_segment` of `kernel/file/elf.c`, and the address space that
`exectve` makes for a program. The header function computes where the program ends from the section
headers, `exectve` maps pages up to this end and the room for the arguments and the stack behind it,
clears them and has the sections copied to their addresses.
-/

namespace Sirius.Exec

open Library

/-- The fields of `Elf64_Shdr` that the loader reads. -/
structure Section where
  type : Nat
  addr : Nat
  offset : Nat
  size : Nat
  deriving DecidableEq

/-- `program_header_t` -/
structure ProgramHeader where
  start : Nat
  endAddr : Nat
  entry : Nat
  stack : Nat
  deriving DecidableEq

/-- The little-endian 64-bit word at address `a`. -/
def readLong (m : Bytes) (a : Nat) : Nat := readWord m a + 2 ^ 32 * readWord m (a + 4)

/-- Store a 64-bit word. -/
def writeLong (m : Bytes) (a v : Nat) : Bytes :=
  writeWord (writeWord m a (v % 2 ^ 32)) (a + 4) (v / 2 ^ 32)

/-- `SHT_PROGBITS`: the section has its contents in the file. -/
def shtProgbits : Nat := 1

/-- `SHT_NOBITS`: the section has no contents in the file. -/
def shtNobits : Nat := 8

/-- `header->e_shnum` -/
def shNum (bf : Bytes) : Nat := readHalf bf 60

/-- The section header `i` of the file `bf`. Pointers wrap around at 64 bits. -/
def sectionAt (bf : Bytes) (i : Nat) : Section :=
  let sections := readLong bf 40 + 64 * i
  { type := readWord bf ((sections + 4) % 2 ^ 64)
    addr := readLong bf ((sections + 16) % 2 ^ 64)
    offset := readLong bf ((sections + 24) % 2 ^ 64)
    size := readLong bf ((sections + 32) % 2 ^ 64) }

/-- The section is loaded: it has an address and contents. -/
def Section.loaded (s : Section) : Bool := s.addr ≠ 0 ∧ s.type = shtProgbits

/-- The loop of `load_elf64_header` over `n` sections from `i` on. The loop over the bytes of a
section counts with an `unsigned int`: it does not end for a size of `2 ^ 32` or more, which is
`none`. -/
def headerLoop (bf : Bytes) : (n i : Nat) → (endAddr : Nat) → Option Nat
  | 0, _, endAddr => some endAddr
  | n + 1, i, endAddr =>
      let s := sectionAt bf i
      if s.loaded then
        if 2 ^ 32 ≤ s.size then none
        else
          headerLoop bf n (i + 1) (if s.size = 0 then endAddr else (s.addr + s.size) % 2 ^ 64)
      else headerLoop bf n (i + 1) endAddr

/-- `load_elf64_header`: the result and the header, whose stack `exectve` fills in. -/
def loadElf64Header (bf : Bytes) : Option (Nat × ProgramHeader) :=
  let empty : ProgramHeader := ⟨0, 0, 0, 0⟩
  if bf 4 ≠ 2#8 then some (1, empty)
  else if readHalf bf 16 ≠ 2 then some (2, empty)
  else if readHalf bf 18 ≠ 62 then some (3, empty)
  else do
    let endAddr ← headerLoop bf (shNum bf) 0 0
    pure (0, { start := 0x8000000000, endAddr, entry := readLong bf 24, stack := 0 })

/-- The loop of `load_elf64_segment` over `n` bytes of a section from byte `e` on. -/
def copyLoop (bf : Bytes) (s : Section) : (n e : Nat) → Bytes → Bytes
  | 0, _, mem => mem
  | n + 1, e, mem =>
      copyLoop bf s n (e + 1)
        (Function.update mem ((s.addr + e) % 2 ^ 64) (bf ((s.offset + e) % 2 ^ 64)))

/-- The loop of `load_elf64_segment` over `n` sections from `i` on. The file lies in the memory of
the kernel, below all programs. -/
def segmentLoop (bf : Bytes) : (n i : Nat) → Bytes → Option Bytes
  | 0, _, mem => some mem
  | n + 1, i, mem =>
      let s := sectionAt bf i
      if s.loaded then
        if 2 ^ 32 ≤ s.size then none
        else segmentLoop bf n (i + 1) (copyLoop bf s s.size 0 mem)
      else segmentLoop bf n (i + 1) mem

/-- `load_elf64_segment`: the memory after it. -/
def loadElf64Segment (bf mem : Bytes) : Option Bytes := segmentLoop bf (shNum bf) 0 mem

/-! ### The address space -/

/-- `APP_STAK_SIZE` -/
def appStakSize : Nat := 0x1000 * 32

/-- `APP_ARG_SIZE` -/
def appArgSize : Nat := 0x1000 * 16

/-- `phdr.stack = phdr.end + APP_STAK_SIZE + APP_ARG_SIZE` -/
def ProgramHeader.withStack (phdr : ProgramHeader) : ProgramHeader :=
  { phdr with stack := (phdr.endAddr + appStakSize + appArgSize) % 2 ^ 64 }

@[simp] theorem ProgramHeader.with_stack_start (phdr : ProgramHeader) :
    phdr.withStack.start = phdr.start := by
  cases phdr
  rfl

@[simp] theorem ProgramHeader.with_stack_end (phdr : ProgramHeader) :
    phdr.withStack.endAddr = phdr.endAddr := by
  cases phdr
  rfl

@[simp] theorem ProgramHeader.with_stack_stack (phdr : ProgramHeader) :
    phdr.withStack.stack = (phdr.withStack.endAddr + appStakSize + appArgSize) % 2 ^ 64 := by
  cases phdr
  rfl

/-- `int physize = (phdr.stack - phdr.start)` -/
def ProgramHeader.physize (phdr : ProgramHeader) : Int :=
  (BitVec.ofNat 32 (phdr.stack + (2 ^ 64 - phdr.start))).toInt

/-- `pagesize`: the number of pages. -/
def ProgramHeader.pagesize (phdr : ProgramHeader) : Int :=
  phdr.physize.tdiv 0x1000 + if phdr.physize.tmod 0x1000 ≠ 0 then 1 else 0

/-- `tbs`: the number of page tables. -/
def ProgramHeader.tbs (phdr : ProgramHeader) : Int :=
  phdr.pagesize.tdiv 512 + if phdr.pagesize.tmod 512 ≠ 0 then 1 else 0

/-- A page of the program is mapped to the address. The one page directory has room for 512 page
tables; with more of them the loop of `exectve` writes behind it. -/
def ProgramHeader.Mapped (phdr : ProgramHeader) (a : Nat) : Prop :=
  phdr.start ≤ a ∧ ((a - phdr.start) / 0x1000 : Nat) < phdr.pagesize ∧ phdr.tbs ≤ 512

/-- The memory of the program when `exectve` has cleared the pages, whose frames hold `frames`, and
has loaded the file. -/
def programMemory (bf frames : Bytes) (phdr : ProgramHeader) : Option Bytes :=
  let count := (phdr.pagesize * 0x1000 % 2 ^ 32).toNat
  loadElf64Segment bf (fillBytes frames 0x8000000000 count 0#8)

/-- `_pwd`, where `exectve` puts the working directory. -/
def ProgramHeader.pwd (phdr : ProgramHeader) : Nat := phdr.endAddr

/-- `arg`, the array of pointers to the arguments. -/
def ProgramHeader.arg (phdr : ProgramHeader) : Nat := phdr.endAddr + 0x1000

/-- `arg[i]`, where the argument `i` is put. -/
def ProgramHeader.argAt (phdr : ProgramHeader) (i : Nat) : Nat := phdr.endAddr + 0x2000 + i * 256

/-- The argument block has room for the working directory, the pointers and 128 arguments. -/
theorem argument_block_inside (phdr : ProgramHeader) {i : Nat} (hi : i < 128) :
    phdr.pwd + 0x1000 ≤ phdr.arg ∧ phdr.arg + 8 * 128 ≤ phdr.argAt 0 ∧
      phdr.argAt i + 256 ≤ phdr.endAddr + appArgSize := by
  simp only [ProgramHeader.pwd, ProgramHeader.arg, ProgramHeader.argAt, appArgSize]
  omega

end Sirius.Exec
