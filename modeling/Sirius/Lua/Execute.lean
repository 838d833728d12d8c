import Mathlib.Data.List.DropRight
import Mathlib.Tactic
import Sirius.Lua.Hash

/-!
# The byte code machine

`lua_execute` of `opcode.c` with the debug flag off. A call leaves the code address to return to in
the slot of the function and the old base in the mark behind it. The stack is the list of its slots
from the bottom; operands that are marks, which no compiled code has, are not followed. What the
collection of garbage does is left out, so no table of strings or arrays gets full.
-/

namespace Sirius.Lua

open Library

/-- `MAXSTACK` -/
def MAXSTACK : Nat := 256

/-- `STACKGAP` -/
def STACKGAP : Nat := 128

/-- `OpCode`. `PUSH` is `PUSH0` to `PUSH2`, `PUSHLOCALk` and `STORELOCALk` are the ten short forms
for the first locals. -/
inductive OpCode
  | NOP | PUSHNIL | PUSH (k : Fin 3) | PUSHBYTE | PUSHWORD | PUSHFLOAT | PUSHSTRING
  | PUSHLOCALk (k : Fin 10) | PUSHLOCAL | PUSHGLOBAL | PUSHINDEXED | PUSHMARK | PUSHOBJECT
  | STORELOCALk (k : Fin 10) | STORELOCAL | STOREGLOBAL | STOREINDEXED0 | STOREINDEXED | STOREFIELD
  | ADJUST | CREATEARRAY | EQOP | LTOP | LEOP | ADDOP | SUBOP | MULTOP | DIVOP | CONCOP | MINUSOP
  | NOTOP | ONTJMP | ONFJMP | JMP | UPJMP | IFFJMP | IFFUPJMP | POP | CALLFUNC | RETCODE | HALT
  | SETFUNCTION | SETLINE | RESET
  deriving DecidableEq

/-- The value of the code in the enumeration. -/
def OpCode.num : OpCode → Nat
  | .NOP => 0 | .PUSHNIL => 1 | .PUSH k => 2 + k | .PUSHBYTE => 5 | .PUSHWORD => 6
  | .PUSHFLOAT => 7 | .PUSHSTRING => 8 | .PUSHLOCALk k => 9 + k | .PUSHLOCAL => 19
  | .PUSHGLOBAL => 20 | .PUSHINDEXED => 21 | .PUSHMARK => 22 | .PUSHOBJECT => 23
  | .STORELOCALk k => 24 + k | .STORELOCAL => 34 | .STOREGLOBAL => 35 | .STOREINDEXED0 => 36
  | .STOREINDEXED => 37 | .STOREFIELD => 38 | .ADJUST => 39 | .CREATEARRAY => 40 | .EQOP => 41
  | .LTOP => 42 | .LEOP => 43 | .ADDOP => 44 | .SUBOP => 45 | .MULTOP => 46 | .DIVOP => 47
  | .CONCOP => 48 | .MINUSOP => 49 | .NOTOP => 50 | .ONTJMP => 51 | .ONFJMP => 52 | .JMP => 53
  | .UPJMP => 54 | .IFFJMP => 55 | .IFFUPJMP => 56 | .POP => 57 | .CALLFUNC => 58 | .RETCODE => 59
  | .HALT => 60 | .SETFUNCTION => 61 | .SETLINE => 62 | .RESET => 63

open OpCode in
/-- The codes in the order of the enumeration. -/
def opCodes : List OpCode :=
  List.flatten [
    [NOP, PUSHNIL, PUSH 0, PUSH 1, PUSH 2, PUSHBYTE, PUSHWORD, PUSHFLOAT, PUSHSTRING],
    (List.finRange 10).map PUSHLOCALk,
    [PUSHLOCAL, PUSHGLOBAL, PUSHINDEXED, PUSHMARK, PUSHOBJECT],
    (List.finRange 10).map STORELOCALk,
    [STORELOCAL, STOREGLOBAL, STOREINDEXED0, STOREINDEXED, STOREFIELD, ADJUST, CREATEARRAY, EQOP,
      LTOP, LEOP, ADDOP, SUBOP, MULTOP, DIVOP, CONCOP, MINUSOP, NOTOP, ONTJMP, ONFJMP, JMP, UPJMP,
      IFFJMP, IFFUPJMP, POP, CALLFUNC, RETCODE, HALT, SETFUNCTION, SETLINE, RESET]]

/-- `PUSH0`, the first of the codes that push a small number. -/
def OpCode.PUSH0 : OpCode := .PUSH 0

/-- The code of a byte. -/
def OpCode.ofByte (b : Byte) : Option OpCode := opCodes[b.toNat]?

/-- The byte of a code. -/
def OpCode.byte (op : OpCode) : Byte := BitVec.ofNat 8 op.num

theorem of_byte_byte (op : OpCode) : OpCode.ofByte op.byte = some op := by
  cases op with
  | PUSH k => fin_cases k <;> rfl
  | PUSHLOCALk k => fin_cases k <;> rfl
  | STORELOCALk k => fin_cases k <;> rfl
  | _ => rfl

/-- The code of every function and of the main program, and `lua_constant`. -/
structure Image where
  code : Nat → Bytes
  constants : List Text

/-- The C functions that a program can call: what they push for their parameters. -/
structure Host (ν κ : Type) where
  cfunction : κ → List (Object ν κ) → Store ν κ → List (Object ν κ) × Store ν κ

/-- The registers, the stack and the store. -/
structure Machine (ν κ : Type) where
  pc : Addr
  stack : List (Slot ν κ)
  base : Nat
  store : Store ν κ

variable {ν κ : Type}

/-- `top` goes down to an object. -/
def pop (stack : List (Slot ν κ)) : Outcome (List (Slot ν κ) × Object ν κ) :=
  match stack.getLast? with
  | some (.object v) => .ok (stack.dropLast, v)
  | _ => .unknown

/-- The object at a place of the stack. -/
def objectAt (stack : List (Slot ν κ)) (i : Nat) : Outcome (Object ν κ) :=
  match stack[i]? with
  | some (.object v) => .ok v
  | _ => .unknown

/-- `tag(o) != T_MARK` -/
def Slot.isObject : Slot ν κ → Bool
  | .mark _ => false
  | .object _ => true

/-- The objects of some slots. -/
def objects : List (Slot ν κ) → List (Object ν κ)
  | [] => []
  | .object v :: slots => v :: objects slots
  | .mark _ :: slots => objects slots

/-- The stack after `ADJUST` to a top. -/
def adjustStack (stack : List (Slot ν κ)) (newtop : Nat) : List (Slot ν κ) :=
  (stack ++ List.replicate (newtop - stack.length) (Slot.object (.nil none))).take newtop

namespace Machine

/-- The machine behind an instruction of `n` bytes. -/
def next (m : Machine ν κ) (n : Nat) (stack : List (Slot ν κ)) (store : Store ν κ) : Machine ν κ :=
  { m with pc := ⟨m.pc.unit, m.pc.off + n⟩, stack, store }

/-- The machine behind an instruction of `n` bytes that pushes an object. -/
def push (m : Machine ν κ) (n : Nat) (v : Object ν κ) : Machine ν κ :=
  m.next n (m.stack ++ [.object v]) m.store

/-- The machine that goes on at an offset. -/
def jump (m : Machine ν κ) (off : Nat) (stack : List (Slot ν κ)) : Machine ν κ :=
  { m with pc := ⟨m.pc.unit, off⟩, stack }

/-- An instruction without operands that replaces the two objects on the top. -/
def binary (m : Machine ν κ) (f : Object ν κ → Object ν κ → Outcome (Object ν κ)) :
    Outcome (Machine ν κ) := do
  let (stack, r) ← pop m.stack
  let (stack, l) ← pop stack
  let v ← f l r
  .ok (m.next 1 (stack ++ [.object v]) m.store)

/-- An instruction without operands that replaces the object on the top. -/
def unary (m : Machine ν κ) (f : Object ν κ → Outcome (Object ν κ × Store ν κ)) :
    Outcome (Machine ν κ) := do
  let (stack, o) ← pop m.stack
  let (v, store) ← f o
  .ok (m.next 1 (stack ++ [.object v]) store)

/-- `PUSHLOCALk`, `PUSHLOCAL` -/
def pushLocal (m : Machine ν κ) (n i : Nat) : Outcome (Machine ν κ) := do
  let v ← objectAt m.stack (m.base + i)
  .ok (m.push n v)

/-- `STORELOCALk`, `STORELOCAL` -/
def storeLocal (m : Machine ν κ) (n i : Nat) : Outcome (Machine ν κ) := do
  let (stack, v) ← pop m.stack
  .ok (m.next n (stack.set (m.base + i) (.object v)) m.store)

/-- `ONTJMP`, `ONFJMP`: a jump if the object on the top, which stays, is nil or is not. -/
def onJump (m : Machine ν κ) (nil : Bool) (n : Nat) : Outcome (Machine ν κ) := do
  let (_, v) ← pop m.stack
  .ok (m.jump (if v.isNil = nil then m.pc.off + 3 + n else m.pc.off + 3) m.stack)

/-- `IFFJMP`, `IFFUPJMP`: a jump to an offset if the object on the top, which goes, is nil. -/
def ifJump (m : Machine ν κ) (target : Nat) : Outcome (Machine ν κ) := do
  let (stack, v) ← pop m.stack
  .ok (m.jump (if v.isNil then target else m.pc.off + 3) stack)

/-- `CALLFUNC` -/
def callFunc (host : Host ν κ) (m : Machine ν κ) : Next (Machine ν κ) :=
  -- behind the last mark
  let top := (m.stack.rdropWhile Slot.isObject).length
  if top < 2 then .unknown
  else match m.stack[top - 2]? with
    | some (.object (.function b)) =>
        if MAXSTACK - top < STACKGAP then .overflow
        else
          let back : Addr := ⟨m.pc.unit, m.pc.off + 1⟩
          let stack := (m.stack.set (top - 2) (.object (.function back))).set (top - 1)
            (.mark (some m.base))
          .go { m with pc := b, stack, base := top }
    | some (.object (.cfunction f)) =>
        let (values, store) := host.cfunction f (objects (m.stack.drop top)) m.store
        .go (m.next 1 (m.stack.take (top - 2) ++ values.map .object) store)
    | some (.object _) => .fail
    | _ => .unknown

/-- `RETCODE` -/
def retCode (m : Machine ν κ) (shift : Nat) : Outcome (Machine ν κ) :=
  if m.base < 2 then .unknown
  else match m.stack[m.base - 2]?, m.stack[m.base - 1]? with
    | some (.object (.function back)), some (.mark (some base)) =>
        .ok { m with
          pc := back, stack := m.stack.take (m.base - 2) ++ m.stack.drop (m.base + shift), base }
    | _, _ => .unknown

end Machine

open Machine

variable [Runtime ν] [DecidableEq κ]

/-- A case of the loop of `lua_execute`. -/
def execute (host : Host ν κ) (image : Image) (op : OpCode) (m : Machine ν κ) :
    Next (Machine ν κ) :=
  let code := image.code m.pc.unit
  let byte := (code (m.pc.off + 1)).toNat
  let word := readHalf code (m.pc.off + 1)
  match op with
  | .NOP => .go (m.next 1 m.stack m.store)
  | .PUSHNIL => .go (m.push 1 (.nil none))
  | .PUSH k => .go (m.push 1 (.number (some (Runtime.ofInt k))))
  | .PUSHBYTE => .go (m.push 2 (.number (some (Runtime.ofInt byte))))
  | .PUSHWORD => .go (m.push 3 (.number (some (Runtime.ofInt word))))
  | .PUSHFLOAT =>
      .go (m.push 5 (.number (some (Runtime.ofBytes fun i => code (m.pc.off + 1 + i)))))
  | .PUSHSTRING => match image.constants[word]? with
    | some s => .go (m.push 3 (.string s))
    | none => .unknown
  | .PUSHLOCALk k => .ofOutcome (m.pushLocal 1 k)
  | .PUSHLOCAL => .ofOutcome (m.pushLocal 2 byte)
  | .PUSHGLOBAL => .go (m.push 3 (m.store.globals (BitVec.ofNat 16 word)))
  | .PUSHINDEXED => .ofOutcome do
      let (stack, ref) ← pop m.stack
      let (stack, o) ← pop stack
      let (v, store) ← m.store.index o ref
      .ok (m.next 1 (stack ++ [.object v]) store)
  | .PUSHMARK => .go (m.next 1 (m.stack ++ [.mark none]) m.store)
  | .PUSHOBJECT => .ofOutcome do
      let v ← objectAt m.stack (m.stack.length - 3)
      .ok (m.push 1 v)
  | .STORELOCALk k => .ofOutcome (m.storeLocal 1 k)
  | .STORELOCAL => .ofOutcome (m.storeLocal 2 byte)
  | .STOREGLOBAL => .ofOutcome do
      let (stack, v) ← pop m.stack
      .ok (m.next 3 stack (m.store.setGlobal (BitVec.ofNat 16 word) v))
  | .STOREINDEXED0 => .ofOutcome do
      let (stack, v) ← pop m.stack
      let (stack, ref) ← pop stack
      let (stack, o) ← pop stack
      let store ← m.store.storeIndexed o ref v
      .ok (m.next 1 stack store)
  | .STOREINDEXED => .ofOutcome do
      let (stack, v) ← pop m.stack
      let o ← objectAt m.stack (m.stack.length - 3 - byte)
      let ref ← objectAt m.stack (m.stack.length - 2 - byte)
      let store ← m.store.storeIndexed o ref v
      .ok (m.next 2 stack store)
  | .STOREFIELD => .ofOutcome do
      let (stack, v) ← pop m.stack
      let (stack, ref) ← pop stack
      let (_, o) ← pop stack
      let store ← m.store.storeField o ref v
      .ok (m.next 1 stack store)
  | .ADJUST => .go (m.next 2 (adjustStack m.stack (m.base + byte)) m.store)
  | .CREATEARRAY => .ofOutcome (m.unary m.store.createArray)
  | .EQOP => .ofOutcome (m.binary eqop)
  | .LTOP => .ofOutcome (m.binary ltop)
  | .LEOP => .ofOutcome (m.binary leop)
  | .ADDOP => .ofOutcome (m.binary (arith Runtime.add))
  | .SUBOP => .ofOutcome (m.binary (arith Runtime.sub))
  | .MULTOP => .ofOutcome (m.binary (arith Runtime.mul))
  | .DIVOP => .ofOutcome (m.binary (arith Runtime.div))
  | .CONCOP => .ofOutcome (m.binary concop)
  | .MINUSOP => .ofOutcome (m.unary fun o => (minusop o).map (·, m.store))
  | .NOTOP => .ofOutcome (m.unary fun o => .ok (notop o, m.store))
  | .ONTJMP => .ofOutcome (m.onJump false word)
  | .ONFJMP => .ofOutcome (m.onJump true word)
  | .JMP => .go (m.jump (m.pc.off + 3 + word) m.stack)
  | .UPJMP => .go (m.jump (m.pc.off + 3 - word) m.stack)
  | .IFFJMP => .ofOutcome (m.ifJump (m.pc.off + 3 + word))
  | .IFFUPJMP => .ofOutcome (m.ifJump (m.pc.off + 3 - word))
  | .POP => .ofOutcome do
      let (stack, _) ← pop m.stack
      .ok (m.next 1 stack m.store)
  | .CALLFUNC => m.callFunc host
  | .RETCODE => .ofOutcome (m.retCode byte)
  | .HALT => .halt
  -- the debug instructions are not followed
  | .SETFUNCTION | .SETLINE | .RESET => .unknown

/-- One round of the loop of `lua_execute`. -/
def luaExecute (host : Host ν κ) (image : Image) (m : Machine ν κ) : Next (Machine ν κ) :=
  match OpCode.ofByte (image.code m.pc.unit m.pc.off) with
  | some op => execute host image op m
  | none => .fail

end Sirius.Lua
