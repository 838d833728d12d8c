import Mathlib.Tactic
import Sirius.Library.Bytes
import Sirius.Library.Outcomes

/-!
# Values and operations of the Lua interpreter

The objects of `user/lua/opcode.h` and what the operators of `lua_execute` do with them. The type
of the numbers, `real`, is a parameter with the operations of the C library on it.

An object has a tag and a value, and an operation that changes the tag leaves the value as it is.
So a nil object carries the value that `NOTOP` makes a number of; `none` is a value that the slot
happened to hold. Where such a value decides something, nothing is known of the run.
-/

namespace Sirius.Lua

open Library

/-- A string without its null byte. -/
abbrev Text := List Byte

/-- `Word` -/
abbrev Word := BitVec 16

/-- The number type `real` and the functions of the C library that the interpreter calls. -/
class Runtime (ν : Type) where
  /-- Conversion of an `int`. -/
  ofInt : Int → ν
  /-- Conversion to an `int`. -/
  toInt : ν → Int
  /-- Conversion to an `unsigned int`. -/
  toUnsigned : ν → Nat
  /-- The representation, four bytes. -/
  toBytes : ν → Nat → Byte
  ofBytes : (Nat → Byte) → ν
  add : ν → ν → ν
  sub : ν → ν → ν
  mul : ν → ν → ν
  div : ν → ν → ν
  neg : ν → ν
  eq : ν → ν → Bool
  lt : ν → ν → Bool
  le : ν → ν → Bool
  /-- `strtod` of a text that it reads to its end. -/
  strtod : Text → Option ν
  /-- `sprintf` with `%d`. -/
  decimal : Int → Text
  /-- `sprintf` with `%g`. -/
  general : ν → Text
  strcmp : Text → Text → Int
  of_bytes_to_bytes : ∀ (x : ν) (m : Nat → Byte), (∀ i < 4, m i = toBytes x i) → ofBytes m = x
  /-- The integers of 16 bits are numbers. -/
  to_int_of_int : ∀ i : Int, 0 ≤ i → i < 2 ^ 16 → toInt (ofInt i) = i
  eq_of_int : ∀ i : Int, 0 ≤ i → i < 2 ^ 16 → eq (ofInt i) (ofInt i) = true
  strcmp_eq_zero : ∀ s t : Text, strcmp s t = 0 ↔ s = t

/-- A place in the code: the function or main code, and the offset in it. -/
structure Addr where
  unit : Nat
  off : Nat
  deriving DecidableEq, Repr

/-- `Object`, where `κ` are the C functions. An array is its place in the order of creation. -/
inductive Object (ν κ : Type)
  | nil (value : Option ν)
  | number (value : Option ν)
  | string (s : Text)
  | array (a : Nat)
  | function (b : Addr)
  | cfunction (f : κ)
  | userdata (u : Nat)
  deriving DecidableEq

/-- A slot of the stack: `T_MARK` with the value in it, or an object. -/
inductive Slot (ν κ : Type)
  | mark (n : Option Nat)
  | object (o : Object ν κ)
  deriving DecidableEq

namespace Object

variable {ν κ : Type}

/-- `tag(o) == T_NIL` -/
def isNil : Object ν κ → Bool
  | .nil _ => true
  | _ => false

/-- The value as a number, where it is one. -/
def leftover : Object ν κ → Option ν
  | .nil v => v
  | .number v => v
  | _ => none

/-- The result of a comparison: the number 1, or nil with that value. -/
def truth [Runtime ν] (b : Bool) : Object ν κ :=
  if b then .number (some (Runtime.ofInt 1)) else .nil (some (Runtime.ofInt 1))

end Object

section Operations

variable {ν κ : Type} [Runtime ν]

/-- `tonumber` -/
def tonumber : Object ν κ → Outcome (Option ν)
  | .number v => .ok v
  | .string s => match Runtime.strtod s with
    | some x => .ok (some x)
    | none => .error
  | _ => .error

/-- The text of a number in `lua_tostring`. -/
def numberText (x : ν) : Text :=
  if Runtime.eq (Runtime.ofInt (Runtime.toInt x)) x then Runtime.decimal ν (Runtime.toInt x)
  else Runtime.general x

/-- `tostring` -/
def tostring : Object ν κ → Outcome Text
  | .string s => .ok s
  | .number (some x) => .ok (numberText x)
  | .number none => .unknown
  | _ => .error

/-- `ADDOP`, `SUBOP`, `MULTOP`, `DIVOP` -/
def arith (op : ν → ν → ν) (l r : Object ν κ) : Outcome (Object ν κ) := do
  let y ← tonumber r
  let x ← tonumber l
  .ok (.number (x.bind fun x => y.map (op x)))

/-- `EQOP` -/
def eqop [DecidableEq κ] (l r : Object ν κ) : Outcome (Object ν κ) :=
  match l, r with
  | .nil _, .nil _ => .ok (.truth true)
  | .number (some x), .number (some y) => .ok (.truth (Runtime.eq x y))
  | .number _, .number _ => .unknown
  | .array a, .array b => .ok (.truth (a = b))
  | .function a, .function b => .ok (.truth (a = b))
  | .cfunction f, .cfunction g => .ok (.truth (f = g))
  | .userdata u, .userdata v => .ok (.truth (u = v))
  | .string s, .string t => .ok (.truth (Runtime.strcmp ν s t = 0))
  | _, _ => .ok (.truth false)

/-- `LTOP`, `LEOP`: how they compare numbers and the result of `strcmp`. -/
def order (test : ν → ν → Bool) (sign : Int → Bool) (l r : Object ν κ) : Outcome (Object ν κ) :=
  match l, r with
  | .number (some x), .number (some y) => .ok (.truth (test x y))
  | .number _, .number _ => .unknown
  | l, r => do
      let s ← tostring l
      let t ← tostring r
      .ok (.truth (sign (Runtime.strcmp ν s t)))

/-- `LTOP` -/
def ltop (l r : Object ν κ) : Outcome (Object ν κ) := order Runtime.lt (· < 0) l r

/-- `LEOP` -/
def leop (l r : Object ν κ) : Outcome (Object ν κ) := order Runtime.le (· ≤ 0) l r

/-- `CONCOP` -/
def concop (l r : Object ν κ) : Outcome (Object ν κ) := do
  let t ← tostring r
  let s ← tostring l
  .ok (.string (s ++ t))

/-- `MINUSOP` -/
def minusop (o : Object ν κ) : Outcome (Object ν κ) := do
  let x ← tonumber o
  .ok (.number (x.map Runtime.neg))

omit [Runtime ν] in
/-- `NOTOP` -/
def notop (o : Object ν κ) : Object ν κ :=
  if o.isNil then .number o.leftover else .nil o.leftover

end Operations

end Sirius.Lua
