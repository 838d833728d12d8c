import Mathlib.Tactic
import Sirius.Lua.Object

/-!
# The tables of the Lua interpreter

`hash.c` keeps the fields of a table in chains, one for each value of `head`. `lua_hashdefine`
finds the node of a key or puts a new one with a nil object in front of its chain, also when the
table is only read. The global variables and the tables are the store of a program.
-/

namespace Sirius.Lua

open Library

/-- `Node` -/
structure Node (ν κ : Type) where
  ref : Object ν κ
  val : Object ν κ

/-- `Hash` without the mark of the garbage collection. -/
structure Hash (ν κ : Type) where
  nhash : Nat
  list : Nat → List (Node ν κ)

/-- The global variables by the index of their symbol, and the tables that were created. -/
structure Store (ν κ : Type) where
  globals : Word → Object ν κ
  arrays : List (Hash ν κ)

variable {ν κ : Type}

section Code

variable [Runtime ν]

/-- The loop of `head` over a string. -/
def headLoop (nhash : Nat) : (name : Text) → (h : Nat) → Nat
  | [], h => h
  | c :: name, h => headLoop nhash name ((h * 2 ^ 8 + c.toNat) % 2 ^ 32 % nhash)

/-- `head`. The remainder is unsigned, its result an `int`. A table of size 0 divides by zero. -/
def head (t : Hash ν κ) (ref : Object ν κ) : Outcome Nat :=
  match ref with
  | .number (some x) =>
      if t.nhash = 0 then .unknown
      else
        let h := (BitVec.ofInt 32 (Runtime.toInt x)).toNat % t.nhash
        if h < 2 ^ 31 then .ok h else .error
  | .number none => .unknown
  | .string name =>
      if name ≠ [] ∧ t.nhash = 0 then .unknown
      else
        let h := headLoop t.nhash name 0
        if h < 2 ^ 31 then .ok h else .error
  | _ => .error

/-- The comparison of keys in `present`. -/
def sameRef : (ref key : Object ν κ) → Bool
  | .number (some x), .number (some y) => Runtime.eq x y
  | .string s, .string t => Runtime.strcmp ν s t = 0
  | _, _ => false

/-- `present`: the place of the node of the key in its chain. -/
def present (t : Hash ν κ) (ref : Object ν κ) (h : Nat) : Option Nat :=
  (t.list h).findIdx? fun n => sameRef ref n.ref

/-- `lua_hashdefine`: the table with a node for the key, the chain and the place in it. -/
def luaHashdefine (t : Hash ν κ) (ref : Object ν κ) : Outcome (Nat × Nat × Hash ν κ) := do
  let h ← head t ref
  match present t ref h with
  | some i => .ok (h, i, t)
  | none =>
      .ok (h, 0, { t with list := Function.update t.list h (⟨ref, .nil none⟩ :: t.list h) })

/-- A read of the object that `lua_hashdefine` returns. -/
def Hash.read (t : Hash ν κ) (ref : Object ν κ) : Outcome (Object ν κ × Hash ν κ) := do
  let (h, i, t) ← luaHashdefine t ref
  match (t.list h)[i]? with
  | some n => .ok (n.val, t)
  | none => .unknown

/-- A write to the object that `lua_hashdefine` returns. -/
def Hash.write (t : Hash ν κ) (ref v : Object ν κ) : Outcome (Hash ν κ) := do
  let (h, i, t) ← luaHashdefine t ref
  .ok { t with list := Function.update t.list h ((t.list h).modify i ({ · with val := v })) }

/-- `PUSHINDEXED` -/
def Store.index (st : Store ν κ) (o ref : Object ν κ) : Outcome (Object ν κ × Store ν κ) :=
  match o with
  | .array a => match st.arrays[a]? with
    | some t => do
        let (v, t) ← t.read ref
        .ok (v, { st with arrays := st.arrays.set a t })
    | none => .unknown
  | _ => .error

/-- `STOREINDEXED` -/
def Store.storeIndexed (st : Store ν κ) (o ref v : Object ν κ) : Outcome (Store ν κ) :=
  match o with
  | .array a => match st.arrays[a]? with
    | some t => do
        let t ← t.write ref v
        .ok { st with arrays := st.arrays.set a t }
    | none => .unknown
  | _ => .error

/-- `STOREFIELD`, which writes through the pointer of `lua_hashdefine` even if that is `NULL`. -/
def Store.storeField (st : Store ν κ) (o ref v : Object ν κ) : Outcome (Store ν κ) :=
  match o with
  | .array a => match st.arrays[a]? with
    | some t => match t.write ref v with
      | .ok t => .ok { st with arrays := st.arrays.set a t }
      | _ => .unknown
    | none => .unknown
  | _ => .error

/-- The size of the table that `CREATEARRAY` makes. -/
def arraySize (o : Object ν κ) : Outcome Nat :=
  if o.isNil then .ok 101
  else (tonumber o).bind fun
    | some x => .ok (if Runtime.le x (Runtime.ofInt 0) then 101 else Runtime.toUnsigned x)
    | none => .unknown

/-- `CREATEARRAY`: `lua_hashcreate` and `lua_createarray`. -/
def Store.createArray (st : Store ν κ) (o : Object ν κ) : Outcome (Object ν κ × Store ν κ) := do
  let nhash ← arraySize o
  .ok (.array st.arrays.length, { st with arrays := st.arrays ++ [⟨nhash, fun _ => []⟩] })

omit [Runtime ν] in
/-- `STOREGLOBAL` -/
def Store.setGlobal (st : Store ν κ) (w : Word) (v : Object ν κ) : Store ν κ :=
  { st with globals := Function.update st.globals w v }

end Code

end Sirius.Lua
