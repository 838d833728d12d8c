import Mathlib.Tactic
import Sirius.Lua.Execute

/-!
# Programs and their meaning

The syntax trees of the grammar in `y_tab.c`, where a `NAME` token is the index of its symbol and
lists grow at their end, and what a program means: its expressions give values, a call any number of
them, and its statements change the local variables and the store. The evaluation has fuel and
leaves open what comes when that is used up.
-/

namespace Sirius.Lua

open Library

/-! ### Syntax -/

/-- The operators between two `expr1`. -/
inductive BinOp
  | eq | lt | gt | ne | le | ge | add | sub | mult | div | conc
  deriving DecidableEq

mutual
/-- `var` -/
inductive Var (ν : Type)
  | name (w : Word)
  | index (v : Var ν) (e : Exp ν)
  | field (v : Var ν) (w : Word)

/-- `expr`. A `record` has a list of fields and a `list` a list of values, both with the name of a
function that is called with the new table. -/
inductive Exp (ν : Type)
  | paren (e : Exp ν)
  | binary (op : BinOp) (l r : Exp ν)
  | plus (e : Exp ν)
  | minus (e : Exp ν)
  | not (e : Exp ν)
  | and (l r : Exp ν)
  | or (l r : Exp ν)
  | record (name : Option Word) (fields : Fields ν)
  | list (name : Option Word) (items : Exps ν)
  | array
  | arrayOf (size : Exp ν)
  | var (v : Var ν)
  | number (f : ν)
  | string (s : Text)
  | nil
  | call (f : Var ν) (args : Exps ν)

/-- `exprlist`, `lfieldlist` -/
inductive Exps (ν : Type)
  | empty
  | snoc (es : Exps ν) (e : Exp ν)

/-- `ffieldlist` -/
inductive Fields (ν : Type)
  | empty
  | snoc (fields : Fields ν) (w : Word) (e : Exp ν)
end

/-- `varlist1` -/
inductive Vars (ν : Type)
  | one (v : Var ν)
  | snoc (vs : Vars ν) (v : Var ν)

/-- `declist` -/
inductive Decls (ν : Type)
  | one (w : Word) (init : Option (Exp ν))
  | snoc (ds : Decls ν) (w : Word) (init : Option (Exp ν))

mutual
/-- `stat` -/
inductive Stat (ν : Type)
  | ifThen (c : Exp ν) (b : Block ν) (e : Else ν)
  | whileDo (c : Exp ν) (b : Block ν)
  | repeatUntil (b : Block ν) (c : Exp ν)
  | assign (vs : Vars ν) (es : Exps ν) (e : Exp ν)
  | call (f : Var ν) (args : Exps ν)
  | locals (ds : Decls ν)

/-- `elsepart` -/
inductive Else (ν : Type)
  | none
  | els (b : Block ν)
  | elseif (c : Exp ν) (b : Block ν) (e : Else ν)

/-- `block` -/
inductive Block (ν : Type)
  | mk (ss : Stats ν) (ret : Option (Exps ν))

/-- `statlist` -/
inductive Stats (ν : Type)
  | empty
  | snoc (ss : Stats ν) (s : Stat ν)
end

/-- `function` -/
structure Fun (ν : Type) where
  name : Word
  params : List Word
  body : Block ν

section

variable {ν κ : Type}

/-- The value of an `expr` is what its last call left on the stack, any number of objects. -/
def Exp.isCall : Exp ν → Bool
  | .paren e => e.isCall
  | .record name _ => name.isSome
  | .list name _ => name.isSome
  | .call _ _ => true
  | _ => false

/-- The number of expressions. -/
def Exps.length : Exps ν → Nat
  | .empty => 0
  | .snoc es _ => es.length + 1

/-- The last expression is a call. -/
def Exps.isCall : Exps ν → Bool
  | .empty => false
  | .snoc _ e => e.isCall

/-- The number of fields. -/
def Fields.length : Fields ν → Nat
  | .empty => 0
  | .snoc fields _ _ => fields.length + 1

/-- The variables that a declaration makes. -/
def Decls.names : Decls ν → List Word
  | .one w _ => [w]
  | .snoc ds w _ => ds.names ++ [w]

/-- The variables that a statement makes. -/
def Stat.names : Stat ν → List Word
  | .locals ds => ds.names
  | _ => []

/-! ### Values -/

/-- The local variables, the latest one at the end. -/
abbrev Env (ν κ : Type) := List (Word × Object ν κ)

/-- The loop of `lua_localname` over the variables below `i`. -/
def luaLocalnameLoop (localvar : List Word) (n : Word) : (i : Nat) → Option Nat
  | 0 => none
  | i + 1 => if localvar[i]? = some n then some i else luaLocalnameLoop localvar n i

/-- `lua_localname`: the place of the latest local variable of that name. -/
def luaLocalname (localvar : List Word) (n : Word) : Option Nat :=
  luaLocalnameLoop localvar n localvar.length

/-- What a variable denotes once the objects in it are computed. -/
inductive Target (ν κ : Type)
  | localVar (i : Nat)
  | globalVar (w : Word)
  | indexed (o ref : Object ν κ)

/-- As many values as are wanted: the rest is dropped, or nil is added. -/
def adjust (k : Nat) (vs : List (Object ν κ)) : List (Object ν κ) :=
  (vs ++ List.replicate (k - vs.length) (Object.nil none)).take k

/-- The first value, or nil. -/
def first (vs : List (Object ν κ)) : Object ν κ := vs.headD (.nil none)

/-- The first value of an expression. -/
def one (o : Outcome (List (Object ν κ) × Store ν κ)) : Outcome (Object ν κ × Store ν κ) :=
  o.map fun r => (first r.1, r.2)

/-- How a statement ends. -/
inductive Flow (ν κ : Type)
  | next (env : Env ν κ) (st : Store ν κ)
  | ret (vs : List (Object ν κ)) (st : Store ν κ)

variable [Runtime ν]

/-- The object that a variable holds. -/
def Target.read (t : Target ν κ) (env : Env ν κ) (st : Store ν κ) :
    Outcome (Object ν κ × Store ν κ) :=
  match t with
  | .localVar i => match env[i]? with
    | some (_, v) => .ok (v, st)
    | none => .unknown
  | .globalVar w => .ok (st.globals w, st)
  | .indexed o ref => st.index o ref

/-- The variable gets an object. -/
def Target.write (t : Target ν κ) (v : Object ν κ) (env : Env ν κ) (st : Store ν κ) :
    Outcome (Env ν κ × Store ν κ) :=
  match t with
  | .localVar i => .ok (env.modify i fun p => (p.1, v), st)
  | .globalVar w => .ok (env, st.setGlobal w v)
  | .indexed o ref => (st.storeIndexed o ref v).map fun st => (env, st)

/-- The variables get their objects, the last one first. -/
def assignAll : List (Target ν κ × Object ν κ) → Env ν κ → Store ν κ →
    Outcome (Env ν κ × Store ν κ)
  | [], env, st => .ok (env, st)
  | (t, v) :: rest, env, st => do
      let (env, st) ← assignAll rest env st
      t.write v env st

variable [DecidableEq κ]

/-- The meaning of an operator. `x > y` and `x >= y` are what `x <= y` and `x < y` are not. -/
def BinOp.apply (op : BinOp) (l r : Object ν κ) : Outcome (Object ν κ) :=
  match op with
  | .eq => eqop l r
  | .ne => (eqop l r).map notop
  | .lt => ltop l r
  | .gt => (leop l r).map notop
  | .le => leop l r
  | .ge => (ltop l r).map notop
  | .add => arith Runtime.add l r
  | .sub => arith Runtime.sub l r
  | .mult => arith Runtime.mul l r
  | .div => arith Runtime.div l r
  | .conc => concop l r

/-! ### Evaluation -/

/-- What a program refers to: the C functions, the names of the symbols, and the functions. -/
structure Context (ν κ : Type) where
  host : Host ν κ
  name : Word → Text
  funs : List (Fun ν)

variable (ctx : Context ν κ)

mutual
/-- The variable that a `var` denotes. -/
def evalVar : (fuel : Nat) → Var ν → Env ν κ → Store ν κ → Outcome (Target ν κ × Store ν κ)
  | 0, _, _, _ => .unknown
  | n + 1, v, env, st => match v with
    | .name w => .ok (match luaLocalname (env.map (·.1)) w with
        | some i => .localVar i
        | none => .globalVar w, st)
    | .index v e => do
        let (t, st) ← evalVar n v env st
        let (o, st) ← t.read env st
        let (ref, st) ← one (evalExp n e env st)
        .ok (.indexed o ref, st)
    | .field v w => do
        let (t, st) ← evalVar n v env st
        let (o, st) ← t.read env st
        .ok (.indexed o (.string (ctx.name w)), st)

/-- The values of an expression. -/
def evalExp : (fuel : Nat) → Exp ν → Env ν κ → Store ν κ →
    Outcome (List (Object ν κ) × Store ν κ)
  | 0, _, _, _ => .unknown
  | n + 1, e, env, st => match e with
    | .paren e => evalExp n e env st
    | .binary op l r => do
        let (x, st) ← one (evalExp n l env st)
        let (y, st) ← one (evalExp n r env st)
        let v ← op.apply x y
        .ok ([v], st)
    | .plus e => do
        let (v, st) ← one (evalExp n e env st)
        .ok ([v], st)
    | .minus e => do
        let (x, st) ← one (evalExp n e env st)
        let v ← minusop x
        .ok ([v], st)
    | .not e => do
        let (v, st) ← one (evalExp n e env st)
        .ok ([notop v], st)
    | .and l r => do
        let (x, st) ← one (evalExp n l env st)
        if x.isNil then .ok ([x], st)
        else
          let (y, st) ← one (evalExp n r env st)
          .ok ([y], st)
    | .or l r => do
        let (x, st) ← one (evalExp n l env st)
        if x.isNil then
          let (y, st) ← one (evalExp n r env st)
          .ok ([y], st)
        else .ok ([x], st)
    | .record name fields => do
        let (o, st) ← st.createArray (.number (some (Runtime.ofInt (fields.length % 2 ^ 8 : Nat))))
        let st ← evalFields n fields o env st
        evalConstructor n name o st
    | .list name items => do
        let (o, st) ← st.createArray (.number (some (Runtime.ofInt (items.length % 2 ^ 8 : Nat))))
        let st ← evalItems n items o env st
        evalConstructor n name o st
    | .array => do
        let (o, st) ← st.createArray (.nil none)
        .ok ([o], st)
    | .arrayOf e => do
        let (d, st) ← one (evalExp n e env st)
        let (o, st) ← st.createArray d
        .ok ([o], st)
    | .var v => do
        let (t, st) ← evalVar n v env st
        let (o, st) ← t.read env st
        .ok ([o], st)
    | .number f => .ok ([.number (some f)], st)
    | .string s => .ok ([.string s], st)
    | .nil => .ok ([.nil none], st)
    | .call f args => do
        let (t, st) ← evalVar n f env st
        let (o, st) ← t.read env st
        let (vs, st) ← evalExps n args env st
        callValue n o vs st

/-- A new table with the values that the function of the constructor returns. -/
def evalConstructor : (fuel : Nat) → Option Word → Object ν κ → Store ν κ →
    Outcome (List (Object ν κ) × Store ν κ)
  | 0, _, _, _ => .unknown
  | n + 1, name, o, st => match name with
    | none => .ok ([o], st)
    | some w => do
        let (vs, st) ← callValue n (st.globals w) [o] st
        .ok (o :: vs, st)

/-- The values of a list of expressions: one for each, and all of the last one. -/
def evalExps : (fuel : Nat) → Exps ν → Env ν κ → Store ν κ →
    Outcome (List (Object ν κ) × Store ν κ)
  | 0, _, _, _ => .unknown
  | n + 1, es, env, st => match es with
    | .empty => .ok ([], st)
    | .snoc es e => do
        let (us, st) ← evalExps n es env st
        let (vs, st) ← evalExp n e env st
        .ok (adjust es.length us ++ vs, st)

/-- The fields go into the table. -/
def evalFields : (fuel : Nat) → Fields ν → Object ν κ → Env ν κ → Store ν κ →
    Outcome (Store ν κ)
  | 0, _, _, _, _ => .unknown
  | n + 1, fields, o, env, st => match fields with
    | .empty => .ok st
    | .snoc fields w e => do
        let st ← evalFields n fields o env st
        let (v, st) ← one (evalExp n e env st)
        st.storeField o (.string (ctx.name w)) v

/-- The values go into the table under the numbers from 1 on. -/
def evalItems : (fuel : Nat) → Exps ν → Object ν κ → Env ν κ → Store ν κ → Outcome (Store ν κ)
  | 0, _, _, _, _ => .unknown
  | n + 1, items, o, env, st => match items with
    | .empty => .ok st
    | .snoc items e => do
        let st ← evalItems n items o env st
        let (v, st) ← one (evalExp n e env st)
        st.storeField o (.number (some (Runtime.ofInt (items.length + 1 : Nat)))) v

/-- A call: the values that come back. -/
def callValue : (fuel : Nat) → Object ν κ → List (Object ν κ) → Store ν κ →
    Outcome (List (Object ν κ) × Store ν κ)
  | 0, _, _, _ => .unknown
  | n + 1, f, args, st => match f with
    | .function ⟨u + 1, 0⟩ => match ctx.funs[u]? with
      | some f => do
          let flow ← evalBlock n f.body (f.params.zip (adjust f.params.length args)) st
          match flow with
          | .next _ st => .ok ([], st)
          | .ret vs st => .ok (vs, st)
      | none => .unknown
    | .function _ => .unknown
    | .cfunction f => .ok (ctx.host.cfunction f args st)
    | _ => .error

/-- A statement. -/
def evalStat : (fuel : Nat) → Stat ν → Env ν κ → Store ν κ → Outcome (Flow ν κ)
  | 0, _, _, _ => .unknown
  | n + 1, s, env, st => match s with
    | .ifThen c b e => do
        let (v, st) ← one (evalExp n c env st)
        if v.isNil then evalElse n e env st else evalBlock n b env st
    | .whileDo c b => do
        let (v, st) ← one (evalExp n c env st)
        if v.isNil then .ok (.next env st)
        else
          let flow ← evalBlock n b env st
          match flow with
          | .next env st => evalStat n (.whileDo c b) env st
          | .ret vs st => .ok (.ret vs st)
    | .repeatUntil b c => do
        let flow ← evalBlock n b env st
        match flow with
        | .next env st =>
            let (v, st) ← one (evalExp n c env st)
            if v.isNil then evalStat n (.repeatUntil b c) env st else .ok (.next env st)
        | .ret vs st => .ok (.ret vs st)
    | .assign vs es e => do
        let (ts, st) ← evalVars n vs env st
        let (us, st) ← evalExps n (.snoc es e) env st
        let (env, st) ← assignAll (ts.zip (adjust ts.length us)) env st
        .ok (.next env st)
    | .call f args => do
        let (_, st) ← evalExp n (.call f args) env st
        .ok (.next env st)
    | .locals ds => do
        let (env, st) ← evalDecls n ds env st
        .ok (.next env st)

/-- The variables on the left of an assignment. -/
def evalVars : (fuel : Nat) → Vars ν → Env ν κ → Store ν κ →
    Outcome (List (Target ν κ) × Store ν κ)
  | 0, _, _, _ => .unknown
  | n + 1, vs, env, st => match vs with
    | .one v => do
        let (t, st) ← evalVar n v env st
        .ok ([t], st)
    | .snoc vs v => do
        let (ts, st) ← evalVars n vs env st
        let (t, st) ← evalVar n v env st
        .ok (ts ++ [t], st)

/-- The initial value of a local variable. -/
def evalInit : (fuel : Nat) → Option (Exp ν) → Env ν κ → Store ν κ →
    Outcome (Object ν κ × Store ν κ)
  | 0, _, _, _ => .unknown
  | n + 1, init, env, st => match init with
    | none => .ok (.nil none, st)
    | some e => one (evalExp n e env st)

/-- The variables of a declaration, one after the other. -/
def evalDecls : (fuel : Nat) → Decls ν → Env ν κ → Store ν κ → Outcome (Env ν κ × Store ν κ)
  | 0, _, _, _ => .unknown
  | n + 1, ds, env, st => match ds with
    | .one w init => do
        let (v, st) ← evalInit n init env st
        .ok (env ++ [(w, v)], st)
    | .snoc ds w init => do
        let (env, st) ← evalDecls n ds env st
        let (v, st) ← evalInit n init env st
        .ok (env ++ [(w, v)], st)

/-- The part of a conditional for a condition that is nil. -/
def evalElse : (fuel : Nat) → Else ν → Env ν κ → Store ν κ → Outcome (Flow ν κ)
  | 0, _, _, _ => .unknown
  | n + 1, e, env, st => match e with
    | .none => .ok (.next env st)
    | .els b => evalBlock n b env st
    | .elseif c b e => do
        let (v, st) ← one (evalExp n c env st)
        if v.isNil then evalElse n e env st else evalBlock n b env st

/-- A block, whose own variables are gone at its end. -/
def evalBlock : (fuel : Nat) → Block ν → Env ν κ → Store ν κ → Outcome (Flow ν κ)
  | 0, _, _, _ => .unknown
  | n + 1, .mk ss ret, env, st => do
      let flow ← evalStats n ss env st
      match flow with
      | .next env' st => match ret with
        | none => .ok (.next (env'.take env.length) st)
        | some es => do
            let (vs, st) ← evalExps n es env' st
            .ok (.ret vs st)
      | .ret vs st => .ok (.ret vs st)

/-- Statements after each other. -/
def evalStats : (fuel : Nat) → Stats ν → Env ν κ → Store ν κ → Outcome (Flow ν κ)
  | 0, _, _, _ => .unknown
  | n + 1, ss, env, st => match ss with
    | .empty => .ok (.next env st)
    | .snoc ss s => do
        let flow ← evalStats n ss env st
        match flow with
        | .next env st => evalStat n s env st
        | .ret vs st => .ok (.ret vs st)
end

end

end Sirius.Lua
