import Mathlib.Tactic
import Sirius.Lua.Syntax

/-!
# The compiler

The actions of `y_tab.c`, which write the code of a construct while it is parsed, in the order in
which the parser reduces the productions, with the debug flag off. A jump forward is written when
its target is known, into a space that `PrepJump` left. The error flag stays set, and code with the
flag set is never run.
-/

namespace Sirius.Lua

open Library

/-- `MAXCODE` -/
def MAXCODE : Nat := 1024

/-- `MAXVAR` -/
def MAXVAR : Nat := 32

/-- `MAXCONSTANT` -/
def MAXCONSTANT : Nat := 256

/-- The variables of the parser. Code is written to `buffer`, `pc` and `basepc` are offsets in it,
`localvar` and `varbuffer` end at `nlocalvar` and `nvarbuffer`, and `constants` is `lua_constant`. -/
structure Parser where
  buffer : Bytes
  pc : Nat
  basepc : Nat
  ntemp : Int
  localvar : List Word
  varbuffer : List Int
  constants : List Text
  err : Bool

namespace Parser

/-- `code_byte` -/
def codeByte (c : Byte) (s : Parser) : Parser :=
  { s with
    err := s.err || decide (MAXCODE - 1 < s.pc - s.basepc)
    buffer := Function.update s.buffer s.pc c
    pc := s.pc + 1 }

/-- `code_byte` of an operation. -/
def codeOp (op : OpCode) (s : Parser) : Parser := s.codeByte op.byte

/-- `code_word` -/
def codeWord (n : Nat) (s : Parser) : Parser :=
  { s with
    err := s.err || decide (MAXCODE - 2 < s.pc - s.basepc)
    buffer := writeHalf s.buffer s.pc n
    pc := s.pc + 2 }

/-- `code_float` -/
def codeFloat {ν : Type} [Runtime ν] (f : ν) (s : Parser) : Parser :=
  { s with
    err := s.err || decide (MAXCODE - 4 < s.pc - s.basepc)
    buffer := copyBytes s.buffer s.pc (Runtime.toBytes f) 0 4
    pc := s.pc + 4 }

/-- The condition of `incr_ntemp` and `incr_nlocalvar`. -/
def hasRoom (s : Parser) : Bool := s.ntemp + s.localvar.length + MAXVAR + 1 < STACKGAP

/-- `incr_ntemp` -/
def incrNtemp (s : Parser) : Parser :=
  if s.hasRoom then { s with ntemp := s.ntemp + 1 } else { s with err := true }

/-- A new entry of `localvar` and `incr_nlocalvar`. -/
def incrNlocalvar (w : Word) (s : Parser) : Parser :=
  if s.hasRoom then { s with localvar := s.localvar ++ [w] } else { s with err := true }

/-- A new entry of `varbuffer` and `incr_nvarbuffer`. -/
def incrNvarbuffer (number : Int) (s : Parser) : Parser :=
  if s.varbuffer.length < MAXVAR - 1 then { s with varbuffer := s.varbuffer ++ [number] }
  else { s with err := true }

/-- `ntemp` goes down by `n`. -/
def decrNtemp (n : Int) (s : Parser) : Parser := { s with ntemp := s.ntemp - n }

/-- The loop of `align_n`, which makes at most `size` rounds. -/
def alignLoop (size : Nat) : (rounds : Nat) → Parser → Parser
  | 0, s => s
  | rounds + 1, s =>
      if (s.pc + 1) % size ≠ 0 then alignLoop size rounds (s.codeOp .NOP) else s

/-- `align_n` -/
def alignN (size : Nat) (s : Parser) : Parser := alignLoop size size s

/-- `code_number` -/
def codeNumber {ν : Type} [Runtime ν] (f : ν) (s : Parser) : Parser :=
  let i := Runtime.toInt f
  incrNtemp <|
    if Runtime.eq f (Runtime.ofInt i) then
      if i ≤ 2 then s.codeByte (BitVec.ofInt 8 (OpCode.PUSH0.num + i))
      else if i ≤ 255 then (s.codeOp .PUSHBYTE).codeByte (BitVec.ofInt 8 i)
      else ((s.alignN 2).codeOp .PUSHWORD).codeWord (BitVec.ofInt 16 i).toNat
    else ((s.alignN 4).codeOp .PUSHFLOAT).codeFloat f

/-- `lua_pushvar` -/
def luaPushvar (number : Int) (s : Parser) : Parser :=
  if number > 0 then
    (((s.alignN 2).codeOp .PUSHGLOBAL).codeWord (number - 1).toNat).incrNtemp
  else if number < 0 then
    let number := (-number - 1).toNat
    if h : number < 10 then (s.codeOp (.PUSHLOCALk ⟨number, h⟩)).incrNtemp
    else ((s.codeOp .PUSHLOCAL).codeByte (BitVec.ofNat 8 number)).incrNtemp
  else (s.codeOp .PUSHINDEXED).decrNtemp 1

/-- `lua_codeadjust` -/
def luaCodeadjust (n : Int) (s : Parser) : Parser :=
  (s.codeOp .ADJUST).codeByte (BitVec.ofInt 8 (n + s.localvar.length))

/-- `lua_codestore` -/
def luaCodestore (i : Nat) (s : Parser) : Parser :=
  let number := s.varbuffer.getD i 0
  if number > 0 then ((s.alignN 2).codeOp .STOREGLOBAL).codeWord (number - 1).toNat
  else if number < 0 then
    let number := (-number - 1).toNat
    if h : number < 10 then s.codeOp (.STORELOCALk ⟨number, h⟩)
    else (s.codeOp .STORELOCAL).codeByte (BitVec.ofNat 8 number)
  else
    let upper := (s.varbuffer.drop (i + 1)).countP (· = 0)
    let param := upper * 2 + i
    if param = 0 then s.codeOp .STOREINDEXED0
    else (s.codeOp .STOREINDEXED).codeByte (BitVec.ofNat 8 param)

/-- `lua_codestore` for the variables below `i`, the last one first. -/
def codeStores : (i : Nat) → Parser → Parser
  | 0, s => s
  | i + 1, s => codeStores i (s.luaCodestore i)

/-- `lua_findconstant`. The error, which does not set the flag, is the word of -1. -/
def luaFindconstant (ν : Type) [Runtime ν] (text : Text) (s : Parser) : Nat × Parser :=
  match s.constants.findIdx? fun c => Runtime.strcmp ν text c = 0 with
  | some i => (i, s)
  | none =>
      if MAXCONSTANT - 1 ≤ s.constants.length then (2 ^ 16 - 1, s)
      else (s.constants.length, { s with constants := s.constants ++ [text] })

/-- The code that pushes a constant. -/
def codeString (ν : Type) [Runtime ν] (text : Text) (s : Parser) : Parser :=
  let s := (s.alignN 2).codeOp .PUSHSTRING
  let (w, s) := luaFindconstant ν text s
  (s.codeWord w).incrNtemp

/-- `PrepJump`: where the open space is. -/
def prepJump (s : Parser) : Nat × Parser :=
  let s := s.alignN 2
  (s.pc, (s.codeByte 0#8).codeWord 0)

/-- A byte is written over an earlier one. -/
def setByte (p : Nat) (c : Byte) (s : Parser) : Parser :=
  { s with buffer := Function.update s.buffer p c }

/-- A jump is written into an open space. -/
def setJump (p : Nat) (op : OpCode) (n : Nat) (s : Parser) : Parser :=
  { s with buffer := writeHalf (Function.update s.buffer p op.byte) (p + 1) n }

/-- The end of a conditional with the open spaces `p` behind the condition and `q` behind the
block: without code for the other case the jump over it is dropped. -/
def closeIf (p q : Nat) (s : Parser) : Parser :=
  if s.pc = q + 3 then { s with pc := q }.setJump p .IFFJMP (q - (p + 3))
  else (s.setJump q .JMP (s.pc - (q + 3))).setJump p .IFFJMP (q + 3 - (p + 3))

/-- `expr1`, and the comma in a list of expressions: a call is cut to one value. -/
def oneValue (call : Bool) (s : Parser) : Parser :=
  if call then (s.luaCodeadjust (s.ntemp + 1)).incrNtemp else s

/-- The call with the new table at the end of a constructor. -/
def codeConstructor (name : Option Word) (s : Parser) : Parser :=
  match name with
  | none => s
  | some w =>
      let s := ((s.luaPushvar (w.toNat + 1)).codeOp .PUSHMARK).incrNtemp
      ((s.codeOp .PUSHOBJECT).incrNtemp.codeOp .CALLFUNC).decrNtemp 4

end Parser

open Sirius.Lua.Parser

/-- The operations for an operator. -/
def BinOp.ops : BinOp → List OpCode
  | .eq => [.EQOP]
  | .lt => [.LTOP]
  | .gt => [.LEOP, .NOTOP]
  | .ne => [.EQOP, .NOTOP]
  | .le => [.LEOP]
  | .ge => [.LTOP, .NOTOP]
  | .add => [.ADDOP]
  | .sub => [.SUBOP]
  | .mult => [.MULTOP]
  | .div => [.DIVOP]
  | .conc => [.CONCOP]

section

variable {ν : Type} [Runtime ν] (name : Word → Text)

mutual
/-- `var`: its number, which is positive for a global, negative for a local and 0 for an indexed
variable. -/
def codeVar : Var ν → Parser → Int × Parser
  | .name w, s => match luaLocalname s.localvar w with
    | none => (w.toNat + 1, s)
    | some i => (-(i + 1), s)
  | .index v e, s =>
      let (number, s) := codeVar v s
      (0, (codeExpr e (s.luaPushvar number)).oneValue e.isCall)
  | .field v w, s =>
      let (number, s) := codeVar v s
      (0, (s.luaPushvar number).codeString ν (name w))

/-- `expr` -/
def codeExpr : Exp ν → Parser → Parser
  | .paren e, s => codeExpr e s
  | .binary op l r, s =>
      let s := (codeExpr l s).oneValue l.isCall
      let s := (codeExpr r s).oneValue r.isCall
      (op.ops.foldl (fun s op => s.codeOp op) s).decrNtemp 1
  | .plus e, s => (codeExpr e s).oneValue e.isCall
  | .minus e, s => ((codeExpr e s).oneValue e.isCall).codeOp .MINUSOP
  | .not e, s => ((codeExpr e s).oneValue e.isCall).codeOp .NOTOP
  | .and l r, s =>
      let s := (codeExpr l s).oneValue l.isCall
      let (p, s) := s.prepJump
      let s := (s.codeOp .POP).decrNtemp 1
      let s := (codeExpr r s).oneValue r.isCall
      s.setJump p .ONFJMP (s.pc - (p + 3))
  | .or l r, s =>
      let s := (codeExpr l s).oneValue l.isCall
      let (p, s) := s.prepJump
      let s := (s.codeOp .POP).decrNtemp 1
      let s := (codeExpr r s).oneValue r.isCall
      s.setJump p .ONTJMP (s.pc - (p + 3))
  | .record object fields, s =>
      let s := s.codeOp .PUSHBYTE
      let p := s.pc
      let s := (s.codeByte 0#8).incrNtemp.codeOp .CREATEARRAY
      let s := codeFfieldlist fields s
      (s.setByte p (BitVec.ofNat 8 fields.length)).codeConstructor object
  | .list object items, s =>
      let s := s.codeOp .PUSHBYTE
      let p := s.pc
      let s := (s.codeByte 0#8).incrNtemp.codeOp .CREATEARRAY
      let s := codeLfieldlist items s
      (s.setByte p (BitVec.ofNat 8 items.length)).codeConstructor object
  | .array, s => (s.codeOp .PUSHNIL).incrNtemp.codeOp .CREATEARRAY
  | .arrayOf e, s => ((codeExpr e s).oneValue e.isCall).codeOp .CREATEARRAY
  | .var v, s =>
      let (number, s) := codeVar v s
      s.luaPushvar number
  | .number f, s => s.codeNumber f
  | .string text, s => s.codeString ν text
  | .nil, s => (s.codeOp .PUSHNIL).incrNtemp
  | .call f args, s =>
      let (number, s) := codeVar f s
      let s := (s.luaPushvar number).codeOp .PUSHMARK
      let ntemp := s.ntemp
      let s := (codeExprlist args s.incrNtemp).codeOp .CALLFUNC
      { s with ntemp := ntemp - 1 }

/-- `exprlist` -/
def codeExprlist : Exps ν → Parser → Parser
  | .empty, s => s
  | .snoc es e, s => codeExpr e ((codeExprlist es s).oneValue es.isCall)

/-- `ffieldlist` -/
def codeFfieldlist : Fields ν → Parser → Parser
  | .empty, s => s
  | .snoc fields w e, s =>
      let s := (codeFfieldlist fields s).codeString ν (name w)
      (((codeExpr e s).oneValue e.isCall).codeOp .STOREFIELD).decrNtemp 2

/-- `lfieldlist` -/
def codeLfieldlist : Exps ν → Parser → Parser
  | .empty, s => s
  | .snoc items e, s =>
      let s := (codeLfieldlist items s).codeNumber (Runtime.ofInt (items.length + 1 : Nat) : ν)
      (((codeExpr e s).oneValue e.isCall).codeOp .STOREFIELD).decrNtemp 2
end

/-- `varlist1`: the number of indexed variables. -/
def codeVarlist : Vars ν → Parser → Nat × Parser
  | .one v, s =>
      let (number, s) := codeVar name v s
      (if number = 0 then 1 else 0, { s with varbuffer := [] }.incrNvarbuffer number)
  | .snoc vs v, s =>
      let (k, s) := codeVarlist vs s
      let (number, s) := codeVar name v s
      (if number = 0 then k + 1 else k, s.incrNvarbuffer number)

/-- `init` -/
def codeInit : Option (Exp ν) → Parser → Parser
  | none, s => s.codeOp .PUSHNIL
  | some e, s => (codeExpr name e { s with ntemp := 0 }).oneValue e.isCall

/-- `declist` -/
def codeDeclist : Decls ν → Parser → Parser
  | .one w init, s => (codeInit name init s).incrNlocalvar w
  | .snoc ds w init, s => (codeInit name init (codeDeclist ds s)).incrNlocalvar w

/-- `ret` -/
def codeRet : Option (Exps ν) → Parser → Parser
  | none, s => s
  | some es, s =>
      let s := (codeExprlist name es s).codeOp .RETCODE
      s.codeByte (BitVec.ofNat 8 s.localvar.length)

/-- The end of a block, where `n` variables remain. -/
def closeBlock (n : Nat) (s : Parser) : Parser :=
  if s.localvar.length ≠ n then { s with localvar := s.localvar.take n }.luaCodeadjust 0 else s

/-- An assignment behind its variables, of which `k` are indexed. -/
def codeAssign (k : Nat) (call : Bool) (s : Parser) : Parser :=
  let n := s.varbuffer.length
  let s := if call ∨ (n : Int) ≠ s.ntemp - k * 2 then s.luaCodeadjust (k * 2 + n) else s
  let s := codeStores n s
  if k > 1 ∨ (k = 1 ∧ s.varbuffer.getD 0 0 ≠ 0) then s.luaCodeadjust 0 else s

mutual
/-- `stat` -/
def codeStat : Stat ν → Parser → Parser
  | .ifThen c b e, s =>
      let s := (codeExpr name c { s with ntemp := 0 }).oneValue c.isCall
      let (p, s) := s.prepJump
      let (q, s) := (codeBlock b s).prepJump
      (codeElsepart e s).closeIf p q
  | .whileDo c b, s =>
      let start := s.pc
      let s := (codeExpr name c { s with ntemp := 0 }).oneValue c.isCall
      let (p, s) := s.prepJump
      let (q, s) := (codeBlock b s).prepJump
      (s.setJump p .IFFJMP (s.pc - (p + 3))).setJump q .UPJMP (s.pc - start)
  | .repeatUntil b c, s =>
      let start := s.pc
      let s := codeBlock b { s with ntemp := 0 }
      let s := (codeExpr name c s).oneValue c.isCall
      let (q, s) := s.prepJump
      s.setJump q .IFFUPJMP (s.pc - start)
  | .assign vs es e, s =>
      let (k, s) := codeVarlist name vs { s with ntemp := 0 }
      codeAssign k e.isCall (codeExprlist name (.snoc es e) s)
  | .call f args, s => (codeExpr name (.call f args) { s with ntemp := 0 }).luaCodeadjust 0
  | .locals ds, s => codeDeclist name ds { s with ntemp := 0 }

/-- `elsepart` -/
def codeElsepart : Else ν → Parser → Parser
  | .none, s => s
  | .els b, s => codeBlock b s
  | .elseif c b e, s =>
      let s := (codeExpr name c s).oneValue c.isCall
      let (p, s) := s.prepJump
      let (q, s) := (codeBlock b s).prepJump
      (codeElsepart e s).closeIf p q

/-- `block` -/
def codeBlock : Block ν → Parser → Parser
  | .mk ss ret, s =>
      let n := s.localvar.length
      closeBlock n (codeRet name ret { codeStatlist ss s with ntemp := 0 })

/-- `statlist` -/
def codeStatlist : Stats ν → Parser → Parser
  | .empty, s => s
  | .snoc ss st, s => codeStat st (codeStatlist ss s)
end

/-- `function`: the code of a function, which is written to its own buffer. -/
def codeFunction (f : Fun ν) (s : Parser) : Parser :=
  let s := { s with pc := 0, basepc := 0, localvar := [] }
  let s := f.params.foldl (fun s w => s.incrNlocalvar w) s
  let s := (codeBlock name f.body (s.luaCodeadjust 0)).codeOp .RETCODE
  s.codeByte (BitVec.ofNat 8 s.localvar.length)

/-- A member of `functionlist`. -/
inductive Item (ν : Type)
  | stat (s : Stat ν)
  | function (f : Fun ν)

/-- The state between two members of `functionlist`: the buffer and the end of the main code, the
code of the functions, and the other variables, with the buffer of the functions. -/
structure Chunk where
  mainbuffer : Bytes
  maincode : Nat
  units : List Bytes
  parser : Parser

/-- A statement is added to the main code, and a function gets code of its own. -/
def codeItem (item : Item ν) (c : Chunk) : Chunk :=
  match item with
  | .stat st =>
      let s := { c.parser with
        buffer := c.mainbuffer, pc := c.maincode, basepc := c.maincode, localvar := [] }
      let s := codeStat name st s
      { c with
        mainbuffer := s.buffer, maincode := s.pc, parser := { s with buffer := c.parser.buffer } }
  | .function f =>
      let s := codeFunction name f c.parser
      { c with units := c.units ++ [copyBytes (fun _ => 0#8) 0 s.buffer 0 s.pc], parser := s }

/-- `functionlist` -/
def codeItems (items : List (Item ν)) (c : Chunk) : Chunk :=
  items.foldl (fun c item => codeItem name item c) c

/-- The code of a program whose error flag is clear, with `HALT` at the end of the main code. Unit 0
is the main code, and the functions follow in their order. -/
def Chunk.image (c : Chunk) : Image where
  code := fun unit => match unit with
    | 0 => Function.update c.mainbuffer c.maincode OpCode.HALT.byte
    | u + 1 => c.units.getD u fun _ => 0#8
  constants := c.parser.constants

end

end Sirius.Lua
