import Mathlib.Tactic
import Sirius.Lua.Parse

/-!
# What the compiler writes

Code for a construct is written behind the code that is there already. `Grows s s'` is what every
action does: earlier code and constants stay, the error flag is never cleared, and code without an
error is at most `MAXCODE` bytes long. `Emits s s' k` is what an expression does: the local
variables stay too, and `ntemp` changes by `k`.
-/

namespace Sirius.Lua

open Library Sirius.Lua.Parser

variable {s s₁ s₂ s' : Parser} {i p size rounds : Nat} {n k k₁ k₂ number : Int} {op : OpCode} {c : Byte}
  {w : Word} {text : Text}

/-- The code grows behind `s.pc`. -/
structure Grows (s s' : Parser) : Prop where
  err : s'.err = false → s.err = false
  basepc : s'.basepc = s.basepc
  pc : s.pc ≤ s'.pc
  buffer : ∀ i < s.pc, s'.buffer i = s.buffer i
  constants : s.constants <+: s'.constants
  room : s'.err = false → s.pc ≤ s.basepc + MAXCODE → s'.pc ≤ s.basepc + MAXCODE

/-- The temporaries and the local variables that a function can have. -/
def MAXSLOTS : Int := STACKGAP - MAXVAR - 1

/-- The code of an expression that leaves `k` more temporaries. -/
structure Emits (s s' : Parser) (k : Int) : Prop extends Grows s s' where
  localvar : s'.localvar = s.localvar
  varbuffer : s'.varbuffer = s.varbuffer
  ntemp : s'.err = false → s'.ntemp = s.ntemp + k
  depth : s'.err = false → s.ntemp + s.localvar.length ≤ MAXSLOTS →
    s'.ntemp + s'.localvar.length ≤ MAXSLOTS

theorem Grows.refl : Grows s s := ⟨id, rfl, le_rfl, fun _ _ => rfl, List.prefix_rfl, fun _ h => h⟩

theorem Grows.trans (h : Grows s s₁) (h' : Grows s₁ s₂) : Grows s s₂ where
  err herr := h.err (h'.err herr)
  basepc := h'.basepc.trans h.basepc
  pc := h.pc.trans h'.pc
  buffer i hi := (h'.buffer i (hi.trans_le h.pc)).trans (h.buffer i hi)
  constants := h.constants.trans h'.constants
  room herr hs := by
    have hroom := h'.room herr
    rw [h.basepc] at hroom
    exact hroom (h.room (h'.err herr) hs)

theorem Emits.refl : Emits s s 0 :=
  ⟨.refl, rfl, rfl, fun _ => (add_zero _).symm, fun _ h => h⟩

theorem Emits.trans (h : Emits s s₁ k₁) (h' : Emits s₁ s₂ k₂) : Emits s s₂ (k₁ + k₂) where
  toGrows := h.toGrows.trans h'.toGrows
  localvar := h'.localvar.trans h.localvar
  varbuffer := h'.varbuffer.trans h.varbuffer
  ntemp herr := by
    rw [h'.ntemp herr, h.ntemp (h'.err herr), add_assoc]
  depth herr hs := h'.depth herr (h.depth (h'.err herr) hs)

theorem Emits.of_eq (h : Emits s s' k₁) (hk : k₁ = k₂) : Emits s s' k₂ := hk ▸ h

/-! ### Single writes -/

theorem emits_byte : Emits s (s.codeByte c) 0 where
  err h := (Bool.or_eq_false_iff.mp h).1
  basepc := rfl
  pc := Nat.le_succ _
  buffer i hi := Function.update_of_ne hi.ne _ _
  constants := List.prefix_rfl
  room h _ := by
    have hfits := of_decide_eq_false (Bool.or_eq_false_iff.mp h).2
    simp only [codeByte, MAXCODE] at hfits ⊢
    omega
  localvar := rfl
  varbuffer := rfl
  ntemp _ := (add_zero _).symm
  depth _ h := h

theorem emits_op (op : OpCode) : Emits s (s.codeOp op) 0 := emits_byte

theorem emits_word {n : Nat} : Emits s (s.codeWord n) 0 where
  err h := (Bool.or_eq_false_iff.mp h).1
  basepc := rfl
  pc := Nat.le_add_right _ _
  buffer i hi := write_half_outside (.inl hi)
  constants := List.prefix_rfl
  room h _ := by
    have hfits := of_decide_eq_false (Bool.or_eq_false_iff.mp h).2
    simp only [codeWord, MAXCODE] at hfits ⊢
    omega
  localvar := rfl
  varbuffer := rfl
  ntemp _ := (add_zero _).symm
  depth _ h := h

theorem emits_incr_ntemp : Emits s s.incrNtemp 1 := by
  unfold incrNtemp
  split
  case isTrue hroom =>
    have hless : s.ntemp + s.localvar.length + MAXVAR + 1 < STACKGAP := of_decide_eq_true hroom
    exact ⟨⟨id, rfl, le_rfl, fun _ _ => rfl, List.prefix_rfl, fun _ h => h⟩, rfl, rfl, fun _ => rfl,
      fun _ _ => by simp only [MAXSLOTS]; omega⟩
  case isFalse =>
    exact ⟨⟨fun h => (Bool.true_eq_false.mp h).elim, rfl, le_rfl, fun _ _ => rfl, List.prefix_rfl,
      fun _ h => h⟩, rfl, rfl, fun h => (Bool.true_eq_false.mp h).elim, fun _ h => h⟩

theorem emits_decr_ntemp (hn : 0 ≤ k) : Emits s (s.decrNtemp k) (-k) :=
  ⟨⟨id, rfl, le_rfl, fun _ _ => rfl, List.prefix_rfl, fun _ h => h⟩, rfl, rfl,
    fun _ => Int.sub_eq_add_neg, fun _ h => by simp only [decrNtemp]; omega⟩

variable {ν : Type} [Runtime ν]

theorem emits_float (f : ν) : Emits s (s.codeFloat f) 0 where
  err h := (Bool.or_eq_false_iff.mp h).1
  basepc := rfl
  pc := Nat.le_add_right _ _
  buffer i hi := if_neg fun h => absurd hi (not_lt.mpr h.1)
  constants := List.prefix_rfl
  room h _ := by
    have hfits := of_decide_eq_false (Bool.or_eq_false_iff.mp h).2
    simp only [codeFloat, MAXCODE] at hfits ⊢
    omega
  localvar := rfl
  varbuffer := rfl
  ntemp _ := (add_zero _).symm
  depth _ h := h

omit [Runtime ν] in
theorem emits_align_loop : Emits s (alignLoop size rounds s) 0 := by
  induction rounds generalizing s with
  | zero => exact .refl
  | succ rounds ih =>
      unfold alignLoop
      split
      · exact (emits_op _).trans ih
      · exact .refl

theorem emits_align (size : Nat) : Emits s (s.alignN size) 0 := emits_align_loop

theorem emits_adjust : Emits s (s.luaCodeadjust k) 0 := (emits_op _).trans emits_byte

/-- `expr1` leaves one temporary, whatever the expression left. -/
theorem emits_one_value (call : Bool) : Emits s (s.oneValue call) (if call then 1 else 0) := by
  cases call with
  | false => exact .refl
  | true => exact emits_adjust.trans emits_incr_ntemp

/-- `ntemp` gets the value that it had. -/
theorem Emits.with_ntemp (h : Emits s s' k) (hk : s'.err = false → n = s.ntemp) :
    Emits s { s' with ntemp := n } 0 :=
  { h with
    ntemp := fun herr => (hk herr).trans (add_zero _).symm
    depth := fun herr hs => by
      have hlocal := h.localvar
      simp only [hk herr, hlocal]
      exact hs }

/-! ### Constants and variables -/

theorem emits_number (f : ν) : Emits s (s.codeNumber f) 1 := by
  unfold codeNumber
  refine Emits.of_eq (Emits.trans ?_ emits_incr_ntemp) (zero_add 1)
  split
  · split
    · exact emits_byte
    · split
      · exact (emits_op _).trans emits_byte
      · exact ((emits_align _).trans (emits_op _)).trans emits_word
  · exact ((emits_align _).trans (emits_op _)).trans (emits_float f)

theorem emits_pushvar (number : Int) :
    Emits s (s.luaPushvar number) (if number = 0 then -1 else 1) := by
  unfold luaPushvar
  split
  case isTrue hpos =>
    rw [if_neg hpos.ne']
    exact (((emits_align _).trans (emits_op _)).trans emits_word).trans emits_incr_ntemp
  case isFalse hpos =>
    split
    case isTrue hneg =>
      rw [if_neg hneg.ne]
      dsimp only
      split
      · exact (emits_op _).trans emits_incr_ntemp
      · exact ((emits_op _).trans emits_byte).trans emits_incr_ntemp
    case isFalse hneg =>
      rw [if_pos (le_antisymm (not_lt.mp hpos) (not_lt.mp hneg))]
      exact (emits_op _).trans (emits_decr_ntemp zero_le_one)

variable (ν) in
theorem emits_findconstant : Emits s (luaFindconstant ν text s).2 0 := by
  unfold luaFindconstant
  split
  · exact .refl
  · split
    · exact .refl
    · exact ⟨⟨id, rfl, le_rfl, fun _ _ => rfl, List.prefix_append _ _, fun _ h => h⟩, rfl, rfl,
        fun _ => (add_zero _).symm, fun _ h => h⟩

variable (ν) in
theorem emits_string : Emits s (s.codeString ν text) 1 :=
  ((((emits_align _).trans (emits_op _)).trans (emits_findconstant ν)).trans emits_word).trans emits_incr_ntemp

/-! ### Jumps -/

/-- An open space for a jump. -/
def openSpace (s : Parser) : Parser := (s.codeByte 0#8).codeWord 0

theorem prep_jump_eq (s : Parser) : s.prepJump = ((s.alignN 2).pc, openSpace (s.alignN 2)) := rfl

theorem emits_space : Emits s (openSpace s) 0 := emits_byte.trans emits_word

theorem set_jump_outside {n : Nat} (h : i < p ∨ p + 3 ≤ i) : (s.setJump p op n).buffer i = s.buffer i := by
  have hne : i ≠ p := by omega
  simp only [setJump]
  rw [write_half_outside (by omega), Function.update_of_ne hne]

/-- A byte behind `s` is part of what was written after `s`. -/
theorem Emits.set_byte (h : Emits s s' k) (hp : s.pc ≤ p) : Emits s (s'.setByte p c) k :=
  { h with
    buffer := fun i hi =>
      (Function.update_of_ne (hi.trans_le hp).ne _ _).trans (h.buffer i hi) }

/-- A jump behind `s` is part of what was written after `s`. -/
theorem Emits.set_jump {n : Nat} (h : Emits s s' k) (hp : s.pc ≤ p) : Emits s (s'.setJump p op n) k :=
  { h with
    buffer := fun i hi => (set_jump_outside (.inl (hi.trans_le hp))).trans (h.buffer i hi) }

/-! ### Expressions -/

theorem emits_constructor (name : Option Word) :
    Emits s (s.codeConstructor name) (if name.isSome then -1 else 0) := by
  cases name with
  | none => exact .refl
  | some w =>
      have hpush : Emits s (s.luaPushvar (w.toNat + 1)) 1 :=
        (emits_pushvar _).of_eq (if_neg (by omega))
      have hcall := ((hpush.trans (emits_op .PUSHMARK)).trans emits_incr_ntemp).trans
        (emits_op .PUSHOBJECT)
      exact ((hcall.trans emits_incr_ntemp).trans (emits_op .CALLFUNC)).trans
        (emits_decr_ntemp (by decide : (0 : Int) ≤ 4))

theorem emits_ops (ops : List OpCode) : Emits s (ops.foldl (fun s op => s.codeOp op) s) 0 := by
  induction ops generalizing s with
  | nil => exact .refl
  | cons op ops ih => exact (emits_op _).trans ih

/-- The temporaries that a list of expressions leaves besides those of a last call. -/
def Exps.temps (es : Exps ν) : Int := es.length - if es.isCall then 1 else 0

variable (name : Word → Text)

omit [Runtime ν] in
/-- One value of an expression. -/
theorem Emits.one_value {e : Exp ν} (h : Emits s s' (if e.isCall then 0 else 1)) :
    Emits s (s'.oneValue e.isCall) 1 :=
  (h.trans (emits_one_value e.isCall)).of_eq (by cases e.isCall <;> rfl)

mutual
theorem emits_var : ∀ (v : Var ν) (s : Parser),
    Emits s (codeVar name v s).2 (if (codeVar name v s).1 = 0 then 2 else 0)
  | .name w, s => by
      unfold codeVar
      cases luaLocalname s.localvar w with
      | none => exact Emits.refl.of_eq (if_neg (by simp only; omega)).symm
      | some i => exact Emits.refl.of_eq (if_neg (by simp only; omega)).symm
  | .index v e, s => by
      have hvar := emits_var v s
      have hpush := hvar.trans (emits_pushvar (codeVar name v s).1)
      have hexp := emits_expr e ((codeVar name v s).2.luaPushvar (codeVar name v s).1)
      refine (hpush.trans hexp.one_value).of_eq ?_
      split <;> rfl
  | .field v w, s => by
      have hpush := (emits_var v s).trans (emits_pushvar (codeVar name v s).1)
      refine (hpush.trans (emits_string ν)).of_eq ?_
      split <;> rfl

theorem emits_expr : ∀ (e : Exp ν) (s : Parser),
    Emits s (codeExpr name e s) (if e.isCall then 0 else 1)
  | .paren e, s => emits_expr e s
  | .binary op l r, s => by
      have hl := (emits_expr l s).one_value
      have hr := (emits_expr r ((codeExpr name l s).oneValue l.isCall)).one_value
      exact ((hl.trans hr).trans (emits_ops op.ops)).trans (emits_decr_ntemp zero_le_one)
  | .plus e, s => (emits_expr e s).one_value
  | .minus e, s => (emits_expr e s).one_value.trans (emits_op _)
  | .not e, s => (emits_expr e s).one_value.trans (emits_op _)
  | .and l r, s => by
      have hl := (emits_expr l s).one_value.trans (emits_align 2)
      have hpop := (emits_space.trans (emits_op .POP)).trans (emits_decr_ntemp (s := (openSpace
        (((codeExpr name l s).oneValue l.isCall).alignN 2)).codeOp .POP) zero_le_one)
      exact (hl.trans (hpop.trans (emits_expr r _).one_value)).set_jump hl.pc
  | .or l r, s => by
      have hl := (emits_expr l s).one_value.trans (emits_align 2)
      have hpop := (emits_space.trans (emits_op .POP)).trans (emits_decr_ntemp (s := (openSpace
        (((codeExpr name l s).oneValue l.isCall).alignN 2)).codeOp .POP) zero_le_one)
      exact (hl.trans (hpop.trans (emits_expr r _).one_value)).set_jump hl.pc
  | .record object fields, s => by
      have hsize := ((emits_op (s := s) .PUSHBYTE).trans (emits_byte (c := 0#8))).trans
        emits_incr_ntemp
      have hfields := (hsize.trans (emits_op .CREATEARRAY)).trans (emits_ffieldlist fields _)
      refine ((hfields.set_byte (emits_op (s := s) .PUSHBYTE).pc).trans
        (emits_constructor object)).of_eq ?_
      cases object <;> rfl
  | .list object items, s => by
      have hsize := ((emits_op (s := s) .PUSHBYTE).trans (emits_byte (c := 0#8))).trans
        emits_incr_ntemp
      have hitems := (hsize.trans (emits_op .CREATEARRAY)).trans (emits_lfieldlist items _)
      refine ((hitems.set_byte (emits_op (s := s) .PUSHBYTE).pc).trans
        (emits_constructor object)).of_eq ?_
      cases object <;> rfl
  | .array, s => ((emits_op _).trans emits_incr_ntemp).trans (emits_op _)
  | .arrayOf e, s => (emits_expr e s).one_value.trans (emits_op _)
  | .var v, s => by
      refine ((emits_var v s).trans (emits_pushvar (codeVar name v s).1)).of_eq ?_
      split <;> rfl
  | .number f, s => emits_number f
  | .string text, s => emits_string ν
  | .nil, s => (emits_op _).trans emits_incr_ntemp
  | .call f args, s => by
      have hpush := (emits_var f s).trans (emits_pushvar (codeVar name f s).1)
      have hargs := (hpush.trans (emits_op .PUSHMARK)).trans
        ((emits_incr_ntemp.trans (emits_exprlist args _)).trans (emits_op .CALLFUNC))
      refine hargs.with_ntemp fun herr => ?_
      have hmark := (hpush.trans (emits_op .PUSHMARK)).ntemp
        (((emits_incr_ntemp.trans (emits_exprlist args _)).trans (emits_op .CALLFUNC)).err herr)
      rw [hmark]
      split <;> ring

theorem emits_exprlist : ∀ (es : Exps ν) (s : Parser), Emits s (codeExprlist name es s) es.temps
  | .empty, _ => .refl
  | .snoc es e, s => by
      have hes := (emits_exprlist es s).trans (emits_one_value es.isCall)
      refine (hes.trans (emits_expr e _)).of_eq ?_
      have hcall : (Exps.snoc es e).isCall = e.isCall := rfl
      simp only [Exps.temps, Exps.length, hcall, Nat.cast_add, Nat.cast_one]
      cases es.isCall <;> cases e.isCall <;> simp

theorem emits_ffieldlist : ∀ (fields : Fields ν) (s : Parser),
    Emits s (codeFfieldlist name fields s) 0
  | .empty, _ => .refl
  | .snoc fields _ e, s =>
      (((emits_ffieldlist fields s).trans (emits_string ν)).trans
        ((emits_expr e _).one_value.trans (emits_op _))).trans (emits_decr_ntemp zero_le_two)

theorem emits_lfieldlist : ∀ (items : Exps ν) (s : Parser),
    Emits s (codeLfieldlist name items s) 0
  | .empty, _ => .refl
  | .snoc items e, s =>
      (((emits_lfieldlist items s).trans (emits_number _)).trans
        ((emits_expr e _).one_value.trans (emits_op _))).trans (emits_decr_ntemp zero_le_two)
end

/-! ### Statements -/

/-- The temporaries and local variables are as many as a function can have. -/
def Sound (s : Parser) : Prop := 0 ≤ s.ntemp ∧ s.ntemp + s.localvar.length ≤ MAXSLOTS

/-- The code of a statement that makes some local variables. -/
structure Adds (s s' : Parser) (ws : List Word) : Prop extends Grows s s' where
  localvar : s'.err = false → s'.localvar = s.localvar ++ ws
  sound : s'.err = false → Sound s → Sound s'

variable {ws ws₁ ws₂ : List Word}

theorem Adds.refl : Adds s s [] := ⟨.refl, fun _ => (List.append_nil _).symm, fun _ h => h⟩

theorem Adds.trans (h : Adds s s₁ ws₁) (h' : Adds s₁ s₂ ws₂) :
    Adds s s₂ (ws₁ ++ ws₂) where
  toGrows := h.toGrows.trans h'.toGrows
  localvar herr := by
    rw [h'.localvar herr, h.localvar (h'.err herr), List.append_assoc]
  sound herr hs := h'.sound herr (h.sound (h'.err herr) hs)

theorem Adds.of_eq (h : Adds s s' ws₁) (hws : ws₁ = ws₂) : Adds s s' ws₂ :=
  hws ▸ h

theorem Emits.adds (h : Emits s s' k) (hk : 0 ≤ k) : Adds s s' [] where
  toGrows := h.toGrows
  localvar _ := h.localvar.trans (List.append_nil _).symm
  sound herr hs := ⟨by rw [h.ntemp herr]; exact add_nonneg hs.1 hk, h.depth herr hs.2⟩

theorem adds_ntemp_zero : Adds s { s with ntemp := 0 } [] where
  toGrows := ⟨id, rfl, le_rfl, fun _ _ => rfl, List.prefix_rfl, fun _ h => h⟩
  localvar _ := (List.append_nil _).symm
  sound _ hs := ⟨le_rfl, by simp only [Sound] at hs ⊢; omega⟩

theorem adds_nlocalvar : Adds s (s.incrNlocalvar w) [w] := by
  unfold incrNlocalvar
  split
  case isTrue hroom =>
    have hless : s.ntemp + s.localvar.length + MAXVAR + 1 < STACKGAP := of_decide_eq_true hroom
    refine ⟨⟨id, rfl, le_rfl, fun _ _ => rfl, List.prefix_rfl, fun _ h => h⟩, fun _ => rfl,
      fun _ hs => ⟨hs.1, ?_⟩⟩
    simp only [MAXSLOTS, List.length_append, List.length_singleton]
    omega
  case isFalse =>
    exact ⟨⟨fun h => (Bool.true_eq_false.mp h).elim, rfl, le_rfl, fun _ _ => rfl, List.prefix_rfl,
      fun _ h => h⟩, fun h => (Bool.true_eq_false.mp h).elim,
      fun h => (Bool.true_eq_false.mp h).elim⟩

/-- A jump behind `s` is part of what was written after `s`. -/
theorem Adds.set_jump {n : Nat} (h : Adds s s' ws) (hp : s.pc ≤ p) :
    Adds s (s'.setJump p op n) ws :=
  { h with
    buffer := fun i hi => (set_jump_outside (.inl (hi.trans_le hp))).trans (h.buffer i hi) }

theorem Adds.close_if {q : Nat} (h : Adds s s' ws) (hp : s.pc ≤ p) (hq : s.pc ≤ q)
    (hq' : q ≤ s'.pc) : Adds s (s'.closeIf p q) ws := by
  unfold closeIf
  split
  · have hback : Adds s { s' with pc := q } ws :=
      { h with
        pc := hq
        room := fun herr hs => hq'.trans (h.room herr hs) }
    exact hback.set_jump hp
  · exact (h.set_jump hq).set_jump hp

/-- The variables of an assignment do not matter for the code. -/
theorem Emits.with_varbuffer (h : Emits s s' k) (vars : List Int) :
    Emits { s with varbuffer := vars } { s' with varbuffer := vars } k :=
  { h with varbuffer := rfl }

theorem emits_nvarbuffer (number : Int) :
    Emits { s with varbuffer := (s.incrNvarbuffer number).varbuffer } (s.incrNvarbuffer number) 0 := by
  unfold incrNvarbuffer
  split
  · exact ⟨⟨id, rfl, le_rfl, fun _ _ => rfl, List.prefix_rfl, fun _ h => h⟩, rfl, rfl,
      fun _ => (add_zero _).symm, fun _ h => h⟩
  · exact ⟨⟨fun h => (Bool.true_eq_false.mp h).elim, rfl, le_rfl, fun _ _ => rfl, List.prefix_rfl,
      fun _ h => h⟩, rfl, rfl, fun h => (Bool.true_eq_false.mp h).elim, fun _ h => h⟩

/-- Each indexed variable leaves its table and its index. -/
theorem emits_varlist (vs : Vars ν) (s : Parser) :
    Emits { s with varbuffer := (codeVarlist name vs s).2.varbuffer } (codeVarlist name vs s).2
      (2 * (codeVarlist name vs s).1) := by
  induction vs with
  | one v =>
      have hbuffer := emits_nvarbuffer (s := { (codeVar name v s).2 with varbuffer := [] })
        (codeVar name v s).1
      refine (((emits_var name v s).with_varbuffer _).trans hbuffer).of_eq ?_
      simp only [codeVarlist]
      split <;> rfl
  | snoc vs v ih =>
      have hbuffer := emits_nvarbuffer (s := (codeVar name v (codeVarlist name vs s).2).2)
        (codeVar name v (codeVarlist name vs s).2).1
      refine (((ih.with_varbuffer _).trans ((emits_var name v _).with_varbuffer _)).trans
        hbuffer).of_eq ?_
      simp only [codeVarlist]
      split <;> push_cast <;> ring

theorem emits_codestore (i : Nat) : Emits s (s.luaCodestore i) 0 := by
  unfold luaCodestore
  dsimp only
  split
  · exact ((emits_align 2).trans (emits_op _)).trans emits_word
  · split
    · split
      · exact emits_op _
      · exact (emits_op _).trans emits_byte
    · split
      · exact emits_op _
      · exact (emits_op _).trans emits_byte

theorem emits_stores (i : Nat) : Emits s (codeStores i s) 0 := by
  induction i generalizing s with
  | zero => exact .refl
  | succ i ih => exact (emits_codestore i).trans ih

theorem emits_assign (k : Nat) (call : Bool) : Emits s (codeAssign k call s) 0 := by
  unfold codeAssign
  dsimp only
  have hadjust : Emits s (if call ∨ (s.varbuffer.length : Int) ≠ s.ntemp - k * 2 then
      s.luaCodeadjust (k * 2 + s.varbuffer.length) else s) 0 := by
    split
    · exact emits_adjust
    · exact .refl
  generalize (if call ∨ (s.varbuffer.length : Int) ≠ s.ntemp - k * 2 then
    s.luaCodeadjust (k * 2 + s.varbuffer.length) else s) = s₁ at hadjust
  split
  · exact (hadjust.trans (emits_stores _)).trans emits_adjust
  · exact hadjust.trans (emits_stores _)

omit [Runtime ν] in
theorem Exps.temps_nonneg (es : Exps ν) : 0 ≤ es.temps := by
  cases es with
  | empty => exact le_rfl
  | snoc es e =>
      simp only [Exps.temps, Exps.length]
      split <;> push_cast <;> omega

/-- The initial value of a local variable takes its slot. -/
theorem adds_init (init : Option (Exp ν)) : Adds s (codeInit name init s) [] := by
  cases init with
  | none => exact (emits_op .PUSHNIL).adds le_rfl
  | some e => exact adds_ntemp_zero.trans ((emits_expr name e _).one_value.adds zero_le_one)

theorem adds_declist (ds : Decls ν) : Adds s (codeDeclist name ds s) ds.names := by
  induction ds with
  | one w init => exact (adds_init name init).trans adds_nlocalvar
  | snoc ds w init ih => exact (ih.trans (adds_init name init)).trans adds_nlocalvar |>.of_eq (by
      rw [List.append_nil]; rfl)

theorem emits_ret (ret : Option (Exps ν)) :
    Emits s (codeRet name ret s) (ret.elim 0 Exps.temps) := by
  cases ret with
  | none => exact .refl
  | some es =>
      exact (((emits_exprlist name es s).trans (emits_op .RETCODE)).trans emits_byte).of_eq
        (by rw [add_zero, add_zero]; rfl)

/-- The variables that some statements make. -/
def Stats.names : Stats ν → List Word
  | .empty => []
  | .snoc ss st => ss.names ++ st.names

/-- The variables of a block are gone at its end. -/
theorem Adds.close_block (h : Adds s s' ws) : Adds s (closeBlock s.localvar.length s') [] := by
  unfold closeBlock
  split
  case isTrue =>
    have hless : (s'.localvar.take s.localvar.length).length ≤ s'.localvar.length :=
      (List.length_take_le' _ _)
    have htake : Adds s { s' with localvar := s'.localvar.take s.localvar.length } [] :=
      { h with
        localvar := fun herr => by
          rw [h.localvar herr, List.take_left, List.append_nil]
        sound := fun herr hs => by
          have hsound := h.sound herr hs
          exact ⟨hsound.1, by have := hsound.2; simp only at this ⊢; omega⟩ }
    exact htake.trans (emits_adjust.adds le_rfl)
  case isFalse heq =>
    refine { h with localvar := fun herr => ?_ }
    have hws := h.localvar herr
    have hlength := congrArg List.length hws
    rw [List.length_append, not_not.mp heq] at hlength
    rw [hws, List.length_eq_zero_iff.mp (by omega : ws.length = 0)]

/-- A condition, and the open space behind it. -/
theorem adds_condition (c : Exp ν) :
    Adds s (((codeExpr name c s).oneValue c.isCall).alignN 2) [] :=
  ((emits_expr name c s).one_value.trans (emits_align 2)).adds zero_le_one

mutual
theorem adds_stat : ∀ (st : Stat ν) (s : Parser), Adds s (codeStat name st s) st.names
  | .ifThen c b e, s => by
      have hc := adds_ntemp_zero.trans (adds_condition name c (s := { s with ntemp := 0 }))
      have hb := ((hc.trans (emits_space.adds le_rfl)).trans (adds_block b _)).trans
        ((emits_align 2).adds le_rfl)
      refine ((hb.trans (emits_space.adds le_rfl)).trans (adds_elsepart e _)).close_if hc.pc hb.pc ?_
      exact ((emits_space.adds le_rfl).trans (adds_elsepart e _)).pc
  | .whileDo c b, s => by
      have hc := adds_ntemp_zero.trans (adds_condition name c (s := { s with ntemp := 0 }))
      have hb := ((hc.trans (emits_space.adds le_rfl)).trans (adds_block b _)).trans
        ((emits_align 2).adds le_rfl)
      exact ((hb.trans (emits_space.adds le_rfl)).set_jump hc.pc).set_jump hb.pc
  | .repeatUntil b c, s => by
      have hb := adds_ntemp_zero.trans (adds_block b { s with ntemp := 0 })
      have hc := hb.trans (adds_condition name c)
      exact (hc.trans (emits_space.adds le_rfl)).set_jump hc.pc
  | .assign vs es e, s => by
      have hvars := emits_varlist name vs { s with ntemp := 0 }
      have hexps := (hvars.trans (emits_exprlist name (.snoc es e) _)).trans
        (emits_assign (codeVarlist name vs { s with ntemp := 0 }).1 e.isCall)
      have hadds := hexps.adds (by have := (Exps.snoc es e).temps_nonneg; omega)
      exact adds_ntemp_zero.trans { hadds with }
  | .call f args, s =>
      adds_ntemp_zero.trans (((emits_expr name (.call f args) _).trans emits_adjust).adds le_rfl)
  | .locals ds, s => adds_ntemp_zero.trans (adds_declist name ds)

theorem adds_elsepart : ∀ (e : Else ν) (s : Parser), Adds s (codeElsepart name e s) []
  | .none, _ => .refl
  | .els b, s => adds_block b s
  | .elseif c b e, s => by
      have hc := adds_condition name c (s := s)
      have hb := ((hc.trans (emits_space.adds le_rfl)).trans (adds_block b _)).trans
        ((emits_align 2).adds le_rfl)
      refine ((hb.trans (emits_space.adds le_rfl)).trans (adds_elsepart e _)).close_if hc.pc hb.pc ?_
      exact ((emits_space.adds le_rfl).trans (adds_elsepart e _)).pc

theorem adds_block : ∀ (b : Block ν) (s : Parser), Adds s (codeBlock name b s) []
  | .mk ss ret, s => by
      have hret := (emits_ret name ret (s := { codeStatlist name ss s with ntemp := 0 })).adds
        (by cases ret with
          | none => exact le_rfl
          | some es => exact es.temps_nonneg)
      exact (((adds_statlist ss s).trans adds_ntemp_zero).trans hret).close_block

theorem adds_statlist : ∀ (ss : Stats ν) (s : Parser), Adds s (codeStatlist name ss s) ss.names
  | .empty, _ => .refl
  | .snoc ss st, s => (adds_statlist ss s).trans (adds_stat st _)
end

/-- The temporaries that are counted behind a block: those of its `return`. -/
def Block.temps : Block ν → Int
  | .mk _ ret => ret.elim 0 Exps.temps

theorem block_ntemp (b : Block ν) (h : (codeBlock name b s).err = false) :
    (codeBlock name b s).ntemp = b.temps := by
  obtain ⟨ss, ret⟩ := b
  have hret := emits_ret name ret (s := { codeStatlist name ss s with ntemp := 0 })
  have hsame : (codeBlock name (.mk ss ret) s).ntemp =
      (codeRet name ret { codeStatlist name ss s with ntemp := 0 }).ntemp := by
    simp only [codeBlock, closeBlock]
    split <;> rfl
  have herr : (codeRet name ret { codeStatlist name ss s with ntemp := 0 }).err = false := by
    simp only [codeBlock, closeBlock] at h
    split at h
    · exact (emits_adjust (k := 0)).err h
    · exact h
  rw [hsame, hret.ntemp herr, zero_add]
  rfl

end Sirius.Lua
