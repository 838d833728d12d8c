import Mathlib.Tactic
import Sirius.Lua.Instructions

/-!
# The code of expressions computes their values

The evaluation with fuel `n` and the machine agree on variables and expressions if they agree, for
less fuel, on their parts and on the functions that are called.
-/

namespace Sirius.Lua

open Library Sirius.Lua.Parser

variable {ν κ : Type} [Runtime ν]

mutual
/-- The integer literals are below 2^16. -/
def Var.Fits : Var ν → Prop
  | .name _ => True
  | .index v e => v.Fits ∧ e.Fits
  | .field v _ => v.Fits

def Exp.Fits : Exp ν → Prop
  | .paren e => e.Fits
  | .binary _ l r => l.Fits ∧ r.Fits
  | .plus e => e.Fits
  | .minus e => e.Fits
  | .not e => e.Fits
  | .and l r => l.Fits ∧ r.Fits
  | .or l r => l.Fits ∧ r.Fits
  | .record _ fields => fields.Fits
  | .list _ items => items.Fits
  | .array => True
  | .arrayOf e => e.Fits
  | .var v => v.Fits
  | .number f => LiteralOk f
  | .string _ => True
  | .nil => True
  | .call f args => f.Fits ∧ args.Fits

def Exps.Fits : Exps ν → Prop
  | .empty => True
  | .snoc es e => es.Fits ∧ e.Fits

def Fields.Fits : Fields ν → Prop
  | .empty => True
  | .snoc fields _ e => fields.Fits ∧ e.Fits
end

variable [DecidableEq κ] (ctx : Context ν κ) (image : Image)

/-- The code of a variable leaves its parts. -/
def VarRuns (n : Nat) : Prop :=
  ∀ (fr : Frame ν κ) (v : Var ν) (s : Parser) (env : Env ν κ) (temps : List (Slot ν κ))
    (st : Store ν κ), v.Fits → Placed image fr.unit s (codeVar ctx.name v s).2 →
    Matches s env temps →
    Leads (luaExecute ctx.host image) (fr.state s env temps st)
      ((evalVar ctx n v env st).map fun r =>
        fr.state (codeVar ctx.name v s).2 env (temps ++ r.1.slots) r.2)

/-- The code of an expression leaves its values. -/
def ExprRuns (n : Nat) : Prop :=
  ∀ (fr : Frame ν κ) (e : Exp ν) (s : Parser) (env : Env ν κ) (temps : List (Slot ν κ))
    (st : Store ν κ), e.Fits → Placed image fr.unit s (codeExpr ctx.name e s) →
    Matches s env temps →
    Leads (luaExecute ctx.host image) (fr.state s env temps st)
      ((evalExp ctx n e env st).map fun r =>
        fr.state (codeExpr ctx.name e s) env (temps ++ r.1.map .object) r.2)

/-- The code of a list of expressions leaves their values. -/
def ExprlistRuns (n : Nat) : Prop :=
  ∀ (fr : Frame ν κ) (es : Exps ν) (s : Parser) (env : Env ν κ) (temps : List (Slot ν κ))
    (st : Store ν κ), es.Fits → Placed image fr.unit s (codeExprlist ctx.name es s) →
    Matches s env temps →
    Leads (luaExecute ctx.host image) (fr.state s env temps st)
      ((evalExps ctx n es env st).map fun r =>
        fr.state (codeExprlist ctx.name es s) env (temps ++ r.1.map .object) r.2)

/-- The code of the fields of a new table puts them into the table on the top. -/
def FfieldlistRuns (n : Nat) : Prop :=
  ∀ (fr : Frame ν κ) (fields : Fields ν) (s : Parser) (env : Env ν κ) (temps : List (Slot ν κ))
    (o : Object ν κ) (st : Store ν κ), fields.Fits →
    Placed image fr.unit s (codeFfieldlist ctx.name fields s) →
    Matches s env (temps ++ [.object o]) →
    Leads (luaExecute ctx.host image) (fr.state s env (temps ++ [.object o]) st)
      ((evalFields ctx n fields o env st).map fun st =>
        fr.state (codeFfieldlist ctx.name fields s) env (temps ++ [.object o]) st)

/-- The code of the values of a new table puts them into the table on the top. -/
def LfieldlistRuns (n : Nat) : Prop :=
  ∀ (fr : Frame ν κ) (items : Exps ν) (s : Parser) (env : Env ν κ) (temps : List (Slot ν κ))
    (o : Object ν κ) (st : Store ν κ), items.Fits →
    Placed image fr.unit s (codeLfieldlist ctx.name items s) →
    Matches s env (temps ++ [.object o]) →
    Leads (luaExecute ctx.host image) (fr.state s env (temps ++ [.object o]) st)
      ((evalItems ctx n items o env st).map fun st =>
        fr.state (codeLfieldlist ctx.name items s) env (temps ++ [.object o]) st)

/-- The end of a constructor leaves the table and what its function returns. -/
def ConstructorRuns (n : Nat) : Prop :=
  ∀ (fr : Frame ν κ) (object : Option Word) (s : Parser) (env : Env ν κ) (temps : List (Slot ν κ))
    (o : Object ν κ) (st : Store ν κ), Placed image fr.unit s (s.codeConstructor object) →
    Matches s env (temps ++ [.object o]) →
    Leads (luaExecute ctx.host image) (fr.state s env (temps ++ [.object o]) st)
      ((evalConstructor ctx n object o st).map fun r =>
        fr.state (s.codeConstructor object) env (temps ++ r.1.map .object) r.2)

/-- A call comes back with the values. -/
def CallRuns (n : Nat) : Prop :=
  ∀ (u off : Nat) (outer : List (Slot ν κ)) (f : Object ν κ) (x : Option Nat)
    (args : List (Object ν κ)) (base : Nat) (st : Store ν κ),
    OpCode.ofByte (image.code u off) = some .CALLFUNC →
    Leads (luaExecute ctx.host image) ⟨⟨u, off⟩, callStack outer f x args, base, st⟩
      ((callValue ctx n f args st).map fun r =>
        ⟨⟨u, off + 1⟩, outer ++ r.1.map .object, base, r.2⟩)

variable {ctx image} {n : Nat} {fr : Frame ν κ} {v : Var ν} {e l r : Exp ν} {es : Exps ν}
  {fields : Fields ν} {s s₁ s₂ s' : Parser} {env : Env ν κ} {temps : List (Slot ν κ)}
  {t : Target ν κ} {vs : List (Object ν κ)} {st st' : Store ν κ} {k : Int} {w : Word}
  {o : Object ν κ}

/-! ### What the parser knows -/

/-- The number of a variable tells what it denotes. -/
theorem eval_var_number (hlocal : s.localvar = env.map (·.1))
    (h : evalVar ctx n v env st = .ok (t, st')) : (codeVar ctx.name v s).1 = t.number := by
  cases n with
  | zero => cases h
  | succ n =>
      cases v with
      | name w =>
          rw [codeVar, hlocal]
          cases hname : luaLocalname (env.map (·.1)) w with
          | none =>
              simp only [evalVar, hname, Outcome.ok.injEq, Prod.mk.injEq] at h
              rw [← h.1]
              rfl
          | some i =>
              simp only [evalVar, hname, Outcome.ok.injEq, Prod.mk.injEq] at h
              rw [← h.1]
              rfl
      | index v e =>
          simp only [evalVar, Outcome.bind_eq] at h
          obtain ⟨_, _, h⟩ := Outcome.bind_eq_ok h
          obtain ⟨_, _, h⟩ := Outcome.bind_eq_ok h
          obtain ⟨_, _, h⟩ := Outcome.bind_eq_ok h
          cases h
          rfl
      | field v w =>
          simp only [evalVar, Outcome.bind_eq] at h
          obtain ⟨_, _, h⟩ := Outcome.bind_eq_ok h
          obtain ⟨_, _, h⟩ := Outcome.bind_eq_ok h
          cases h
          rfl

omit [Runtime ν] [DecidableEq κ] in
/-- What comes last gives the values. -/
theorem single_of_ok (h : (Outcome.ok ([o], st) : Outcome (List (Object ν κ) × Store ν κ)) =
    .ok (vs, st')) : ∃ v, vs = [v] :=
  ⟨o, (congrArg Prod.fst (Outcome.ok.inj h)).symm⟩

theorem eval_constructor_single (h : evalConstructor ctx n none o st = .ok (vs, st')) :
    ∃ v, vs = [v] := by
  cases n with
  | zero => cases h
  | succ n => exact single_of_ok h

/-- An expression that is no call has one value. -/
theorem eval_exp_single (h : evalExp ctx n e env st = .ok (vs, st')) (he : e.isCall = false) :
    ∃ v, vs = [v] := by
  induction n generalizing e st with
  | zero => cases h
  | succ n ih =>
      cases e with
      | paren e => exact ih h he
      | call f args => cases he
      | binary op l r =>
          simp only [evalExp, Outcome.bind_eq] at h
          obtain ⟨_, _, h⟩ := Outcome.bind_eq_ok h
          obtain ⟨_, _, h⟩ := Outcome.bind_eq_ok h
          obtain ⟨_, _, h⟩ := Outcome.bind_eq_ok h
          exact single_of_ok h
      | minus e =>
          simp only [evalExp, Outcome.bind_eq] at h
          obtain ⟨_, _, h⟩ := Outcome.bind_eq_ok h
          obtain ⟨_, _, h⟩ := Outcome.bind_eq_ok h
          exact single_of_ok h
      | plus e | not e =>
          simp only [evalExp, Outcome.bind_eq] at h
          obtain ⟨_, _, h⟩ := Outcome.bind_eq_ok h
          exact single_of_ok h
      | and l r | or l r =>
          simp only [evalExp, Outcome.bind_eq] at h
          obtain ⟨_, _, h⟩ := Outcome.bind_eq_ok h
          split at h
          · first
            | exact single_of_ok h
            | obtain ⟨_, _, h⟩ := Outcome.bind_eq_ok h
              exact single_of_ok h
          · first
            | exact single_of_ok h
            | obtain ⟨_, _, h⟩ := Outcome.bind_eq_ok h
              exact single_of_ok h
      | record object fields | list object items =>
          obtain rfl : object = none := Option.isSome_eq_false_iff.mp he |> Option.isNone_iff_eq_none.mp
          simp only [evalExp, Outcome.bind_eq] at h
          obtain ⟨_, _, h⟩ := Outcome.bind_eq_ok h
          obtain ⟨_, _, h⟩ := Outcome.bind_eq_ok h
          exact eval_constructor_single h
      | array =>
          simp only [evalExp, Outcome.bind_eq] at h
          obtain ⟨_, _, h⟩ := Outcome.bind_eq_ok h
          exact single_of_ok h
      | arrayOf e | var v =>
          simp only [evalExp, Outcome.bind_eq] at h
          obtain ⟨_, _, h⟩ := Outcome.bind_eq_ok h
          obtain ⟨_, _, h⟩ := Outcome.bind_eq_ok h
          exact single_of_ok h
      | number f | string text | nil => exact single_of_ok h

/-! ### Expressions in a row -/

/-- An expression as one value. -/
theorem one_runs (st : Store ν κ) (hexpr : ExprRuns ctx image n) (he : e.Fits)
    (h : Placed image fr.unit s ((codeExpr ctx.name e s).oneValue e.isCall))
    (hs : Matches s env temps) :
    Leads (luaExecute ctx.host image) (fr.state s env temps st)
      ((one (evalExp ctx n e env st)).map fun r =>
        fr.state ((codeExpr ctx.name e s).oneValue e.isCall) env (temps ++ [.object r.1]) r.2) := by
  have hcode := emits_expr ctx.name e s
  have hone := emits_one_value (s := codeExpr ctx.name e s) e.isCall
  have hleft := h.left hone.toGrows
  rw [one, Outcome.map_map]
  refine (hexpr fr e s env temps st he hleft hs).reaches fun r hr => ?_
  have hcut := reaches_cut ctx.host temps r.2 r.1 (n := 1)
    (h.right hcode hone.toGrows) (hcode.localvar.trans hs.localvar) ?_ ?_
  · rwa [adjust_one] at hcut
  · intro hcall
    rw [hcode.ntemp hleft.err, hs.ntemp, if_pos hcall, add_zero]
    rfl
  · intro hcall
    obtain ⟨v, hv⟩ := eval_exp_single hr hcall
    rw [hv]
    rfl

omit [DecidableEq κ] in
theorem Matches.one_value (hs : Matches s env temps)
    (h : Placed image fr.unit s ((codeExpr ctx.name e s).oneValue e.isCall)) (v : Object ν κ) :
    Matches ((codeExpr ctx.name e s).oneValue e.isCall) env (temps ++ [.object v]) :=
  hs.emits (emits_expr ctx.name e s).one_value h.err (by simp)

/-- A variable is pushed. -/
theorem pushvar_runs (hs : Matches s env temps)
    (h : Placed image fr.unit s ((codeVar ctx.name v s).2.luaPushvar (codeVar ctx.name v s).1))
    (ht : evalVar ctx n v env st = .ok (t, st')) :
    Leads (luaExecute ctx.host image)
      (fr.state (codeVar ctx.name v s).2 env (temps ++ t.slots) st')
      ((t.read env st').map fun r =>
        fr.state ((codeVar ctx.name v s).2.luaPushvar (codeVar ctx.name v s).1) env
          (temps ++ [.object r.1]) r.2) := by
  have hnumber := eval_var_number (s := s) hs.localvar ht
  have hvar := emits_var ctx.name v s
  have hpush := h.right hvar (emits_pushvar _).toGrows
  have hleft := h.left (emits_pushvar (codeVar ctx.name v s).1).toGrows
  rw [hnumber] at hpush ⊢
  refine leads_pushvar _ _ _ hpush (hs.emits hvar hleft.err ?_)
  rw [hnumber]
  cases t with
  | localVar i => simp [Target.slots, Target.number]; omega
  | globalVar w => simp [Target.slots, Target.number]; omega
  | indexed o ref => simp [Target.slots, Target.number]

/-- The code of a variable and its push. -/
theorem var_push_runs (hvar : VarRuns ctx image n) (hv : v.Fits) (hs : Matches s env temps)
    (h : Placed image fr.unit s ((codeVar ctx.name v s).2.luaPushvar (codeVar ctx.name v s).1)) :
    Leads (luaExecute ctx.host image) (fr.state s env temps st)
      (((evalVar ctx n v env st).bind fun r => r.1.read env r.2).map fun r =>
        fr.state ((codeVar ctx.name v s).2.luaPushvar (codeVar ctx.name v s).1) env
          (temps ++ [.object r.1]) r.2) := by
  rw [Outcome.map_bind]
  exact (hvar fr v s env temps st hv (h.left (emits_pushvar _).toGrows) hs).bind fun r hr =>
    pushvar_runs hs h hr

omit [DecidableEq κ] in
theorem Matches.var_push (hs : Matches s env temps)
    (h : Placed image fr.unit s ((codeVar ctx.name v s).2.luaPushvar (codeVar ctx.name v s).1))
    (o : Object ν κ) :
    Matches ((codeVar ctx.name v s).2.luaPushvar (codeVar ctx.name v s).1) env
      (temps ++ [.object o]) := by
  refine hs.emits ((emits_var ctx.name v s).trans (emits_pushvar _)) h.err ?_
  split <;> simp

theorem var_runs (hvar : VarRuns ctx image n) (hexpr : ExprRuns ctx image n) :
    VarRuns ctx image (n + 1) := by
  intro fr v s env temps st hv h hs
  cases v with
  | name w =>
      have hslots (t : Target ν κ) (ht : t.slots = []) : fr.state s env temps st =
          fr.state s env (temps ++ t.slots) st := by rw [ht, List.append_nil]
      have hsame : (codeVar ctx.name (.name w : Var ν) s).2 = s := by
        rw [codeVar]
        cases luaLocalname s.localvar w <;> rfl
      simp only [evalVar, hsame]
      cases luaLocalname (env.map (·.1)) w with
      | none => exact hslots (.globalVar w) rfl ▸ Leads.refl
      | some i => exact hslots (.localVar i) rfl ▸ Leads.refl
  | index v e =>
      obtain ⟨hfits, hfits'⟩ := hv
      have hpush := (emits_var ctx.name v s).trans
        (emits_pushvar (codeVar ctx.name v s).1)
      have hone := (emits_expr ctx.name e
        ((codeVar ctx.name v s).2.luaPushvar (codeVar ctx.name v s).1)).one_value
      have hleft := h.left hone.toGrows
      simp only [evalVar, Outcome.bind_eq, Outcome.map_bind]
      rw [← Outcome.bind_assoc]
      refine (var_push_runs hvar hfits hs hleft).bind fun r _ => ?_
      have hnext := one_runs r.2 hexpr hfits' (h.right hpush hone.toGrows)
        (hs.var_push hleft r.1)
      refine hnext.bind fun r' _ => ?_
      rw [List.append_assoc]
      exact Leads.refl
  | field v w =>
      have hpush := (emits_var ctx.name v s).trans
        (emits_pushvar (codeVar ctx.name v s).1)
      have hleft := h.left (emits_string ν).toGrows
      simp only [evalVar, Outcome.bind_eq, Outcome.map_bind]
      rw [← Outcome.bind_assoc]
      refine (var_push_runs (v := v) hvar hv hs hleft).bind fun r _ => ?_
      have hstring := reaches_string ctx.host env (temps ++ [.object r.1]) r.2
        (h.right hpush (emits_string ν).toGrows)
      rw [List.append_assoc] at hstring
      exact hstring.leads Leads.refl

/-! ### Operators -/

theorem binary_runs {op : BinOp} (hexpr : ExprRuns ctx image n) (hl : l.Fits) (hr : r.Fits)
    (h : Placed image fr.unit s (codeExpr ctx.name (.binary op l r) s))
    (hs : Matches s env temps) :
    Leads (luaExecute ctx.host image) (fr.state s env temps st)
      ((evalExp ctx (n + 1) (.binary op l r) env st).map fun r' =>
        fr.state (codeExpr ctx.name (.binary op l r) s) env (temps ++ r'.1.map .object) r'.2) := by
  have hl' := (emits_expr ctx.name l s).one_value
  have hr' := (emits_expr ctx.name r ((codeExpr ctx.name l s).oneValue l.isCall)).one_value
  have hops := h.left (emits_decr_ntemp (s := op.ops.foldl (fun s op => s.codeOp op)
    ((codeExpr ctx.name r ((codeExpr ctx.name l s).oneValue l.isCall)).oneValue r.isCall))
    zero_le_one).toGrows
  have hright := (hops.right hl' (hr'.trans (emits_ops _)).toGrows)
  have hleft := hops.left (hr'.trans (emits_ops op.ops)).toGrows
  simp only [evalExp, Outcome.bind_eq, Outcome.map_bind]
  refine (one_runs _ hexpr hl hleft hs).bind fun x _ => ?_
  refine (one_runs _ hexpr hr (hright.left (emits_ops op.ops).toGrows)
    (hs.one_value hleft x.1)).bind fun y _ => ?_
  exact (leads_ops (hright.right hr' (emits_ops op.ops).toGrows)).bind fun v _ => Leads.refl

/-- An operation on the value of an expression. -/
theorem unary_runs (op : OpCode) (st : Store ν κ)
    {f : Object ν κ → Store ν κ → Outcome (Object ν κ × Store ν κ)}
    (hexpr : ExprRuns ctx image n) (he : e.Fits)
    (h : Placed image fr.unit s (((codeExpr ctx.name e s).oneValue e.isCall).codeOp op))
    (hs : Matches s env temps)
    (hop : ∀ m : Machine ν κ, execute ctx.host image op m = .ofOutcome (m.unary (f · m.store))) :
    Leads (luaExecute ctx.host image) (fr.state s env temps st)
      (((one (evalExp ctx n e env st)).bind fun r => f r.1 r.2).map fun r =>
        fr.state (((codeExpr ctx.name e s).oneValue e.isCall).codeOp op) env
          (temps ++ [.object r.1]) r.2) := by
  have he' := (emits_expr ctx.name e s).one_value
  rw [Outcome.map_bind]
  refine (one_runs _ hexpr he (h.left (emits_op op).toGrows) hs).bind fun r _ => ?_
  exact leads_unary (h.right he' (emits_op op).toGrows) fun m hm => by rw [hop, hm]

/-- `and` and `or`: the second operand is not computed if the first one is nil, or is not. -/
theorem short_circuit_runs (nil : Bool) (st : Store ν κ) (hexpr : ExprRuns ctx image n) (hl : l.Fits) (hr : r.Fits)
    (hs : Matches s env temps) {a t : Parser}
    (ha : a = ((codeExpr ctx.name l s).oneValue l.isCall).alignN 2)
    (ht : t = (codeExpr ctx.name r (((openSpace a).codeOp .POP).decrNtemp 1)).oneValue r.isCall)
    (h : Placed image fr.unit s
      (t.setJump a.pc (if nil then .ONFJMP else .ONTJMP) (t.pc - (a.pc + 3)))) :
    Leads (luaExecute ctx.host image) (fr.state s env temps st)
      ((one (evalExp ctx n l env st)).bind fun x =>
        if x.1.isNil = nil then .ok (fr.state t env (temps ++ [.object x.1]) x.2)
        else (one (evalExp ctx n r env x.2)).map fun y =>
          fr.state t env (temps ++ [.object y.1]) y.2) := by
  have hl' := (emits_expr ctx.name l s).one_value
  have hpop : Emits (openSpace a) (((openSpace a).codeOp .POP).decrNtemp 1) (0 + -1) :=
    (emits_op .POP).trans (emits_decr_ntemp zero_le_one)
  have hr' := (emits_expr ctx.name r (((openSpace a).codeOp .POP).decrNtemp 1)).one_value
  have htotal : Emits s a (1 + 0) := by
    rw [ha]
    exact hl'.trans (emits_align 2)
  have hgrows : Grows (openSpace a) t := ht ▸ (hpop.trans hr').toGrows
  have hopen : (openSpace a).pc = a.pc + 3 := rfl
  have herr : a.err = false := emits_space.err (hgrows.err h.err)
  obtain ⟨hplaced, hjump, hrest⟩ := h.jump htotal.toGrows hgrows (htotal.depth herr h.depth)
    (by have := htotal.pc; omega)
  have hleft : Placed image fr.unit s ((codeExpr ctx.name l s).oneValue l.isCall) :=
    Placed.left (ha ▸ hplaced) (emits_align 2).toGrows
  refine (one_runs _ hexpr hl hleft hs).bind fun x _ => ?_
  have halign : Placed image fr.unit ((codeExpr ctx.name l s).oneValue l.isCall)
      (((codeExpr ctx.name l s).oneValue l.isCall).alignN 2) :=
    Placed.right (ha ▸ hplaced) hl' (emits_align 2).toGrows
  refine (reaches_align halign).leads ?_
  rw [← ha]
  have hend := hgrows.pc
  refine (reaches_onjmp t (openSpace a) hjump (by omega) hopen).leads ?_
  split
  case isTrue => exact Leads.refl
  case isFalse =>
    have hpopped : Placed image fr.unit (openSpace a) (((openSpace a).codeOp .POP).decrNtemp 1) :=
      hrest.left (ht ▸ hr'.toGrows)
    refine (reaches_pop (hpopped.left (emits_decr_ntemp zero_le_one).toGrows)).leads ?_
    have hmatches : Matches (((openSpace a).codeOp .POP).decrNtemp 1) env temps :=
      hs.emits ((htotal.trans emits_space).trans hpop) hpopped.err (by omega)
    subst ht
    exact one_runs _ hexpr hr (hrest.right hpop hr'.toGrows) hmatches

/-! ### Lists -/

/-- A list that does not end with a call has a value for each expression. -/
theorem eval_exps_length (h : evalExps ctx n es env st = .ok (vs, st')) (hes : es.isCall = false) :
    vs.length = es.length := by
  cases n with
  | zero => cases h
  | succ n =>
      cases es with
      | empty =>
          cases h
          rfl
      | snoc es e =>
          simp only [evalExps, Outcome.bind_eq] at h
          obtain ⟨us, hus, h⟩ := Outcome.bind_eq_ok h
          obtain ⟨r, hr, h⟩ := Outcome.bind_eq_ok h
          obtain ⟨v, hv⟩ := eval_exp_single hr hes
          cases h
          rw [hv, List.length_append, adjust_length]
          rfl

theorem exprlist_runs (hlist : ExprlistRuns ctx image n) (hexpr : ExprRuns ctx image n) :
    ExprlistRuns ctx image (n + 1) := by
  intro fr es s env temps st hes h hs
  cases es with
  | empty =>
      simp only [evalExps, Outcome.map_ok, List.map_nil, List.append_nil]
      exact Leads.refl
  | snoc es e =>
      have hes' := emits_exprlist ctx.name es s
      have hcut := emits_one_value (s := codeExprlist ctx.name es s) es.isCall
      have he := emits_expr ctx.name e ((codeExprlist ctx.name es s).oneValue es.isCall)
      have hfirst := h.left he.toGrows
      have hleft := hfirst.left hcut.toGrows
      simp only [evalExps, Outcome.bind_eq, Outcome.map_bind]
      refine (hlist fr es s env temps st hes.1 hleft hs).bind fun us hus => ?_
      have hntemp := hes'.ntemp hleft.err
      rw [hs.ntemp] at hntemp
      have hreach := reaches_cut ctx.host temps us.2 us.1 (n := es.length) (hfirst.right hes' hcut.toGrows) (hes'.localvar.trans hs.localvar)
        (fun hcall => by
          simp only [Exps.temps, hcall, if_true] at hntemp
          omega)
        (eval_exps_length hus)
      refine hreach.leads ?_
      have hmatches : Matches ((codeExprlist ctx.name es s).oneValue es.isCall) env
          (temps ++ (adjust es.length us.1).map .object) := by
        refine hs.emits (hes'.trans hcut) hfirst.err ?_
        simp only [Exps.temps, List.length_append, List.length_map, adjust_length, Nat.cast_add]
        omega
      refine (hexpr fr e _ env _ us.2 hes.2 (h.right (hes'.trans hcut) he.toGrows) hmatches).bind
        fun r _ => ?_
      rw [List.append_assoc, ← List.map_append]
      exact Leads.refl

theorem ffieldlist_runs (hlist : FfieldlistRuns ctx image n) (hexpr : ExprRuns ctx image n) :
    FfieldlistRuns ctx image (n + 1) := by
  intro fr fields s env temps o st hfields h hs
  cases fields with
  | empty => exact Leads.refl
  | snoc fields w e =>
      have hfields' := emits_ffieldlist ctx.name fields s
      have hkey : Emits (codeFfieldlist ctx.name fields s)
          ((codeFfieldlist ctx.name fields s).codeString ν (ctx.name w)) 1 := emits_string ν
      have he := (emits_expr ctx.name e
        ((codeFfieldlist ctx.name fields s).codeString ν (ctx.name w))).one_value
      have hstore := h.left (emits_decr_ntemp (k := 2) zero_le_two).toGrows
      have hrest := hstore.right hfields' (hkey.trans (he.trans (emits_op .STOREFIELD))).toGrows
      have hvalue := hrest.right hkey (he.trans (emits_op .STOREFIELD)).toGrows
      have hleft := hstore.left (hkey.trans (he.trans (emits_op .STOREFIELD))).toGrows
      have hkey' := hrest.left (he.trans (emits_op .STOREFIELD)).toGrows
      simp only [evalFields, Outcome.bind_eq, Outcome.map_bind]
      refine (hlist fr fields s env temps o st hfields.1 hleft hs).bind fun st₁ _ => ?_
      refine (reaches_string _ _ _ _ hkey').leads ?_
      have hmatches : Matches ((codeFfieldlist ctx.name fields s).codeString ν (ctx.name w)) env
          (temps ++ [.object o] ++ [.object (.string (ctx.name w))]) :=
        hs.emits (hfields'.trans hkey) hkey'.err (by
          simp only [List.length_append, List.length_singleton, Nat.cast_add, Nat.cast_one]
          ring)
      refine (one_runs _ hexpr hfields.2 (hvalue.left (emits_op .STOREFIELD).toGrows)
        hmatches).bind fun r _ => ?_
      exact leads_storefield (hvalue.right he (emits_op .STOREFIELD).toGrows)

omit [DecidableEq κ] in
/-- Every value of a list takes a byte at least. -/
theorem lfieldlist_length (name : Word → Text) (items : Exps ν) (s : Parser) :
    s.pc + items.length ≤ (codeLfieldlist name items s).pc := by
  induction hcount : items.length generalizing items with
  | zero => exact (emits_lfieldlist name items s).pc
  | succ count ih =>
      cases items with
      | empty => cases hcount
      | snoc items e =>
          have hitems := ih items (Nat.succ.inj hcount)
          have hvalue := ((emits_number (s := codeLfieldlist name items s)
            (Runtime.ofInt (items.length + 1 : Nat) : ν)).trans (emits_expr name e _).one_value).pc
          simp only [codeLfieldlist, decrNtemp, codeOp, codeByte]
          omega

theorem lfieldlist_runs (hlist : LfieldlistRuns ctx image n) (hexpr : ExprRuns ctx image n) :
    LfieldlistRuns ctx image (n + 1) := by
  intro fr items s env temps o st hitems h hs
  cases items with
  | empty => exact Leads.refl
  | snoc items e =>
      obtain ⟨key, hk⟩ : ∃ key : ν, Runtime.ofInt (items.length + 1 : Nat) = key := ⟨_, rfl⟩
      have hitems' := emits_lfieldlist ctx.name items s
      have hkey := emits_number (s := codeLfieldlist ctx.name items s) key
      have he := (emits_expr ctx.name e ((codeLfieldlist ctx.name items s).codeNumber key)).one_value
      have htotal : Emits s (codeLfieldlist ctx.name (.snoc items e) s) 0 :=
        emits_lfieldlist ctx.name _ s
      have hless : (items.length + 1 : Nat) < 2 ^ 16 := by
        have hlength := lfieldlist_length ctx.name (.snoc items e) s
        have hroom := htotal.room h.err h.high
        have hlow := h.low
        simp only [Exps.length, MAXCODE] at hlength hroom
        omega
      have hstore : Placed image fr.unit s (((codeExpr ctx.name e ((codeLfieldlist ctx.name items
          s).codeNumber key)).oneValue e.isCall).codeOp .STOREFIELD) :=
        Placed.left (by rw [← hk]; exact h) (emits_decr_ntemp (k := 2) zero_le_two).toGrows
      have hrest := hstore.right hitems' (hkey.trans (he.trans (emits_op .STOREFIELD))).toGrows
      have hvalue := hrest.right hkey (he.trans (emits_op .STOREFIELD)).toGrows
      have hleft := hstore.left (hkey.trans (he.trans (emits_op .STOREFIELD))).toGrows
      have hkey' := hrest.left (he.trans (emits_op .STOREFIELD)).toGrows
      simp only [evalItems, Outcome.bind_eq, Outcome.map_bind, codeLfieldlist, hk]
      refine (hlist fr items s env temps o st hitems.1 hleft hs).bind fun st₁ _ => ?_
      have hliteral : LiteralOk key := hk ▸ literal_of_int (by omega) (by omega)
      refine (reaches_number hkey' hliteral).leads ?_
      have hmatches : Matches ((codeLfieldlist ctx.name items s).codeNumber key) env
          (temps ++ [.object o] ++ [.object (.number (some key))]) :=
        hs.emits (hitems'.trans hkey) hkey'.err (by
          simp only [List.length_append, List.length_singleton, Nat.cast_add, Nat.cast_one]
          ring)
      refine (one_runs _ hexpr hitems.2 (hvalue.left (emits_op .STOREFIELD).toGrows)
        hmatches).bind fun r _ => ?_
      exact leads_storefield (hvalue.right he (emits_op .STOREFIELD).toGrows)

/-! ### Calls -/

/-- A call behind its parameters. -/
theorem callfunc_runs {f : Object ν κ} (args : List (Object ν κ)) (hcall : CallRuns ctx image n)
    (h : Placed image fr.unit s (s.codeOp .CALLFUNC)) :
    Leads (luaExecute ctx.host image)
      (fr.state s env (temps ++ [.object f] ++ [.mark none] ++ args.map .object) st)
      ((callValue ctx n f args st).map fun r =>
        fr.state (s.codeOp .CALLFUNC) env (temps ++ r.1.map .object) r.2) := by
  have hstate := hcall fr.unit s.pc (fr.below ++ env.map (fun p => .object p.2) ++ temps) f none args
    fr.below.length st h.opcode
  simp only [callStack, List.append_assoc] at hstate
  simp only [Frame.state, List.append_assoc]
  exact hstate

theorem constructor_runs (hcall : CallRuns ctx image n) : ConstructorRuns ctx image (n + 1) := by
  intro fr object s env temps o st h hs
  cases object with
  | none => exact Leads.refl
  | some w =>
      have hnumber : (Target.globalVar w : Target ν κ).number = w.toNat + 1 := rfl
      have hslots : (Target.globalVar w : Target ν κ).slots = [] := rfl
      have hpush : Emits s (s.luaPushvar (w.toNat + 1)) 1 := (emits_pushvar _).of_eq (if_neg (by omega))
      obtain ⟨s₁, hs₁⟩ : ∃ s₁, s.luaPushvar (w.toNat + 1) = s₁ := ⟨_, rfl⟩
      have hmark := (emits_op (s := s₁) .PUSHMARK).trans emits_incr_ntemp
      have hobject := (emits_op (s := (s₁.codeOp .PUSHMARK).incrNtemp) .PUSHOBJECT).trans
        emits_incr_ntemp
      have hcode : s.codeConstructor (some w) = ((((s₁.codeOp .PUSHMARK).incrNtemp.codeOp
          .PUSHOBJECT).incrNtemp.codeOp .CALLFUNC).decrNtemp 4) := by
        rw [← hs₁]
        rfl
      rw [hcode] at h ⊢
      rw [hs₁] at hpush
      have hcalled := h.left (emits_decr_ntemp (k := 4) (by decide)).toGrows
      have hleft := hcalled.left (hmark.trans (hobject.trans (emits_op .CALLFUNC))).toGrows
      have hrest := hcalled.right hpush (hmark.trans (hobject.trans (emits_op .CALLFUNC))).toGrows
      have hcopy := hrest.right hmark (hobject.trans (emits_op .CALLFUNC)).toGrows
      simp only [evalConstructor, Outcome.bind_eq, Outcome.map_bind]
      have hplaced : Placed image fr.unit s
          (s.luaPushvar (Target.globalVar w : Target ν κ).number) := by
        rw [hnumber, hs₁]
        exact hleft
      have hread := leads_pushvar ctx.host (temps ++ [.object o]) st (t := .globalVar w) hplaced
        (by rwa [hslots, List.append_nil])
      rw [Target.read, Outcome.map_ok, hslots, List.append_nil, hnumber, hs₁] at hread
      refine hread.trans ?_
      refine (reaches_pushmark (hrest.left
        (emits_incr_ntemp.trans (hobject.trans (emits_op .CALLFUNC))).toGrows)).leads ?_
      rw [← state_incr_ntemp]
      refine (reaches_pushobject (hcopy.left
        (emits_incr_ntemp.trans (emits_op .CALLFUNC)).toGrows)).leads ?_
      rw [← state_incr_ntemp]
      refine (callfunc_runs [o] hcall
        (hcopy.right hobject (emits_op .CALLFUNC).toGrows)).bind fun r _ => ?_
      rw [List.append_assoc]
      exact Leads.refl

theorem call_runs {f : Var ν} {args : Exps ν} (hvar : VarRuns ctx image n)
    (hlist : ExprlistRuns ctx image n) (hcall : CallRuns ctx image n) (hf : f.Fits)
    (hargs : args.Fits) (h : Placed image fr.unit s (codeExpr ctx.name (.call f args) s))
    (hs : Matches s env temps) :
    Leads (luaExecute ctx.host image) (fr.state s env temps st)
      ((evalExp ctx (n + 1) (.call f args) env st).map fun r =>
        fr.state (codeExpr ctx.name (.call f args) s) env (temps ++ r.1.map .object) r.2) := by
  obtain ⟨s₁, hs₁⟩ : ∃ s₁, (codeVar ctx.name f s).2.luaPushvar (codeVar ctx.name f s).1 = s₁ :=
    ⟨_, rfl⟩
  have hpush : Emits s s₁ _ := hs₁ ▸ (emits_var ctx.name f s).trans (emits_pushvar _)
  have hmark := (emits_op (s := s₁) .PUSHMARK).trans emits_incr_ntemp
  have hargs' := emits_exprlist ctx.name args (s₁.codeOp .PUSHMARK).incrNtemp
  have hcode : codeExpr ctx.name (.call f args) s =
      { (codeExprlist ctx.name args (s₁.codeOp .PUSHMARK).incrNtemp).codeOp .CALLFUNC with
        ntemp := (s₁.codeOp .PUSHMARK).ntemp - 1 } := by
    rw [← hs₁]
    rfl
  have hcalled : Placed image fr.unit s
      ((codeExprlist ctx.name args (s₁.codeOp .PUSHMARK).incrNtemp).codeOp .CALLFUNC) :=
    { hcode ▸ h with }
  have hleft := hcalled.left (hmark.trans (hargs'.trans (emits_op .CALLFUNC))).toGrows
  have hrest := hcalled.right hpush (hmark.trans (hargs'.trans (emits_op .CALLFUNC))).toGrows
  have hlist' := hrest.right hmark (hargs'.trans (emits_op .CALLFUNC)).toGrows
  simp only [evalExp, Outcome.bind_eq, Outcome.map_bind]
  rw [← Outcome.bind_assoc]
  refine (var_push_runs hvar hf hs (by rw [hs₁]; exact hleft)).bind fun o _ => ?_
  have hmatches : Matches s₁ env (temps ++ [.object o.1]) := by
    rw [← hs₁] at hleft ⊢
    exact hs.var_push hleft o.1
  rw [hs₁]
  refine (reaches_pushmark (hrest.left
    (emits_incr_ntemp.trans (hargs'.trans (emits_op .CALLFUNC))).toGrows)).leads ?_
  rw [← state_incr_ntemp]
  have hmatches' : Matches (s₁.codeOp .PUSHMARK).incrNtemp env
      (temps ++ [.object o.1] ++ [.mark none]) :=
    hmatches.emits hmark (hrest.left (hargs'.trans (emits_op .CALLFUNC)).toGrows).err (by
          simp only [List.length_append, List.length_singleton, Nat.cast_add, Nat.cast_one]
          ring)
  refine (hlist fr args _ env _ o.2 hargs (hlist'.left (emits_op .CALLFUNC).toGrows)
    hmatches').bind fun vs _ => ?_
  rw [hcode]
  exact callfunc_runs _ hcall (hlist'.right hargs' (emits_op .CALLFUNC).toGrows)

/-! ### All expressions -/

/-- A new table, whose size is written last. -/
theorem table_runs (host : Host ν κ) (temps : List (Slot ν κ)) (st : Store ν κ) {m : Nat}
    (h : Placed image fr.unit s (s₂.setByte (s.pc + 1) (BitVec.ofNat 8 m)))
    (hs₁ : ((s.codeOp .PUSHBYTE).codeByte 0#8).incrNtemp = s₁)
    (h₂ : Grows (s₁.codeOp .CREATEARRAY) s₂) :
    Leads (luaExecute host image) (fr.state s env temps st)
      ((st.createArray (.number (some (Runtime.ofInt (m % 2 ^ 8 : Nat))))).map fun r =>
        fr.state (s₁.codeOp .CREATEARRAY) env (temps ++ [.object r.1]) r.2) := by
  subst hs₁
  obtain ⟨hop, hbyte, hplaced⟩ := h.table_size ((emits_op .CREATEARRAY).toGrows.trans h₂)
  have hpush : luaExecute host image (fr.state s env temps st) =
      .go (fr.state ((s.codeOp .PUSHBYTE).codeByte 0#8).incrNtemp env
        (temps ++ [.object (.number (some (Runtime.ofInt (m % 2 ^ 8 : Nat))))]) st) := by
    refine (execute_at hop).trans ?_
    simp only [execute, Frame.state] at hbyte ⊢
    rw [hbyte, BitVec.toNat_ofNat]
    refine congrArg Next.go (state_push (s := s) ?_)
    unfold incrNtemp
    split <;> rfl
  refine Leads.of_go hpush ?_
  exact leads_unary (f := st.createArray) (hplaced.left h₂) fun m hm => by rw [← hm]; rfl

/-- The constructor of a table behind its fields. -/
theorem record_runs {object : Option Word} {m : Nat} (st : Store ν κ)
    (put : Object ν κ → Store ν κ → Outcome (Store ν κ))
    (hconstructor : ConstructorRuns ctx image n)
    (hs₁ : ((s.codeOp .PUSHBYTE).codeByte 0#8).incrNtemp = s₁)
    (h₂ : Emits (s₁.codeOp .CREATEARRAY) s₂ 0)
    (hput : ∀ (o : Object ν κ) (st : Store ν κ),
      Placed image fr.unit (s₁.codeOp .CREATEARRAY) s₂ →
      Matches (s₁.codeOp .CREATEARRAY) env (temps ++ [.object o]) →
      Leads (luaExecute ctx.host image)
        (fr.state (s₁.codeOp .CREATEARRAY) env (temps ++ [.object o]) st)
        ((put o st).map fun st => fr.state s₂ env (temps ++ [.object o]) st))
    (h : Placed image fr.unit s ((s₂.setByte (s.pc + 1) (BitVec.ofNat 8 m)).codeConstructor object))
    (hs : Matches s env temps) :
    Leads (luaExecute ctx.host image) (fr.state s env temps st)
      (((st.createArray (.number (some (Runtime.ofInt (m % 2 ^ 8 : Nat))))).bind fun r =>
        (put r.1 r.2).bind fun st => evalConstructor ctx n object r.1 st).map fun r =>
          fr.state ((s₂.setByte (s.pc + 1) (BitVec.ofNat 8 m)).codeConstructor object) env
            (temps ++ r.1.map .object) r.2) := by
  have hsize : Emits s (s₁.codeOp .CREATEARRAY) 1 := hs₁ ▸
    (((emits_op .PUSHBYTE).trans emits_byte).trans emits_incr_ntemp).trans (emits_op .CREATEARRAY)
  have hend := emits_constructor (s := s₂.setByte (s.pc + 1) (BitVec.ofNat 8 m)) object
  have htable := h.left hend.toGrows
  have hbody : Emits s (s₂.setByte (s.pc + 1) (BitVec.ofNat 8 m)) (1 + 0) :=
    (hsize.trans h₂).set_byte (Nat.le_succ _)
  have hplaced : Placed image fr.unit (s₁.codeOp .CREATEARRAY) s₂ := by
    subst hs₁
    obtain ⟨-, -, hrest⟩ := htable.table_size ((emits_op .CREATEARRAY).trans h₂).toGrows
    exact hrest.right (emits_op .CREATEARRAY) h₂.toGrows
  simp only [Outcome.map_bind]
  refine (table_runs ctx.host temps st htable hs₁ h₂.toGrows).bind fun r _ => ?_
  have hmatches : Matches (s₁.codeOp .CREATEARRAY) env (temps ++ [.object r.1]) :=
    hs.emits hsize (h₂.err htable.err) (by simp)
  refine (hput r.1 r.2 hplaced hmatches).bind fun st' _ => ?_
  exact hconstructor fr object _ env temps r.1 st' (h.right hbody hend.toGrows)
    (hs.emits hbody htable.err (by simp))

theorem expr_runs (hvar : VarRuns ctx image n) (hexpr : ExprRuns ctx image n)
    (hlist : ExprlistRuns ctx image n) (hfields : FfieldlistRuns ctx image n)
    (hitems : LfieldlistRuns ctx image n) (hconstructor : ConstructorRuns ctx image n)
    (hcall : CallRuns ctx image n) : ExprRuns ctx image (n + 1) := by
  intro fr e s env temps st he h hs
  cases e with
  | paren e => exact hexpr fr e s env temps st he h hs
  | binary op l r => exact binary_runs hexpr he.1 he.2 h hs
  | plus e =>
      simp only [evalExp, Outcome.bind_eq, Outcome.map_bind]
      exact (one_runs (e := e) st hexpr he h hs).bind fun r _ => Leads.refl
  | minus e =>
      have hrun := unary_runs .MINUSOP st (e := e)
        (f := fun o st => (minusop o).map (·, st)) hexpr he h hs fun _ => rfl
      refine (congrArg (Leads _ _) ?_).mpr hrun
      simp only [evalExp, Outcome.bind_eq, Outcome.map_bind]
      congr 1
      funext r
      cases minusop r.1 <;> rfl
  | not e =>
      have hrun := unary_runs .NOTOP st (e := e) (f := fun o st => .ok (notop o, st)) hexpr he h hs fun _ => rfl
      simp only [evalExp, Outcome.bind_eq, Outcome.map_bind] at hrun ⊢
      exact hrun
  | and l r =>
      have hrun := short_circuit_runs true st hexpr he.1 he.2 hs rfl rfl h
      refine (congrArg (Leads _ _) ?_).mpr hrun
      simp only [evalExp, Outcome.bind_eq, Outcome.map_bind]
      congr 1
      funext x
      split
      · rfl
      · cases one (evalExp ctx n r env x.2) <;> rfl
  | or l r =>
      have hrun := short_circuit_runs false st hexpr he.1 he.2 hs rfl rfl h
      refine (congrArg (Leads _ _) ?_).mpr hrun
      simp only [evalExp, Outcome.bind_eq, Outcome.map_bind]
      congr 1
      funext x
      cases x.1.isNil with
      | false => rfl
      | true => cases one (evalExp ctx n r env x.2) <;> rfl
  | record object fields =>
      have hrun := record_runs (m := fields.length) st
        (fun o st => evalFields ctx n fields o env st) hconstructor rfl
        (emits_ffieldlist ctx.name fields _)
        (fun o st hplaced hmatches => hfields fr fields _ env temps o st he hplaced hmatches) h hs
      simp only [evalExp, Outcome.bind_eq]
      exact hrun
  | list object items =>
      have hrun := record_runs (m := items.length) st
        (fun o st => evalItems ctx n items o env st) hconstructor rfl
        (emits_lfieldlist ctx.name items _)
        (fun o st hplaced hmatches => hitems fr items _ env temps o st he hplaced hmatches) h hs
      simp only [evalExp, Outcome.bind_eq]
      exact hrun
  | array =>
      have hpush := (emits_op (s := s) .PUSHNIL).trans emits_incr_ntemp
      have hleft := h.left (emits_op .CREATEARRAY).toGrows
      simp only [evalExp, Outcome.bind_eq, Outcome.map_bind]
      refine (reaches_push (v := .nil none) (hleft.left emits_incr_ntemp.toGrows)
        fun _ => rfl).leads ?_
      rw [← state_incr_ntemp]
      exact (leads_unary (f := st.createArray) (h.right hpush (emits_op .CREATEARRAY).toGrows)
        fun m hm => by rw [← hm]; rfl).bind fun r _ => Leads.refl
  | arrayOf e =>
      have hrun := unary_runs .CREATEARRAY st (e := e) (f := fun o st => st.createArray o) hexpr he h
        hs fun _ => rfl
      refine (congrArg (Leads _ _) ?_).mpr hrun
      simp only [evalExp, Outcome.bind_eq, Outcome.map_bind]
      congr 1
      funext r
      cases r.2.createArray r.1 <;> rfl
  | var v =>
      simp only [evalExp, Outcome.bind_eq, Outcome.map_bind]
      rw [← Outcome.bind_assoc]
      exact (var_push_runs hvar he hs h).bind fun r _ => Leads.refl
  | number f => exact (reaches_number h he).leads Leads.refl
  | string text => exact (reaches_string _ _ _ _ h).leads Leads.refl
  | nil =>
      refine (reaches_push (v := .nil none) (h.left emits_incr_ntemp.toGrows) fun _ => rfl).leads ?_
      rw [← state_incr_ntemp]
      exact Leads.refl
  | call f args => exact call_runs hvar hlist hcall he.1 he.2 h hs

end Sirius.Lua
