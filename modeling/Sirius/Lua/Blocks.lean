import Mathlib.Tactic
import Sirius.Lua.Assignments

/-!
# The code of every statement

One fact for each kind of statement: with fuel `n + 1` its code does what it means, if that is so
for its parts with fuel `n`. A loop goes back to the state of the parser in which it started.
-/

namespace Sirius.Lua

open Library Sirius.Lua.Parser

variable {ν κ : Type} [Runtime ν] [DecidableEq κ] {ctx : Context ν κ} {image : Image} {n : Nat}
  {fr : Frame ν κ} {s s₁ s₂ s' : Parser} {env env' : Env ν κ} {st st' : Store ν κ}

/-! ### Assignments, calls and declarations -/

omit [DecidableEq κ] in
theorem eval_vars_length {vs : Vars ν} {ts : List (Target ν κ)} {ctx : Context ν κ} [DecidableEq κ]
    (h : evalVars ctx n vs env st = .ok (ts, st')) : 0 < ts.length := by
  cases n with
  | zero => cases h
  | succ n =>
      cases vs with
      | one v =>
          simp only [evalVars, Outcome.bind_eq] at h
          obtain ⟨_, _, h⟩ := Outcome.bind_eq_ok h
          cases h
          exact Nat.one_pos
      | snoc vs v =>
          simp only [evalVars, Outcome.bind_eq] at h
          obtain ⟨_, _, h⟩ := Outcome.bind_eq_ok h
          obtain ⟨_, _, h⟩ := Outcome.bind_eq_ok h
          cases h
          simp

theorem assign_runs {vs : Vars ν} {es : Exps ν} {e : Exp ν} (hvars : VarlistRuns ctx image n)
    (hlist : ExprlistRuns ctx image n) (hfits : vs.Fits ∧ es.Fits ∧ e.Fits)
    (h : Placed image fr.unit s (codeStat ctx.name (.assign vs es e) s))
    (hlocal : s.localvar = env.map (·.1)) (hn : 0 ≤ s.ntemp) :
    Leads (luaExecute ctx.host image) (fr.state s env [] st)
      ((evalStat ctx (n + 1) (.assign vs es e) env st).bind
        (Flow.after fr (codeStat ctx.name (.assign vs es e) s))) := by
  obtain ⟨s₀, hs₀⟩ : ∃ s₀, { s with ntemp := 0 } = s₀ := ⟨_, rfl⟩
  obtain ⟨k, hk⟩ : ∃ k, (codeVarlist ctx.name vs s₀).1 = k := ⟨_, rfl⟩
  obtain ⟨s₁, hs₁⟩ : ∃ s₁, (codeVarlist ctx.name vs s₀).2 = s₁ := ⟨_, rfl⟩
  obtain ⟨s₂, hs₂⟩ : ∃ s₂, codeExprlist ctx.name (.snoc es e) s₁ = s₂ := ⟨_, rfl⟩
  have hcode : codeStat ctx.name (.assign vs es e) s = codeAssign k e.isCall s₂ := by
    rw [← hs₂, ← hs₁, ← hk, ← hs₀]
    rfl
  have hstart : fr.state s env [] st = fr.state s₀ env [] st := by rw [← hs₀]; rfl
  have hvars' := emits_varlist ctx.name vs s₀
  have hlist' := emits_exprlist ctx.name (.snoc es e) s₁
  have hassign := emits_assign (s := s₂) k e.isCall
  rw [hcode] at h ⊢
  rw [hstart]
  replace h : Placed image fr.unit s₀ (codeAssign k e.isCall s₂) := hs₀ ▸ h.restart hn
  have hmatches : Matches s₀ env ([] : List (Slot ν κ)) := hs₀ ▸ Matches.restart hlocal
  rw [hs₁, hk] at hvars'
  rw [hs₂] at hlist'
  have hplaced₂ := h.left hassign.toGrows
  have hplaced₁ := hplaced₂.left hlist'.toGrows
  have hbehind : Placed image fr.unit s₁ (codeAssign k e.isCall s₂) :=
    Placed.right (s := { s₀ with varbuffer := s₁.varbuffer }) { h with } hvars'
      (hlist'.trans hassign).toGrows
  have hlast := hbehind.right hlist' hassign.toGrows
  simp only [evalStat, Outcome.bind_eq, Outcome.bind_assoc]
  refine (hvars fr vs s₀ env st hfits.1 (by rw [hs₁]; exact hplaced₁) hmatches).bind fun r hr => ?_
  obtain ⟨hcollected, hexists⟩ := varlist_collected hmatches.localvar
    (by rw [hs₁]; exact hplaced₁.err) hr
  rw [hs₁, hk] at hcollected
  rw [hs₁]
  have hmatches₁ : Matches s₁ env (r.1.flatMap Target.slots) := by
    have hbuffer : Matches { s₀ with varbuffer := s₁.varbuffer } env ([] : List (Slot ν κ)) :=
      ⟨hmatches.localvar, hmatches.ntemp⟩
    refine hbuffer.emits hvars' hplaced₁.err ?_
    rw [flat_slots_length, ← hcollected.indexed, List.length_nil]
    push_cast
    ring
  refine (hlist fr (.snoc es e) s₁ env _ r.2 hfits.2 (by
    rw [hs₂]; exact hbehind.left hassign.toGrows) hmatches₁).bind fun us hus => ?_
  rw [hs₂]
  have hlocal₂ : s₂.localvar = env.map (·.1) := hlist'.localvar.trans hmatches₁.localvar
  have hntemp₂ : s₂.ntemp = k * 2 + (Exps.snoc es e).temps := by
    rw [hlist'.ntemp hplaced₂.err, hmatches₁.ntemp, flat_slots_length, ← hcollected.indexed]
    push_cast
    rfl
  have htemps := (Exps.snoc es e).temps_nonneg
  have hdepth : (s₂.localvar.length : Int) ≤ MAXSLOTS := by
    have := hlast.depth
    omega
  have hcollected₂ : Collected s₂ k r.1 :=
    ⟨hlist'.varbuffer.trans hcollected.varbuffer, hcollected.few, hcollected.indexed⟩
  obtain ⟨s₃, hs₃⟩ : ∃ s₃, (if e.isCall ∨ (s₂.varbuffer.length : Int) ≠ s₂.ntemp - k * 2 then
      s₂.luaCodeadjust (k * 2 + s₂.varbuffer.length) else s₂) = s₃ := ⟨_, rfl⟩
  have hadjust : Emits s₂ s₃ 0 := by
    rw [← hs₃]
    split
    · exact emits_adjust
    · exact .refl
  obtain ⟨i, hi⟩ : ∃ i, r.1.length = i + 1 :=
    ⟨r.1.length - 1, by have := eval_vars_length hr; omega⟩
  have hlength : s₂.varbuffer.length = i + 1 := by
    rw [hcollected₂.varbuffer, List.length_map, hi]
  obtain ⟨s₄, hs₄⟩ : ∃ s₄, codeStores (i + 1) s₃ = s₄ := ⟨_, rfl⟩
  have hstores : Emits s₃ s₄ 0 := hs₄ ▸ emits_stores (i + 1)
  have hend : codeAssign k e.isCall s₂ = if k > 1 ∨ (k = 1 ∧ s₄.varbuffer.getD 0 0 ≠ 0) then
      s₄.luaCodeadjust 0 else s₄ := by
    unfold codeAssign
    dsimp only
    rw [hs₃, hlength, hs₄]
  have hdrop : Emits s₄ (codeAssign k e.isCall s₂) 0 := by
    rw [hend]
    split
    · exact emits_adjust
    · exact .refl
  have hplaced₃ := hlast.left (hstores.trans hdrop).toGrows
  have hrest := hlast.right hadjust (hstores.trans hdrop).toGrows
  have hplaced₄ := hrest.right hstores hdrop.toGrows
  refine (hs₃ ▸ adjust_values_runs ctx.host us.2 hcollected₂ (hs₃.symm ▸ hplaced₃) hlocal₂ rfl hntemp₂
    (eval_exps_length hus) hdepth :
    Reaches (luaExecute ctx.host image)
      (fr.state s₂ env (r.1.flatMap Target.slots ++ us.1.map .object) us.2)
      (fr.state s₃ env (r.1.flatMap Target.slots ++ (adjust r.1.length us.1).map .object)
        us.2)).leads ?_
  have hntemp₃ : s₃.ntemp = s₂.ntemp + 0 := hadjust.ntemp hplaced₃.err
  have hrun := stores_runs fr ctx.host hcollected.few i (adjust r.1.length us.1) s₃ env us.2
    (by rw [adjust_length, hi]) (by omega) (by rw [hs₄]; exact hrest.left hdrop.toGrows)
    (hadjust.varbuffer.trans hcollected₂.varbuffer) (hadjust.localvar.trans hlocal₂) (by omega)
    hexists
  rw [hs₄, ← hi, List.take_length] at hrun
  refine hrun.bind fun r' hr' => ?_
  have hnames := assign_all_names hr'
  have hlocal₄ : s₄.localvar = r'.1.map (·.1) :=
    ((hstores.localvar.trans hadjust.localvar).trans hlocal₂).trans hnames.symm
  have hcollected₄ : Collected s₄ k r.1 :=
    ⟨(hstores.varbuffer.trans hadjust.varbuffer).trans hcollected₂.varbuffer, hcollected.few,
      hcollected.indexed⟩
  have hdropped := drop_slots_runs fr ctx.host r'.2 hcollected₄ (hend ▸ hplaced₄) hlocal₄
    (by rw [hstores.localvar, hadjust.localvar]; exact hdepth)
  rw [← hend] at hdropped
  exact hdropped.leads Leads.refl

theorem init_runs (hexpr : ExprRuns ctx image n) : InitRuns ctx image (n + 1) := by
  intro fr init s env st hfits h hlocal hn
  cases init with
  | none =>
      have hpush : Reaches (luaExecute ctx.host image) (fr.state s env [] st)
          (fr.state (s.codeOp .PUSHNIL) env ([] ++ [.object (.nil none)]) st) :=
        reaches_push h fun _ => rfl
      exact hpush.leads Leads.refl
  | some e =>
      have hmatches : Matches { s with ntemp := 0 } env ([] : List (Slot ν κ)) :=
        Matches.restart hlocal
      have hrun := one_runs st hexpr (hfits e rfl) (h.restart hn) hmatches
      exact hrun

omit [Runtime ν] [DecidableEq κ] in
/-- The initial value of a local variable lies in its slot. -/
theorem state_nlocalvar {w : Word} {v : Object ν κ} :
    fr.state s env [.object v] st = fr.state (s.incrNlocalvar w) (env ++ [(w, v)]) [] st := by
  have hpc : (s.incrNlocalvar w).pc = s.pc := by
    unfold incrNlocalvar
    split <;> rfl
  simp only [Frame.state, hpc, List.map_append, List.map_cons, List.map_nil, List.append_nil,
    List.append_assoc]

theorem declist_runs (hdecls : DeclistRuns ctx image n) (hinit : InitRuns ctx image n) :
    DeclistRuns ctx image (n + 1) := by
  intro fr ds s env st hfits h hlocal hn
  cases ds with
  | one w init =>
      simp only [evalDecls, Outcome.bind_eq, Outcome.map_bind]
      refine (hinit fr init s env st hfits (h.left adds_nlocalvar.toGrows) hlocal hn).bind
        fun r _ => ?_
      rw [state_nlocalvar (w := w)]
      exact Leads.refl
  | snoc ds w init =>
      have hds := adds_declist ctx.name ds (s := s)
      have hinit' := adds_init ctx.name init (s := codeDeclist ctx.name ds s)
      have hrest := (hinit'.trans (adds_nlocalvar (w := w))).toGrows
      have hleft := h.left hrest
      simp only [evalDecls, Outcome.bind_eq, Outcome.map_bind]
      refine (hdecls fr ds s env st hfits.1 hleft hlocal hn).bind fun r hr => ?_
      have hlocal' : (codeDeclist ctx.name ds s).localvar = r.1.map (·.1) := by
        rw [hds.localvar hleft.err, hlocal, decls_names hr]
      refine (hinit fr init _ r.1 r.2 hfits.2 ((h.behind hds hrest hn).left adds_nlocalvar.toGrows)
        hlocal' (h.ntemp_nonneg hds hrest hn)).bind fun r' _ => ?_
      rw [state_nlocalvar (w := w)]
      exact Leads.refl

theorem call_stat_runs {f : Var ν} {args : Exps ν} (hexpr : ExprRuns ctx image n)
    (hfits : f.Fits ∧ args.Fits) (h : Placed image fr.unit s (codeStat ctx.name (.call f args) s))
    (hlocal : s.localvar = env.map (·.1)) (hn : 0 ≤ s.ntemp) :
    Leads (luaExecute ctx.host image) (fr.state s env [] st)
      ((evalStat ctx (n + 1) (.call f args) env st).bind
        (Flow.after fr (codeStat ctx.name (.call f args) s))) := by
  replace h := h.restart hn
  have hcall := emits_expr ctx.name (.call f args) { s with ntemp := 0 }
  have hadjust := h.right hcall emits_adjust.toGrows
  have hdepth := hadjust.depth
  rw [hcall.ntemp (emits_adjust.err h.err)] at hdepth
  simp only [MAXSLOTS, STACKGAP, MAXVAR, Exp.isCall, if_true] at hdepth
  simp only [evalStat, Outcome.bind_eq, Outcome.bind_assoc]
  refine (hexpr fr (.call f args) _ env [] st hfits (h.left emits_adjust.toGrows)
    (Matches.restart hlocal)).bind fun r _ => ?_
  refine (reaches_adjust ctx.host [] r.2 r.1 (n := 0) hadjust (hcall.localvar.trans hlocal) rfl
    (by omega)).leads Leads.refl

/-! ### Code of length 0 -/

section

variable (name : Word → Text)

omit [Runtime ν] [DecidableEq κ] in
@[simp] theorem incr_ntemp_pc : s.incrNtemp.pc = s.pc := by
  unfold incrNtemp
  split <;> rfl

theorem pushvar_pc (number : Int) : s.pc < (s.luaPushvar number).pc := by
  have halign : s.pc ≤ (s.alignN 2).pc := (emits_align 2).pc
  unfold luaPushvar
  split
  · rw [incr_ntemp_pc]
    exact halign.trans_lt (Nat.lt_add_of_pos_right (by decide : 0 < 3))
  · split
    · dsimp only
      split
      · rw [incr_ntemp_pc]
        exact Nat.lt_succ_self _
      · rw [incr_ntemp_pc]
        exact Nat.lt_add_of_pos_right (by decide : 0 < 2)
    · exact Nat.lt_succ_self _

theorem number_pc (f : ν) : s.pc < (s.codeNumber f).pc := by
  have halign (size : Nat) : s.pc ≤ (s.alignN size).pc := (emits_align size).pc
  unfold codeNumber
  dsimp only
  rw [incr_ntemp_pc]
  split
  · split
    · exact Nat.lt_succ_self _
    · split
      · exact Nat.lt_add_of_pos_right (by decide : 0 < 2)
      · exact (halign 2).trans_lt (Nat.lt_add_of_pos_right (by decide : 0 < 3))
  · exact (halign 4).trans_lt (Nat.lt_add_of_pos_right (by decide : 0 < 5))

variable (ν) in
theorem string_pc (text : Text) : s.pc < (s.codeString ν text).pc := by
  have halign : s.pc ≤ (s.alignN 2).pc := (emits_align 2).pc
  unfold codeString
  dsimp only
  rw [incr_ntemp_pc]
  simp only [codeWord, findconstant_pc, codeOp, codeByte]
  omega

theorem record_pc {c : Byte} (object : Option Word)
    (h : Grows (((s.codeOp .PUSHBYTE).codeByte 0#8).incrNtemp.codeOp .CREATEARRAY) s₂) :
    s.pc < ((s₂.setByte (s.pc + 1) c).codeConstructor object).pc := by
  have hend : s₂.pc ≤ ((s₂.setByte (s.pc + 1) c).codeConstructor object).pc :=
    (emits_constructor (s := s₂.setByte (s.pc + 1) c) object).pc
  have hstart : (((s.codeOp .PUSHBYTE).codeByte 0#8).incrNtemp.codeOp .CREATEARRAY).pc = s.pc + 3 :=
    congrArg (· + 1) incr_ntemp_pc
  have hfields := h.pc
  omega

/-- Every expression has code. -/
theorem expr_pc (s : Parser) : ∀ e : Exp ν, s.pc < (codeExpr name e s).pc
  | .paren e => expr_pc s e
  | .binary op l r =>
      (expr_pc s l).trans_le ((((emits_one_value l.isCall).trans (emits_expr name r _).one_value).trans
        (emits_ops op.ops)).trans (emits_decr_ntemp zero_le_one)).pc
  | .plus e => (expr_pc s e).trans_le (emits_one_value e.isCall).pc
  | .minus e => (expr_pc s e).trans_le ((emits_one_value e.isCall).trans (emits_op _)).pc
  | .not e => (expr_pc s e).trans_le ((emits_one_value e.isCall).trans (emits_op _)).pc
  | .and l r =>
      (expr_pc s l).trans_le (((emits_one_value l.isCall).trans (emits_align 2)).trans
        (((emits_space.trans (emits_op .POP)).trans (emits_decr_ntemp zero_le_one)).trans
          (emits_expr name r _).one_value)).pc
  | .or l r =>
      (expr_pc s l).trans_le (((emits_one_value l.isCall).trans (emits_align 2)).trans
        (((emits_space.trans (emits_op .POP)).trans (emits_decr_ntemp zero_le_one)).trans
          (emits_expr name r _).one_value)).pc
  | .record object fields => record_pc object (emits_ffieldlist name fields _).toGrows
  | .list object items => record_pc object (emits_lfieldlist name items _).toGrows
  | .array => (Nat.lt_succ_self s.pc).trans_le
      ((emits_incr_ntemp (s := s.codeOp .PUSHNIL)).trans (emits_op .CREATEARRAY)).pc
  | .arrayOf e => (expr_pc s e).trans_le ((emits_one_value e.isCall).trans (emits_op _)).pc
  | .var v => (emits_var name v s).pc.trans_lt (pushvar_pc _)
  | .number f => number_pc f
  | .string text => string_pc ν text
  | .nil => (Nat.lt_succ_self s.pc).trans_le (emits_incr_ntemp (s := s.codeOp .PUSHNIL)).pc
  | .call f args =>
      ((emits_var name f s).pc.trans_lt (pushvar_pc _)).trans_le
        (((emits_op .PUSHMARK).trans (emits_incr_ntemp.trans (emits_exprlist name args _))).trans
          (emits_op .CALLFUNC)).pc

end

/-! ### Conditions -/

/-- A condition, with its value before the jump. -/
theorem condition_runs {c : Exp ν} {a : Parser} (st : Store ν κ) (hexpr : ExprRuns ctx image n)
    (hc : c.Fits) (ha : ((codeExpr ctx.name c s).oneValue c.isCall).alignN 2 = a)
    (h : Placed image fr.unit s a) (hs : Matches s env []) :
    Leads (luaExecute ctx.host image) (fr.state s env [] st)
      ((one (evalExp ctx n c env st)).map fun r => fr.state a env [.object r.1] r.2) := by
  subst ha
  have hone := (emits_expr ctx.name c s).one_value
  refine (one_runs st hexpr hc (h.left (emits_align 2).toGrows) hs).reaches fun r _ => ?_
  exact reaches_align (h.right hone (emits_align 2).toGrows)

omit [Runtime ν] [DecidableEq κ] in
/-- What comes behind a statement, by how it ends. -/
theorem leads_flow {step : Machine ν κ → Next (Machine ν κ)} {m : Machine ν κ}
    {o : Outcome (Flow ν κ)} {g : Flow ν κ → Outcome (Machine ν κ)}
    (h : Leads step m (o.bind (Flow.after fr s)))
    (hnext : ∀ env st, o = .ok (.next env st) → Leads step (fr.state s env [] st) (g (.next env st)))
    (hret : ∀ vs st, g (.ret vs st) = fr.ret vs st) : Leads step m (o.bind g) := by
  cases o with
  | ok flow =>
      cases flow with
      | next env st => exact Leads.trans h (hnext env st rfl)
      | ret vs st =>
          rw [Outcome.ok_bind, hret]
          exact h
  | error => exact h
  | unknown => trivial

/-! ### Blocks -/

theorem statlist_runs (hstats : StatlistRuns ctx image n) (hstat : StatRuns ctx image n) :
    StatlistRuns ctx image (n + 1) := by
  intro fr ss s env st hfits h hlocal hn
  cases ss with
  | empty => exact Leads.refl
  | snoc ss stat =>
      have hss := adds_statlist ctx.name ss s
      have hlast := adds_stat ctx.name stat (codeStatlist ctx.name ss s)
      have hleft := h.left hlast.toGrows
      simp only [evalStats, Outcome.bind_eq, Outcome.bind_assoc]
      refine leads_flow (hstats fr ss s env st hfits.1 hleft hlocal hn) (fun env' st' hflow => ?_)
        fun vs st' => rfl
      exact hstat fr stat _ env' st' hfits.2 (h.behind hss hlast.toGrows hn)
        (by rw [hss.localvar hleft.err, hlocal, (keeps_names n).stats hflow])
        (h.ntemp_nonneg hss hlast.toGrows hn)

omit [DecidableEq κ] [Runtime ν] in
theorem grows_close_block (k : Nat) : Grows s (closeBlock k s) := by
  unfold closeBlock
  split
  · exact { (emits_adjust (s := { s with localvar := s.localvar.take k }) (k := 0)).toGrows with }
  · exact .refl

/-- The variables of a block are dropped. -/
theorem close_block_runs (host : Host ν κ) (st : Store ν κ) {k : Nat}
    (h : Placed image fr.unit s (closeBlock k s)) (hlocal : s.localvar = env.map (·.1))
    (hk : k ≤ env.length) (hn : 0 ≤ s.ntemp) :
    Reaches (luaExecute host image) (fr.state s env [] st)
      (fr.state (closeBlock k s) (env.take k) [] st) := by
  have hlength := congrArg List.length hlocal
  rw [List.length_map] at hlength
  have hdepth := h.depth
  simp only [MAXSLOTS, STACKGAP, MAXVAR] at hdepth
  unfold closeBlock at h ⊢
  split
  case isTrue hmore =>
    rw [if_pos hmore] at h
    have hplaced : Placed image fr.unit { s with localvar := s.localvar.take k }
        ({ s with localvar := s.localvar.take k }.luaCodeadjust 0) :=
      { h with
        depth := by
          have hless : (s.localvar.take k).length ≤ s.localvar.length := List.length_take_le' _ _
          simp only [MAXSLOTS, STACKGAP, MAXVAR]
          omega }
    have hlocal' : s.localvar.take k = (env.take k).map (·.1) := by
      rw [hlocal, List.map_take]
    have hadjust := reaches_adjust host [] st
      ((env.drop k).map fun p => p.2) (n := 0) hplaced hlocal' rfl
      (by simp only [List.length_take]; omega)
    have hstate : fr.state { s with localvar := s.localvar.take k } (env.take k)
        ([] ++ ((env.drop k).map fun p => p.2).map .object) st = fr.state s env [] st := by
      simp only [Frame.state, List.nil_append, List.append_nil, List.map_map, List.append_assoc]
      have hsplit : env.map (fun p => Slot.object p.2) = (env.take k).map (fun p => Slot.object p.2) ++
          (env.drop k).map fun p => Slot.object p.2 := by
        rw [← List.map_append, List.take_append_drop]
      rw [hsplit]
      rfl
    rw [hstate] at hadjust
    exact hadjust
  case isFalse hsame =>
    rw [List.take_of_length_le (by omega)]
    exact .refl

theorem block_runs (hstats : StatlistRuns ctx image n) (hlist : ExprlistRuns ctx image n) :
    BlockRuns ctx image (n + 1) := by
  intro fr b s env st hfits h hlocal hn
  obtain ⟨ss, ret⟩ := b
  obtain ⟨s₁, hs₁⟩ : ∃ s₁, codeStatlist ctx.name ss s = s₁ := ⟨_, rfl⟩
  obtain ⟨s₂, hs₂⟩ : ∃ s₂, codeRet ctx.name ret { s₁ with ntemp := 0 } = s₂ := ⟨_, rfl⟩
  have hcode : codeBlock ctx.name (.mk ss ret) s = closeBlock s.localvar.length s₂ := by
    rw [← hs₂, ← hs₁]
    rfl
  have hss : Adds s { s₁ with ntemp := 0 } (ss.names ++ []) :=
    (hs₁ ▸ adds_statlist ctx.name ss s).trans adds_ntemp_zero
  have hret : Emits { s₁ with ntemp := 0 } s₂ _ := hs₂ ▸ emits_ret ctx.name ret
  have hclose := grows_close_block (s := s₂) s.localvar.length
  rw [hcode] at h ⊢
  have hplaced := h.left hclose
  have hleft := hplaced.left hret.toGrows
  have hrest := h.behind hss (hret.toGrows.trans hclose) hn
  have hlast := hrest.right hret hclose
  simp only [evalBlock, Outcome.bind_eq, Outcome.bind_assoc]
  refine leads_flow (hs₁ ▸ hstats fr ss s env st hfits.1 (hs₁.symm ▸ { hleft with }) hlocal hn :
    Leads _ _ ((evalStats ctx n ss env st).bind (Flow.after fr s₁))) (fun env' st' hflow => ?_)
    fun vs st' => rfl
  have hnames := (keeps_names n).stats hflow
  have hlocal₁ : ({ s₁ with ntemp := 0 } : Parser).localvar = env'.map (·.1) := by
    rw [hss.localvar hleft.err, hlocal, hnames, List.append_nil]
  have hlength := congrArg List.length hlocal
  have hmore := congrArg List.length hnames
  simp only [List.length_map, List.length_append] at hlength hmore
  cases ret with
  | none =>
      have hsame : s₂ = { s₁ with ntemp := 0 } := hs₂.symm
      subst hsame
      have hclosed := close_block_runs ctx.host st' hlast hlocal₁ (by omega) le_rfl
      rw [hlength] at hclosed ⊢
      exact hclosed.leads Leads.refl
  | some es =>
      obtain ⟨s₃, hs₃⟩ : ∃ s₃, codeExprlist ctx.name es { s₁ with ntemp := 0 } = s₃ := ⟨_, rfl⟩
      have hes : Emits { s₁ with ntemp := 0 } s₃ _ := hs₃ ▸ emits_exprlist ctx.name es _
      have hsame : s₂ = (s₃.codeOp .RETCODE).codeByte (BitVec.ofNat 8 s₃.localvar.length) := by
        rw [← hs₂, ← hs₃]
        rfl
      have hcoded := hrest.left hclose
      rw [hsame] at hcoded
      have hretcode : Emits s₃ ((s₃.codeOp .RETCODE).codeByte (BitVec.ofNat 8 s₃.localvar.length))
          (0 + 0) := (emits_op .RETCODE).trans emits_byte
      simp only [Outcome.bind_assoc]
      refine (hlist fr es _ env' [] st' (hfits.2 es rfl) (hs₃.symm ▸ hcoded.left hretcode.toGrows)
        ⟨hlocal₁, rfl⟩).bind fun r _ => ?_
      rw [hs₃]
      have hbehind := hcoded.right hes hretcode.toGrows
      obtain ⟨hop, hbyte⟩ := operand_byte _ _ ctx.host ([] ++ r.1.map .object) r.2 hbehind
      have hlocal₃ := hes.localvar.trans hlocal₁
      have hlength₃ := congrArg List.length hlocal₃
      rw [List.length_map] at hlength₃
      have hdepth := hbehind.depth
      rw [hes.ntemp (hretcode.err hbehind.err)] at hdepth
      have htemps := es.temps_nonneg
      simp only [MAXSLOTS, STACKGAP, MAXVAR] at hdepth
      have hn₃ : (BitVec.ofNat 8 s₃.localvar.length).toNat =
          (env'.map fun p => Slot.object p.2).length := by
        rw [BitVec.toNat_ofNat, List.length_map, Nat.mod_eq_of_lt (by omega), hlength₃]
      refine Leads.of_step ?_
      rw [hop]
      simp only [execute, Frame.state] at hbyte ⊢
      rw [hbyte, hn₃]
      exact congrArg Next.ofOutcome (ret_code_locals _ _ _ _)

/-! ### Conditionals and loops -/

section

variable (name : Word → Text)

omit [Runtime ν] [DecidableEq κ] in
theorem close_if_pc {p q : Nat} (hq : q ≤ s.pc) : q ≤ (s.closeIf p q).pc := by
  unfold closeIf
  split
  · exact le_rfl
  · exact hq

/-- Every statement has code. -/
theorem stat_pc (stat : Stat ν) (s : Parser) : s.pc < (codeStat name stat s).pc := by
  have hcondition (c : Exp ν) (s : Parser) :
      s.pc < (openSpace (((codeExpr name c s).oneValue c.isCall).alignN 2)).pc :=
    (expr_pc name s c).trans_le
      (((emits_one_value c.isCall).trans (emits_align 2)).trans emits_space).pc
  cases stat with
  | ifThen c b e =>
      have hb := ((adds_block name b (openSpace (((codeExpr name c { s with ntemp := 0 }).oneValue
        c.isCall).alignN 2))).trans ((emits_align 2).adds le_rfl)).pc
      exact ((hcondition c { s with ntemp := 0 }).trans_le hb).trans_le
        (close_if_pc ((emits_space.adds le_rfl).trans (adds_elsepart name e _)).pc)
  | whileDo c b =>
      exact (hcondition c { s with ntemp := 0 }).trans_le ((adds_block name b _).trans
        (((emits_align 2).trans emits_space).adds le_rfl)).pc
  | repeatUntil b c =>
      exact ((adds_block name b { s with ntemp := 0 }).pc).trans_lt (hcondition c _)
  | assign vs es e =>
      have hvars := (emits_varlist name vs { s with ntemp := 0 }).pc
      have hes := (emits_exprlist name es (codeVarlist name vs { s with ntemp := 0 }).2).trans
        (emits_one_value es.isCall)
      exact (hvars.trans hes.pc).trans_lt ((expr_pc name _ e).trans_le (emits_assign _ _).pc)
  | call f args =>
      exact (expr_pc name { s with ntemp := 0 } (.call f args)).trans_le emits_adjust.pc
  | locals ds =>
      have hinit (init : Option (Exp ν)) (s : Parser) : s.pc < (codeInit name init s).pc := by
        cases init with
        | none => exact Nat.lt_succ_self _
        | some e => exact (expr_pc name { s with ntemp := 0 } e).trans_le (emits_one_value _).pc
      cases ds with
      | one w init =>
          exact (hinit init { s with ntemp := 0 }).trans_le (adds_nlocalvar (w := w)).pc
      | snoc ds w init =>
          exact ((adds_declist name ds (s := { s with ntemp := 0 })).pc.trans_lt
            (hinit init _)).trans_le (adds_nlocalvar (w := w)).pc

/-- A part without code does nothing. -/
theorem else_empty {e : Else ν} (h : (codeElsepart name e s).pc = s.pc) :
    e = .none ∨ e = .els (.mk .empty none) := by
  cases e with
  | none => exact .inl rfl
  | els b =>
      obtain ⟨ss, ret⟩ := b
      refine .inr ?_
      have hclose := (grows_close_block (s := codeRet name ret { codeStatlist name ss s with ntemp := 0 })
        s.localvar.length).pc
      change (closeBlock _ _).pc = _ at h
      have hret := (emits_ret name ret (s := { codeStatlist name ss s with ntemp := 0 })).pc
      change (codeStatlist name ss s).pc ≤ _ at hret
      cases ss with
      | snoc ss stat =>
          have hlast := stat_pc name stat (codeStatlist name ss s)
          have hfirst := (adds_statlist name ss s).pc
          change (codeStat name stat (codeStatlist name ss s)).pc ≤ _ at hret
          omega
      | empty =>
          cases ret with
          | none => rfl
          | some es =>
              have hes := (emits_exprlist name es (s := { s with ntemp := 0 })).pc
              change s.pc ≤ _ at hes
              change (codeExprlist name es { s with ntemp := 0 }).pc + 2 ≤ _ at hclose
              omega
  | elseif c b e =>
      have hcondition := (expr_pc name s c).trans_le
        (((emits_one_value c.isCall).trans (emits_align 2)).trans emits_space).pc
      have hb := ((adds_block name b (openSpace (((codeExpr name c s).oneValue c.isCall).alignN
        2))).trans ((emits_align 2).adds le_rfl)).pc
      have hless := (hcondition.trans_le hb).trans_le (close_if_pc
        (p := (((codeExpr name c s).oneValue c.isCall).alignN 2).pc)
        ((emits_space.adds le_rfl).trans (adds_elsepart name e _)).pc)
      exact absurd h hless.ne'

end

omit [Runtime ν] [DecidableEq κ] in
/-- A statement whose code goes on. -/
theorem leads_flow_reaches {step : Machine ν κ → Next (Machine ν κ)} {m : Machine ν κ}
    {o : Outcome (Flow ν κ)} (h : Leads step m (o.bind (Flow.after fr s)))
    (hnext : ∀ env st, o = .ok (.next env st) →
      Reaches step (fr.state s env [] st) (fr.state s' env [] st)) :
    Leads step m (o.bind (Flow.after fr s')) :=
  leads_flow h (fun env st ho => (hnext env st ho).leads Leads.refl) fun _ _ => rfl

omit [Runtime ν] [DecidableEq κ] in
theorem close_if_short {p q : Nat} (h : s.pc = q + 3) :
    s.closeIf p q = { s with pc := q }.setJump p .IFFJMP (q - (p + 3)) := if_pos h

omit [Runtime ν] [DecidableEq κ] in
theorem close_if_long {p q : Nat} (h : s.pc ≠ q + 3) :
    s.closeIf p q =
      (s.setJump q .JMP (s.pc - (q + 3))).setJump p .IFFJMP (q + 3 - (p + 3)) := if_neg h

omit [Runtime ν] [DecidableEq κ] in
/-- The bytes of a jump do not depend on what was there. -/
theorem set_jump_congr {p i m : Nat} {op : OpCode} (hi : p ≤ i) (hi' : i < p + 3) :
    (s.setJump p op m).buffer i = (s'.setJump p op m).buffer i := by
  rcases (by omega : i = p ∨ i = p + 1 ∨ i = p + 2) with rfl | rfl | rfl
  · rw [set_jump_here, set_jump_here]
  · simp [setJump, writeHalf]
  · simp [setJump, writeHalf]

theorem eval_else_empty {e : Else ν} (ctx : Context ν κ) (n : Nat) (env : Env ν κ) (st : Store ν κ)
    (h : e = .none ∨ e = .els (.mk .empty none)) :
    evalElse ctx n e env st = .unknown ∨ evalElse ctx n e env st = .ok (.next env st) := by
  rcases h with rfl | rfl
  · cases n with
    | zero => exact .inl rfl
    | succ n => exact .inr rfl
  · match n with
    | 0 => exact .inl rfl
    | 1 => exact .inl rfl
    | 2 => exact .inl rfl
    | n + 3 =>
        refine .inr ?_
        simp only [evalElse, evalBlock, evalStats, Outcome.bind_eq, Outcome.ok_bind,
          List.take_length]

/-- A conditional: the condition, the jump over the block, the block, and the other case. -/
theorem if_runs {c : Exp ν} {b : Block ν} {e : Else ν} {a q s₃ s₄ : Parser} (st : Store ν κ)
    (hexpr : ExprRuns ctx image n) (hblock : BlockRuns ctx image n) (helse : ElseRuns ctx image n)
    (hc : c.Fits) (hb : b.Fits) (he : e.Fits) (hfollows : e.Follows b)
    (ha : ((codeExpr ctx.name c s).oneValue c.isCall).alignN 2 = a)
    (hq : (codeBlock ctx.name b (openSpace a)).alignN 2 = q)
    (hs₃ : codeElsepart ctx.name e (openSpace q) = s₃) (hs₄ : s₃.closeIf a.pc q.pc = s₄)
    (h : Placed image fr.unit s s₄) (hs : Matches s env []) :
    Leads (luaExecute ctx.host image) (fr.state s env [] st)
      (((one (evalExp ctx n c env st)).bind fun r =>
        if r.1.isNil then evalElse ctx n e env r.2 else evalBlock ctx n b env r.2).bind
          (Flow.after fr s₄)) := by
  have hcondition : Emits s a (1 + 0) := ha ▸ (emits_expr ctx.name c s).one_value.trans (emits_align 2)
  have hspace : Adds a (openSpace a) [] := emits_space.adds le_rfl
  have hblock' := adds_block ctx.name b (openSpace a)
  have halign : Emits (codeBlock ctx.name b (openSpace a)) q 0 := hq ▸ emits_align 2
  have helse' : Adds (openSpace q) s₃ [] := hs₃ ▸ adds_elsepart ctx.name e (openSpace q)
  have hspace' : Adds q (openSpace q) [] := emits_space.adds le_rfl
  have hbq : Adds (openSpace a) q _ := hblock'.trans (halign.adds le_rfl)
  have herr : s₃.err = false := by
    have herr₄ := h.err
    rw [← hs₄] at herr₄
    unfold closeIf at herr₄
    split at herr₄ <;> exact herr₄
  have herrq := hspace'.err (helse'.err herr)
  have herra := hspace.err (hbq.err herrq)
  have hopen : (openSpace a).pc = a.pc + 3 := rfl
  have hopen' : (openSpace q).pc = q.pc + 3 := rfl
  have hdepth := hcondition.depth herra h.depth
  have hntemp : (openSpace a).ntemp = 1 := by
    have hgrown := (hcondition.trans emits_space).ntemp (hbq.err herrq)
    rw [hs.ntemp] at hgrown
    exact hgrown.trans (by simp)
  have hsound := hbq.sound herrq ⟨hntemp.symm ▸ zero_le_one, hdepth⟩
  have hlocal : (openSpace a).localvar = env.map (·.1) :=
    (hcondition.trans emits_space).localvar.trans hs.localvar
  have hlocal' : (openSpace q).localvar = env.map (·.1) := by
    refine (hspace'.localvar (helse'.err herr)).trans ?_
    rw [hbq.localvar herrq, hlocal]
    simp
  have hntemp' : (openSpace q).ntemp = b.temps := by
    have hcounted := halign.ntemp herrq
    rw [add_zero] at hcounted
    exact hcounted.trans (block_ntemp ctx.name b (halign.err herrq))
  have hpca := hcondition.pc
  have hpcq := hbq.pc
  have hpc₃ := helse'.pc
  rw [Outcome.bind_assoc]
  by_cases hshort : s₃.pc = q.pc + 3
  case pos =>
    rw [close_if_short hshort] at hs₄
    have hgrows : Grows (openSpace a) { s₃ with pc := q.pc } :=
      let hall := ((hbq.trans hspace').trans helse').toGrows
      { hall with
        pc := hbq.pc
        room := fun herr₃ hroom => (by omega : q.pc ≤ s₃.pc).trans (hall.room herr₃ hroom) }
    have hgrows' : Grows q { s₃ with pc := q.pc } :=
      let hall := (hspace'.trans helse').toGrows
      { hall with
        pc := le_rfl
        room := fun _ hroom => hroom }
    have hpc₄ : s₄.pc = q.pc := by rw [← hs₄]; rfl
    obtain ⟨hplaced, hjump, hbody⟩ := Placed.jump (a := a) 
      (hs₄ ▸ h) hcondition.toGrows hgrows hdepth (by simp only; omega)
    refine (condition_runs st hexpr hc ha hplaced hs).bind fun r _ => ?_
    have hjumped : Reaches (luaExecute ctx.host image) (fr.state a env ([] ++ [.object r.1]) r.2)
        (fr.state (if r.1.isNil then s₄ else openSpace a) env [] r.2) :=
      reaches_iffjmp s₄ (openSpace a) hjump (by omega) hopen
    refine hjumped.leads ?_
    split
    case isTrue =>
      rcases eval_else_empty ctx n env r.2 (else_empty ctx.name (hs₃ ▸ hshort)) with hnone | hdone
      · rw [hnone]
        trivial
      · rw [hdone]
        exact Leads.refl
    case isFalse =>
      have hbody' := hbody.left hgrows'
      refine leads_flow_reaches (hblock fr b _ env r.2 hb (hbody'.left halign.toGrows) hlocal
        (hntemp.symm ▸ zero_le_one)) fun env' st' _ => ?_
      rw [state_pc hpc₄, ← hq]
      exact reaches_align (hq.symm ▸ hbody'.behind hblock' halign.toGrows (hntemp.symm ▸ zero_le_one))
  case neg =>
    rw [close_if_long hshort] at hs₄
    have hpc₄ : s₄.pc = s₃.pc := by rw [← hs₄]; rfl
    obtain ⟨hplaced, hjump, hbody, hskip, hrest⟩ := h.jumps (a := a) (b := q) hcondition.toGrows
      hbq.toGrows helse'.toGrows (by rw [← hs₄]; rfl) hpc₄ (by rw [← hs₄]; rfl)
      (fun i hi hi' => by rw [← hs₄]; exact set_jump_congr hi hi')
      (fun i hi hi' => by rw [← hs₄]; exact set_jump_outside (.inr (by omega)))
      (fun i hi hi' => by rw [← hs₄, set_jump_outside hi, set_jump_outside hi'])
      hdepth hsound.2 (by omega) (by omega)
    refine (condition_runs st hexpr hc ha hplaced hs).bind fun r _ => ?_
    have hjumped : Reaches (luaExecute ctx.host image) (fr.state a env ([] ++ [.object r.1]) r.2)
        (fr.state (if r.1.isNil then openSpace q else openSpace a) env [] r.2) :=
      reaches_iffjmp (openSpace q) (openSpace a) hjump (by omega) hopen
    refine hjumped.leads ?_
    split
    case isTrue =>
      refine leads_flow_reaches (hs₃ ▸ helse fr e b (openSpace q) env r.2 he hfollows hntemp'
        (hs₃.symm ▸ hrest) hlocal') fun env' st' _ => ?_
      rw [state_pc hpc₄]
      exact .refl
    case isFalse =>
      refine leads_flow_reaches (hblock fr b _ env r.2 hb (hbody.left halign.toGrows) hlocal
        (hntemp.symm ▸ zero_le_one)) fun env' st' _ => ?_
      have haligned : Reaches (luaExecute ctx.host image)
          (fr.state (codeBlock ctx.name b (openSpace a)) env' [] st') (fr.state q env' [] st') := by
        rw [← hq]
        exact reaches_align (hq.symm ▸ hbody.behind hblock' halign.toGrows
          (hntemp.symm ▸ zero_le_one))
      exact haligned.trans (reaches_jmp hskip (by omega))

/-- A loop with the condition in front jumps back to where its code starts. -/
theorem while_runs {c : Exp ν} {b : Block ν} (hexpr : ExprRuns ctx image n)
    (hblock : BlockRuns ctx image n) (hstat : StatRuns ctx image n) (hfits : c.Fits ∧ b.Fits)
    (h : Placed image fr.unit s (codeStat ctx.name (.whileDo c b) s))
    (hlocal : s.localvar = env.map (·.1)) (hn : 0 ≤ s.ntemp) :
    Leads (luaExecute ctx.host image) (fr.state s env [] st)
      ((evalStat ctx (n + 1) (.whileDo c b) env st).bind
        (Flow.after fr (codeStat ctx.name (.whileDo c b) s))) := by
  obtain ⟨s₀, hs₀⟩ : ∃ s₀, { s with ntemp := 0 } = s₀ := ⟨_, rfl⟩
  obtain ⟨a, ha⟩ : ∃ a, ((codeExpr ctx.name c s₀).oneValue c.isCall).alignN 2 = a := ⟨_, rfl⟩
  obtain ⟨q, hq⟩ : ∃ q, (codeBlock ctx.name b (openSpace a)).alignN 2 = q := ⟨_, rfl⟩
  obtain ⟨s₄, hs₄⟩ : ∃ s₄, ((openSpace q).setJump a.pc .IFFJMP (q.pc + 3 - (a.pc + 3))).setJump q.pc
      .UPJMP (q.pc + 3 - s.pc) = s₄ := ⟨_, rfl⟩
  have hcode : codeStat ctx.name (.whileDo c b) s = s₄ := by
    rw [← hs₄, ← hq, ← ha, ← hs₀]
    rfl
  have hstart (env : Env ν κ) (st : Store ν κ) : fr.state s env [] st = fr.state s₀ env [] st := by
    rw [← hs₀]
    rfl
  have hs : Matches s₀ env ([] : List (Slot ν κ)) := hs₀ ▸ Matches.restart hlocal
  have hplaced₀ : Placed image fr.unit s₀ s₄ := hs₀ ▸ hcode ▸ h.restart hn
  have hpc₀ : s₀.pc = s.pc := by rw [← hs₀]
  have hcondition : Emits s₀ a (1 + 0) :=
    ha ▸ (emits_expr ctx.name c s₀).one_value.trans (emits_align 2)
  have hspace : Adds a (openSpace a) [] := emits_space.adds le_rfl
  have hblock' := adds_block ctx.name b (openSpace a)
  have halign : Emits (codeBlock ctx.name b (openSpace a)) q 0 := hq ▸ emits_align 2
  have hbq : Adds (openSpace a) q _ := hblock'.trans (halign.adds le_rfl)
  have herrq : q.err = false := emits_space.err (by rw [← hs₄] at hplaced₀; exact hplaced₀.err)
  have herra := hspace.err (hbq.err herrq)
  have hopen : (openSpace a).pc = a.pc + 3 := rfl
  have hopen' : (openSpace q).pc = q.pc + 3 := rfl
  have hdepth := hcondition.depth herra hplaced₀.depth
  have hntemp : (openSpace a).ntemp = 1 := by
    have hgrown := (hcondition.trans emits_space).ntemp (hbq.err herrq)
    rw [hs.ntemp] at hgrown
    exact hgrown.trans (by simp)
  have hsound := hbq.sound herrq ⟨hntemp.symm ▸ zero_le_one, hdepth⟩
  have hlocal' : (openSpace a).localvar = env.map (·.1) :=
    (hcondition.trans emits_space).localvar.trans hs.localvar
  have hpca := hcondition.pc
  have hpcq := hbq.pc
  have hpc₄ : s₄.pc = q.pc + 3 := by rw [← hs₄]; rfl
  obtain ⟨hplaced, hjump, hbody, hback, -⟩ := hplaced₀.jumps (a := a) (b := q) hcondition.toGrows
    hbq.toGrows Grows.refl (by rw [← hs₄]; rfl) hpc₄ (by rw [← hs₄]; rfl)
    (fun i hi hi' => by rw [← hs₄]; exact set_jump_outside (.inl (by omega)))
    (fun i hi hi' => by rw [← hs₄]; exact set_jump_congr hi hi')
    (fun i hi hi' => by rw [← hs₄, set_jump_outside hi', set_jump_outside hi])
    hdepth hsound.2 (by omega) (by omega)
  rw [hstart]
  simp only [evalStat, Outcome.bind_eq, Outcome.bind_assoc]
  refine (condition_runs st hexpr hfits.1 ha hplaced hs).bind fun r _ => ?_
  have hjumped : Reaches (luaExecute ctx.host image) (fr.state a env ([] ++ [.object r.1]) r.2)
      (fr.state (if r.1.isNil then s₄ else openSpace a) env [] r.2) :=
    reaches_iffjmp s₄ (openSpace a) hjump (by omega) hopen
  refine hjumped.leads ?_
  split
  case isTrue =>
    rw [hcode]
    exact Leads.refl
  case isFalse =>
    simp only [Outcome.bind_assoc]
    refine leads_flow (hblock fr b _ env r.2 hfits.2 (hbody.left halign.toGrows) hlocal'
      (hntemp.symm ▸ zero_le_one)) (fun env' st' hflow => ?_) fun vs st' => rfl
    have haligned : Reaches (luaExecute ctx.host image)
        (fr.state (codeBlock ctx.name b (openSpace a)) env' [] st') (fr.state q env' [] st') := by
      rw [← hq]
      exact reaches_align (hq.symm ▸ hbody.behind hblock' halign.toGrows
        (hntemp.symm ▸ zero_le_one))
    have hreturn : Reaches (luaExecute ctx.host image) (fr.state q env' [] st')
        (fr.state s env' [] st') := reaches_upjmp hback (by omega)
    refine (haligned.trans hreturn).leads ?_
    exact hstat fr (.whileDo c b) s env' st' hfits h
      (hlocal.trans ((keeps_names n).block hflow).symm) hn

/-- A loop with the condition behind jumps back to where its code starts. -/
theorem repeat_runs {b : Block ν} {c : Exp ν} (hexpr : ExprRuns ctx image n)
    (hblock : BlockRuns ctx image n) (hstat : StatRuns ctx image n)
    (hfits : b.Fits ∧ c.Fits ∧ b.temps = 0)
    (h : Placed image fr.unit s (codeStat ctx.name (.repeatUntil b c) s))
    (hlocal : s.localvar = env.map (·.1)) (hn : 0 ≤ s.ntemp) :
    Leads (luaExecute ctx.host image) (fr.state s env [] st)
      ((evalStat ctx (n + 1) (.repeatUntil b c) env st).bind
        (Flow.after fr (codeStat ctx.name (.repeatUntil b c) s))) := by
  obtain ⟨s₀, hs₀⟩ : ∃ s₀, { s with ntemp := 0 } = s₀ := ⟨_, rfl⟩
  obtain ⟨s₁, hs₁⟩ : ∃ s₁, codeBlock ctx.name b s₀ = s₁ := ⟨_, rfl⟩
  obtain ⟨a, ha⟩ : ∃ a, ((codeExpr ctx.name c s₁).oneValue c.isCall).alignN 2 = a := ⟨_, rfl⟩
  obtain ⟨s₄, hs₄⟩ : ∃ s₄, (openSpace a).setJump a.pc .IFFUPJMP (a.pc + 3 - s.pc) = s₄ := ⟨_, rfl⟩
  have hcode : codeStat ctx.name (.repeatUntil b c) s = s₄ := by
    rw [← hs₄, ← ha, ← hs₁, ← hs₀]
    rfl
  have hstart : fr.state s env [] st = fr.state s₀ env [] st := by
    rw [← hs₀]
    rfl
  have hs : Matches s₀ env ([] : List (Slot ν κ)) := hs₀ ▸ Matches.restart hlocal
  have hplaced₀ : Placed image fr.unit s₀ s₄ := hs₀ ▸ hcode ▸ h.restart hn
  have hn₀ : 0 ≤ s₀.ntemp := by rw [← hs₀]
  have hpc₀ : s₀.pc = s.pc := by rw [← hs₀]
  have hblock' : Adds s₀ s₁ [] := hs₁ ▸ adds_block ctx.name b s₀
  have hcondition : Emits s₁ a (1 + 0) :=
    ha ▸ (emits_expr ctx.name c s₁).one_value.trans (emits_align 2)
  have herr : (openSpace a).err = false := by
    rw [← hs₄] at hplaced₀
    exact hplaced₀.err
  have herra : a.err = false := emits_space.err herr
  have herr₁ := hcondition.err herra
  have hall : Adds s₀ a _ := hblock'.trans (hcondition.adds (by decide))
  have hopen : (openSpace a).pc = a.pc + 3 := rfl
  have hpca := hall.pc
  have hpc₄ : s₄.pc = a.pc + 3 := by rw [← hs₄]; rfl
  obtain ⟨hplaced, hjump, -⟩ := Placed.jump (a := a) (hs₄ ▸ hplaced₀) hall.toGrows Grows.refl
    (hall.sound herra (hplaced₀.sound hn₀)).2 (by omega)
  rw [hstart]
  simp only [evalStat, Outcome.bind_eq, Outcome.bind_assoc]
  refine leads_flow (hs₁ ▸ hblock fr b s₀ env st hfits.1 (hs₁.symm ▸ hplaced.left hcondition.toGrows)
    hs.localvar hn₀) (fun env' st' hflow => ?_) fun vs st' => rfl
  have hnames := (keeps_names n).block hflow
  have hmatches : Matches s₁ env' ([] : List (Slot ν κ)) := by
    refine ⟨?_, ?_⟩
    · rw [hblock'.localvar herr₁, hs.localvar, hnames, List.append_nil]
    · rw [← hs₁, block_ntemp ctx.name b (hs₁.symm ▸ herr₁), hfits.2.2]
      rfl
  simp only [Outcome.bind_assoc]
  refine (condition_runs st' hexpr hfits.2.1 ha (hplaced.behind hblock' hcondition.toGrows hn₀)
    hmatches).bind fun r _ => ?_
  have hjumped : Reaches (luaExecute ctx.host image) (fr.state a env' ([] ++ [.object r.1]) r.2)
      (fr.state (if r.1.isNil then s else s₄) env' [] r.2) :=
    reaches_iffupjmp s s₄ hjump (by omega) hpc₄
  refine hjumped.leads ?_
  split
  case isTrue =>
    exact hstat fr (.repeatUntil b c) s env' r.2 hfits h (hlocal.trans hnames.symm) hn
  case isFalse =>
    rw [hcode]
    exact Leads.refl

/-! ### All statements -/

theorem stat_runs (hexpr : ExprRuns ctx image n) (hlist : ExprlistRuns ctx image n)
    (hvars : VarlistRuns ctx image n) (hdecls : DeclistRuns ctx image n)
    (hstat : StatRuns ctx image n) (helse : ElseRuns ctx image n) (hblock : BlockRuns ctx image n) :
    StatRuns ctx image (n + 1) := by
  intro fr stat s env st hfits h hlocal hn
  cases stat with
  | ifThen c b e =>
      obtain ⟨hc, hb, he, hfollows⟩ := hfits
      simp only [evalStat, Outcome.bind_eq]
      exact if_runs (s := { s with ntemp := 0 }) st hexpr hblock helse hc hb he hfollows rfl rfl rfl
        rfl (h.restart hn) (Matches.restart hlocal)
  | whileDo c b => exact while_runs hexpr hblock hstat hfits h hlocal hn
  | repeatUntil b c => exact repeat_runs hexpr hblock hstat hfits h hlocal hn
  | assign vs es e => exact assign_runs hvars hlist hfits h hlocal hn
  | call f args => exact call_stat_runs hexpr hfits h hlocal hn
  | locals ds =>
      simp only [evalStat, Outcome.bind_eq, Outcome.bind_assoc]
      exact (hdecls fr ds _ env st hfits (h.restart hn) hlocal le_rfl).bind fun r _ => Leads.refl

theorem else_runs (hexpr : ExprRuns ctx image n) (helse : ElseRuns ctx image n)
    (hblock : BlockRuns ctx image n) : ElseRuns ctx image (n + 1) := by
  intro fr e b s env st hfits hfollows hntemp h hlocal
  have htemps : 0 ≤ b.temps := by
    obtain ⟨ss, ret⟩ := b
    cases ret with
    | none => exact le_rfl
    | some es => exact es.temps_nonneg
  cases e with
  | none => exact Leads.refl
  | els b => exact hblock fr b s env st hfits h hlocal (hntemp ▸ htemps)
  | elseif c b' e =>
      obtain ⟨hc, hb, he, hfollows'⟩ := hfits
      simp only [evalElse, Outcome.bind_eq]
      exact if_runs st hexpr hblock helse hc hb he hfollows' rfl rfl rfl rfl h
        ⟨hlocal, hntemp.trans hfollows⟩

end Sirius.Lua
