import Mathlib.Tactic
import Sirius.Lua.Blocks

/-!
# The code of a program does what the program means

A program is a list of statements and functions. Its statements run one after the other in the main
code, and a call runs the code of its function, which comes back with the values of a `return`.
-/

namespace Sirius.Lua

open Library Sirius.Lua.Parser

variable {ν κ : Type} [Runtime ν]

/-! ### Functions -/

/-- The state of the parser in which the body of a function is compiled. -/
def Parser.enter (params : List Word) (s : Parser) : Parser :=
  params.foldl (fun s w => s.incrNlocalvar w) { s with pc := 0, basepc := 0, localvar := [] }

/-- The final code has the code of each function in a unit of its own. -/
def Linked (ctx : Context ν κ) (image : Image) : Prop :=
  ∀ u f, ctx.funs[u]? = some f → f.body.Fits ∧ ∃ s : Parser, 0 ≤ s.ntemp ∧
    Placed image (u + 1) { s with pc := 0, basepc := 0, localvar := [] } (codeFunction ctx.name f s)

omit [Runtime ν] in
theorem adds_params (params : List Word) : ∀ s : Parser,
    Adds s (params.foldl (fun s w => s.incrNlocalvar w) s) params := by
  induction params with
  | nil => exact fun s => .refl
  | cons w params ih => exact fun s => adds_nlocalvar.trans (ih _)

theorem adds_function (name : Word → Text) (f : Fun ν) (s : Parser) :
    Adds { s with pc := 0, basepc := 0, localvar := [] } (codeFunction name f s) f.params := by
  obtain ⟨s₂, hs₂⟩ : ∃ s₂, codeBlock name f.body ((s.enter f.params).luaCodeadjust 0) = s₂ := ⟨_, rfl⟩
  have hparams : Adds { s with pc := 0, basepc := 0, localvar := [] } (s.enter f.params) f.params :=
    adds_params f.params _
  have hbody : Adds ((s.enter f.params).luaCodeadjust 0) s₂ [] := hs₂ ▸ adds_block name f.body _
  have hret : Emits s₂ ((s₂.codeOp .RETCODE).codeByte (BitVec.ofNat 8 s₂.localvar.length)) (0 + 0) :=
    (emits_op .RETCODE).trans emits_byte
  have hcode : codeFunction name f s =
      (s₂.codeOp .RETCODE).codeByte (BitVec.ofNat 8 s₂.localvar.length) := by
    rw [← hs₂]
    rfl
  rw [hcode]
  exact (hparams.trans ((emits_adjust.adds le_rfl).trans (hbody.trans (hret.adds le_rfl)))).of_eq
    (by simp)

variable [DecidableEq κ] {ctx : Context ν κ} {image : Image} {n : Nat}

omit [Runtime ν] [DecidableEq κ] in
theorem param_names (params : List Word) (vs : List (Object ν κ)) :
    (params.zip (adjust params.length vs)).map (·.1) = params :=
  List.map_fst_zip (adjust_length _ _).ge

/-- The code of a function that is called. -/
theorem function_runs {u : Nat} {f : Fun ν} {s : Parser} (fr : Frame ν κ) (hu : fr.unit = u + 1)
    (hblock : BlockRuns ctx image n) (hfits : f.body.Fits) (hs : 0 ≤ s.ntemp)
    (h : Placed image (u + 1) { s with pc := 0, basepc := 0, localvar := [] }
      (codeFunction ctx.name f s)) (args : List (Object ν κ)) (st : Store ν κ) :
    Leads (luaExecute ctx.host image)
      ⟨⟨u + 1, 0⟩, fr.below ++ args.map .object, fr.below.length, st⟩
      ((evalBlock ctx n f.body (f.params.zip (adjust f.params.length args)) st).bind fun flow =>
        match flow with
        | .next _ st => fr.ret [] st
        | .ret vs st => fr.ret vs st) := by
  obtain ⟨s₁, hs₁⟩ : ∃ s₁, s.enter f.params = s₁ := ⟨_, rfl⟩
  obtain ⟨s₂, hs₂⟩ : ∃ s₂, codeBlock ctx.name f.body (s₁.luaCodeadjust 0) = s₂ := ⟨_, rfl⟩
  obtain ⟨s₃, hs₃⟩ : ∃ s₃, (s₂.codeOp .RETCODE).codeByte (BitVec.ofNat 8 s₂.localvar.length) = s₃ :=
    ⟨_, rfl⟩
  have hcode : codeFunction ctx.name f s = s₃ := by
    rw [← hs₃, ← hs₂, ← hs₁]
    rfl
  rw [hcode] at h
  have hparams : Adds { s with pc := 0, basepc := 0, localvar := [] } s₁ f.params :=
    hs₁ ▸ adds_params f.params _
  have hadjust : Emits s₁ (s₁.luaCodeadjust 0) 0 := emits_adjust
  have hbody : Adds (s₁.luaCodeadjust 0) s₂ [] := hs₂ ▸ adds_block ctx.name f.body _
  have hret : Emits s₂ s₃ (0 + 0) := hs₃ ▸ (emits_op .RETCODE).trans emits_byte
  have hbodyret := hbody.trans (hret.adds le_rfl)
  have hrest := (hadjust.adds le_rfl).trans hbodyret
  have hplaced := h.behind hparams hrest.toGrows hs
  have hn := h.ntemp_nonneg hparams hrest.toGrows hs
  have hpc : s₁.pc = 0 := by
    have hkeeps (params : List Word) : ∀ s : Parser,
        (params.foldl (fun s w => s.incrNlocalvar w) s).pc = s.pc := by
      induction params with
      | nil => exact fun s => rfl
      | cons w params ih =>
          intro s
          rw [List.foldl_cons, ih]
          unfold incrNlocalvar
          split <;> rfl
    rw [← hs₁]
    exact hkeeps f.params _
  have hlocal : s₁.localvar = f.params := hparams.localvar (hrest.err h.err)
  have hbehind := hplaced.behind (hadjust.adds le_rfl) hbodyret.toGrows hn
  have hn' := hplaced.ntemp_nonneg (hadjust.adds le_rfl) hbodyret.toGrows hn
  have hlast := hbehind.behind hbody (hret.adds le_rfl).toGrows hn'
  have hlocal₂ : s₂.localvar = f.params := by
    rw [hbody.localvar (hret.err h.err), hadjust.localvar, hlocal, List.append_nil]
  have hn₂ := hbehind.ntemp_nonneg hbody (hret.adds le_rfl).toGrows hn'
  have hdepth := hlast.depth
  rw [hlocal₂] at hdepth
  simp only [MAXSLOTS, STACKGAP, MAXVAR] at hdepth
  have hnames := param_names f.params args
  obtain ⟨env, henv⟩ : ∃ env, f.params.zip (adjust f.params.length args) = env := ⟨_, rfl⟩
  have hvalues : env.map (fun p => Slot.object p.2) =
      (adjust f.params.length args).map .object := by
    have hsnd : env.map (·.2) = adjust f.params.length args := by
      rw [← henv]
      exact List.map_snd_zip (adjust_length _ _).le
    rw [← hsnd, List.map_map]
    rfl
  rw [henv] at hnames ⊢
  -- the parameters become as many as the function has
  have hstart : Reaches (luaExecute ctx.host image)
      ⟨⟨u + 1, 0⟩, fr.below ++ args.map .object, fr.below.length, st⟩
      (fr.state (s₁.luaCodeadjust 0) env [] st) := by
    obtain ⟨hop, hbyte⟩ := operand_byte fr [] ctx.host (args.map .object) st
      (hu ▸ hplaced.left hbodyret.toGrows)
    have hentry : fr.state s₁ [] (args.map .object) st =
        ⟨⟨u + 1, 0⟩, fr.below ++ args.map .object, fr.below.length, st⟩ := by
      simp only [Frame.state, hu, hpc, List.map_nil, List.append_nil]
    rw [hentry] at hop
    refine Reaches.single (hop.trans ?_)
    have hcount : (BitVec.ofInt 8 (0 + s₁.localvar.length)).toNat = f.params.length := by
      rw [hlocal, BitVec.toNat_ofInt]
      omega
    rw [hu, hpc] at hbyte
    simp only [execute]
    rw [hbyte, hcount, adjust_stack_append]
    simp only [Machine.next, Frame.state, hu, hvalues, List.append_nil]
    have hpc' : (s₁.luaCodeadjust 0).pc = 0 + 2 := congrArg (· + 2) hpc
    rw [hpc']
  refine hstart.leads (leads_flow (hs₂ ▸ hblock fr f.body _ env st hfits
    (hs₂.symm ▸ hu ▸ hbehind.left hret.toGrows) (hadjust.localvar.trans (hlocal.trans hnames.symm)) hn')
    (fun env' st' hflow => ?_) fun vs st' => rfl)
  have hnames' := (keeps_names n).block hflow
  obtain ⟨hop, hbyte⟩ := operand_byte fr env' ctx.host [] st' (hu ▸ hs₃ ▸ hlast)
  refine Leads.of_step ?_
  rw [hop]
  have hcount : (BitVec.ofNat 8 s₂.localvar.length).toNat =
      (env'.map fun p => Slot.object p.2).length := by
    have hlength := congrArg List.length hnames'
    rw [hnames, List.length_map] at hlength
    rw [BitVec.toNat_ofNat, List.length_map, hlength, hlocal₂, Nat.mod_eq_of_lt (by omega)]
  simp only [execute, Frame.state] at hbyte ⊢
  rw [hbyte, hcount]
  exact congrArg Next.ofOutcome (ret_code_locals _ _ _ _)

/-- A call comes back. -/
theorem call_comes_back (hlinked : Linked ctx image) (hblock : BlockRuns ctx image n) :
    CallRuns ctx image (n + 1) := by
  intro u off outer f x args base st hop
  have hstep : luaExecute ctx.host image ⟨⟨u, off⟩, callStack outer f x args, base, st⟩ = _ :=
    Eq.trans (execute_at hop) (call_func_eq ⟨u, off⟩ base outer f x args)
  cases f with
  | function b =>
      obtain ⟨unit, place⟩ := b
      match unit, place with
      | 0, _ => trivial
      | _ + 1, _ + 1 => trivial
      | u' + 1, 0 =>
          simp only [callValue]
          cases hget : ctx.funs[u']? with
          | none => trivial
          | some f =>
              dsimp only at hstep ⊢
              by_cases hfull : MAXSTACK - (outer.length + 2) < STACKGAP
              case pos =>
                rw [if_pos hfull] at hstep
                exact Leads.overflow hstep
              case neg =>
                rw [if_neg hfull] at hstep
                obtain ⟨hfits, s, hs, hplaced⟩ := hlinked u' f hget
                obtain ⟨fr, hfr⟩ : ∃ fr : Frame ν κ, fr = ⟨u' + 1, outer ++
                    [.object (.function ⟨u, off + 1⟩)] ++ [.mark (some base)]⟩ := ⟨_, rfl⟩
                have hbase : fr.below.length = outer.length + 2 := by
                  rw [hfr]
                  simp
                have hret (vs : List (Object ν κ)) (st : Store ν κ) :
                    fr.ret vs st = .ok ⟨⟨u, off + 1⟩, outer ++ vs.map .object, base, st⟩ := by
                  have hback := ret_code_eq st ⟨0, 0⟩ ⟨u, off + 1⟩ base 0 outer
                    (vs.map .object) [] rfl
                  rw [List.append_nil] at hback
                  rw [Frame.ret, hbase, hfr]
                  exact hback
                have hrun := function_runs fr (by rw [hfr]) hblock hfits hs hplaced args st
                rw [hbase] at hrun
                refine Leads.of_go hstep ?_
                have hbelow : callStack outer (.function ⟨u, off + 1⟩) (some base) args =
                    fr.below ++ args.map .object := by
                  rw [hfr]
                  rfl
                rw [hbelow]
                refine (congrArg (Leads _ _) ?_).mpr hrun
                simp only [Outcome.bind_eq, Outcome.map_bind]
                congr 1
                funext flow
                cases flow with
                | next env st => exact (hret [] st).symm
                | ret vs st => exact (hret vs st).symm
  | cfunction f => exact Leads.of_go hstep Leads.refl
  | _ => exact .inl ⟨_, .refl, hstep⟩

/-! ### Everything that runs -/

/-- The evaluation with fuel `n` and the machine agree. -/
structure Runs (ctx : Context ν κ) (image : Image) (n : Nat) : Prop where
  var : VarRuns ctx image n
  expr : ExprRuns ctx image n
  exprlist : ExprlistRuns ctx image n
  ffieldlist : FfieldlistRuns ctx image n
  lfieldlist : LfieldlistRuns ctx image n
  ofConstructor : ConstructorRuns ctx image n
  call : CallRuns ctx image n
  varlist : VarlistRuns ctx image n
  ofInit : InitRuns ctx image n
  declist : DeclistRuns ctx image n
  stat : StatRuns ctx image n
  elsepart : ElseRuns ctx image n
  block : BlockRuns ctx image n
  statlist : StatlistRuns ctx image n

theorem runs_zero : Runs ctx image 0 := by
  constructor <;> (repeat intro _) <;> exact trivial

theorem runs (hlinked : Linked ctx image) (n : Nat) : Runs ctx image n := by
  induction n with
  | zero => exact runs_zero
  | succ n ih =>
      exact {
        var := var_runs ih.var ih.expr
        expr := expr_runs ih.var ih.expr ih.exprlist ih.ffieldlist ih.lfieldlist ih.ofConstructor
          ih.call
        exprlist := exprlist_runs ih.exprlist ih.expr
        ffieldlist := ffieldlist_runs ih.ffieldlist ih.expr
        lfieldlist := lfieldlist_runs ih.lfieldlist ih.expr
        ofConstructor := constructor_runs ih.call
        call := call_comes_back hlinked ih.block
        varlist := varlist_runs ih.varlist ih.var
        ofInit := init_runs ih.expr
        declist := declist_runs ih.declist ih.ofInit
        stat := stat_runs ih.expr ih.exprlist ih.varlist ih.declist ih.stat ih.elsepart ih.block
        elsepart := else_runs ih.expr ih.elsepart ih.block
        block := block_runs ih.statlist ih.exprlist
        statlist := statlist_runs ih.statlist ih.stat }

/-! ### Programs -/

/-- The functions of a program. -/
def functions : List (Item ν) → List (Fun ν)
  | [] => []
  | .stat _ :: items => functions items
  | .function f :: items => f :: functions items

/-- The literals are in range, conditions are as `Stat.Fits` says, and a statement of the main
program makes no local variables, which would stay on the stack. -/
def Item.Fits : Item ν → Prop
  | .stat st => st.Fits ∧ st.names = []
  | .function f => f.body.Fits

/-- The meaning of the statements of a program, one after the other. What a `return` does that is
not in a function is left open. -/
def evalMain (ctx : Context ν κ) (n : Nat) : List (Item ν) → Store ν κ → Outcome (Store ν κ)
  | [], st => .ok st
  | .function _ :: items, st => evalMain ctx n items st
  | .stat stat :: items, st => do
      let flow ← evalStat ctx n stat [] st
      match flow with
      | .next _ st => evalMain ctx n items st
      | .ret _ _ => .unknown

/-- The numbers of temporaries between two members of a program. -/
def Chunk.Sound (c : Chunk) : Prop := 0 ≤ c.parser.ntemp ∧ c.parser.ntemp ≤ MAXSLOTS

/-- What later members of the program leave as it is. -/
structure Chunk.Extends (c c' : Chunk) : Prop where
  err : c'.parser.err = false → c.parser.err = false
  maincode : c.maincode ≤ c'.maincode
  mainbuffer : ∀ i < c.maincode, c'.mainbuffer i = c.mainbuffer i
  units : c.units <+: c'.units
  constants : c.parser.constants <+: c'.parser.constants

theorem Chunk.Extends.refl {c : Chunk} : c.Extends c :=
  ⟨id, le_rfl, fun _ _ => rfl, List.prefix_rfl, List.prefix_rfl⟩

theorem Chunk.Extends.trans {c c₁ c₂ : Chunk} (h : c.Extends c₁) (h' : c₁.Extends c₂) :
    c.Extends c₂ where
  err herr := h.err (h'.err herr)
  maincode := h.maincode.trans h'.maincode
  mainbuffer i hi := (h'.mainbuffer i (hi.trans_le h.maincode)).trans (h.mainbuffer i hi)
  units := h.units.trans h'.units
  constants := h.constants.trans h'.constants

/-- The state of the parser in which a statement of the main program is compiled. -/
def Chunk.main (c : Chunk) : Parser :=
  { c.parser with
    buffer := c.mainbuffer, pc := c.maincode, basepc := c.maincode, localvar := [] }

/-- The state of the parser in which a function is compiled. -/
def Chunk.function (c : Chunk) : Parser := { c.parser with pc := 0, basepc := 0, localvar := [] }

omit [DecidableEq κ] in
theorem item_extends (name : Word → Text) (item : Item ν) (c : Chunk) :
    c.Extends (codeItem name item c) := by
  cases item with
  | stat st =>
      have hadds := adds_stat name st c.main
      exact ⟨hadds.err, hadds.pc, hadds.buffer, List.prefix_rfl, hadds.constants⟩
  | function f =>
      have hadds := adds_function name f c.parser
      exact ⟨hadds.err, le_rfl, fun _ _ => rfl, List.prefix_append _ _, hadds.constants⟩

omit [DecidableEq κ] in
theorem items_extend (name : Word → Text) (items : List (Item ν)) (c : Chunk) :
    c.Extends (codeItems name items c) := by
  induction items generalizing c with
  | nil => exact .refl
  | cons item items ih => exact (item_extends name item c).trans (ih _)

omit [DecidableEq κ] in
theorem item_sound (name : Word → Text) (item : Item ν) {c : Chunk} (hc : c.Sound)
    (herr : (codeItem name item c).parser.err = false) : (codeItem name item c).Sound := by
  cases item with
  | stat st =>
      have hsound := (adds_stat name st c.main).sound herr
        ⟨hc.1, by have := hc.2; simp only [Chunk.main, List.length_nil]; omega⟩
      exact ⟨hsound.1, by have := hsound.2; simp only [codeItem, Chunk.main] at this ⊢; omega⟩
  | function f =>
      have hsound := (adds_function name f c.parser).sound herr
        ⟨hc.1, by have := hc.2; simp only [List.length_nil]; omega⟩
      exact ⟨hsound.1, by have := hsound.2; simp only [codeItem] at this ⊢; omega⟩

/-- The code so far is part of the final code. -/
structure Chunk.In (c : Chunk) (image : Image) : Prop where
  err : c.parser.err = false
  main : ∀ i < c.maincode, image.code 0 i = c.mainbuffer i
  units : ∀ u b, c.units[u]? = some b → image.code (u + 1) = b
  constants : c.parser.constants <+: image.constants
  few : image.constants.length < MAXCONSTANT - 1

theorem Chunk.In.before {c c' : Chunk} {image : Image} (h : c'.In image) (hc : c.Extends c') :
    c.In image where
  err := hc.err h.err
  main i hi := (h.main i (hi.trans_le hc.maincode)).trans (hc.mainbuffer i hi)
  units u b hb := h.units u b (by
    obtain ⟨rest, hrest⟩ := hc.units
    rw [← hrest, List.getElem?_append_left (List.getElem?_eq_some_iff.mp hb).1, hb])
  constants := hc.constants.trans h.constants
  few := h.few

/-- A program without errors is part of its own final code. -/
theorem in_image {c : Chunk} (herr : c.parser.err = false)
    (hfew : c.parser.constants.length < MAXCONSTANT - 1) : c.In c.image where
  err := herr
  main i hi := Function.update_of_ne hi.ne _ _
  units u b hb := by
    simp only [Chunk.image, List.getD_eq_getElem?_getD, hb]
    rfl
  constants := List.prefix_rfl
  few := hfew

omit [DecidableEq κ] in
/-- The functions of a program have their units one after the other. -/
theorem items_linked {name : Word → Text} {items : List (Item ν)} {c : Chunk} (hc : c.Sound)
    (h : (codeItems name items c).In image) (hfits : ∀ item ∈ items, item.Fits) :
    ∀ u f, (functions items)[u]? = some f → f.body.Fits ∧ ∃ s : Parser, 0 ≤ s.ntemp ∧
      Placed image (c.units.length + u + 1) { s with pc := 0, basepc := 0, localvar := [] }
        (codeFunction name f s) := by
  induction items generalizing c with
  | nil => intro u f hf; cases hf
  | cons item items ih =>
      intro u f hf
      have hin : (codeItem name item c).In image := h.before (items_extend name items _)
      have hsound := item_sound name item hc hin.err
      have hrest := ih hsound h fun item hitem => hfits item (List.mem_cons_of_mem _ hitem)
      cases item with
      | stat st => exact hrest u f hf
      | function g =>
          have hlength : (codeItem name (.function g) c).units.length = c.units.length + 1 := by
            simp [codeItem]
          cases u with
          | succ u =>
              obtain ⟨hfit, s, hs, hplaced⟩ := hrest u f hf
              rw [hlength] at hplaced
              refine ⟨hfit, s, hs, ?_⟩
              rwa [Nat.add_right_comm c.units.length 1 u] at hplaced
          | zero =>
              cases hf
              refine ⟨hfits _ List.mem_cons_self, c.parser, hc.1, ?_⟩
              have hunit := hin.units c.units.length _ (List.getElem?_concat_length)
              refine ⟨hin.err, fun i _ hi => ?_, hin.constants, hin.few, le_rfl, Nat.zero_le _, ?_⟩
              · rw [Nat.add_zero, hunit]
                simp only [copyBytes, Nat.zero_le, Nat.zero_add, Nat.sub_zero, true_and, if_pos hi]
              · simpa using hc.2

/-- The statements of a program run one after the other. -/
theorem main_runs (hlinked : Linked ctx image) (n : Nat) {items : List (Item ν)} {c : Chunk}
    (hc : c.Sound) (h : (codeItems ctx.name items c).In image)
    (hfits : ∀ item ∈ items, item.Fits) (st : Store ν κ) :
    Leads (luaExecute ctx.host image) ⟨⟨0, c.maincode⟩, [], 0, st⟩
      ((evalMain ctx n items st).map fun st =>
        ⟨⟨0, (codeItems ctx.name items c).maincode⟩, [], 0, st⟩) := by
  induction items generalizing c st with
  | nil => exact Leads.refl
  | cons item items ih =>
      have hin : (codeItem ctx.name item c).In image := h.before (items_extend ctx.name items _)
      have hsound := item_sound ctx.name item hc hin.err
      have hrest := ih hsound h fun item hitem => hfits item (List.mem_cons_of_mem _ hitem)
      cases item with
      | function f => exact hrest st
      | stat stat =>
          obtain ⟨hfit, hnames⟩ := hfits _ List.mem_cons_self
          have hadds := adds_stat ctx.name stat c.main
          have hplaced : Placed image 0 c.main (codeStat ctx.name stat c.main) :=
            { err := hin.err
              code := fun i _ hi => hin.main i hi
              constants := hin.constants
              few := hin.few
              low := le_rfl
              high := Nat.le_add_right _ _
              depth := by
                have := hc.2
                simp only [Chunk.main, List.length_nil]
                omega }
          have hrun := (runs hlinked n).stat ⟨0, []⟩ stat c.main [] st hfit hplaced rfl hc.1
          simp only [evalMain, Outcome.bind_eq, Outcome.map_bind]
          refine leads_flow hrun (fun env' st' hflow => ?_) fun vs st' => rfl
          have henv := (keeps_names n).stat hflow
          rw [hnames] at henv
          obtain rfl : env' = [] := by simpa using henv
          exact hrest st'

/-- The text of a whole number. -/
def wholeText (i : Int) : Text :=
  (if i < 0 then [45#8] else []) ++ (Nat.toDigits 10 i.natAbs).map fun c => BitVec.ofNat 8 c.toNat

/-- Whole numbers of 32 bits, for programs without fractions. -/
instance wholeNumbers : Runtime (BitVec 32) where
  ofInt := BitVec.ofInt 32
  toInt := BitVec.toInt
  toUnsigned := BitVec.toNat
  toBytes x := writeWord (fun _ => 0#8) 0 x.toNat
  ofBytes m := BitVec.ofNat 32 (readWord m 0)
  add := (· + ·)
  sub := (· - ·)
  mul := (· * ·)
  div := BitVec.sdiv
  neg := (- ·)
  eq x y := x = y
  lt := BitVec.slt
  le := BitVec.sle
  strtod s := if s = [] ∨ s.any (fun c => c < 48#8 || 57#8 < c) then none
    else some (s.foldl (fun x c => 10 * x + (c - 48#8).setWidth 32) 0)
  decimal := wholeText
  general x := wholeText x.toInt
  strcmp s t := if s = t then 0 else if s < t then -1 else 1
  of_bytes_to_bytes x m h := by
    have hword : readWord m 0 = readWord (writeWord (fun _ => 0#8) 0 x.toNat) 0 :=
      read_word_congr fun k hk => by rw [Nat.zero_add]; exact h k hk
    rw [hword, read_write_word_same x.isLt, BitVec.ofNat_toNat, BitVec.setWidth_eq]
  to_int_of_int i h h' := by
    rw [BitVec.toInt_ofInt]
    exact Int.bmod_eq_of_le (by omega) (by omega)
  eq_of_int i h h' := by simp
  strcmp_eq_zero s t := by
    split
    · simp [*]
    · split <;> simp [*]

/-- The empty program. -/
def emptyChunk : Chunk :=
  ⟨fun _ => 0#8, 0, [], ⟨fun _ => 0#8, 0, 0, 0, [], [], [], false⟩⟩

/-- `function double(x) return x + x end  a = double(21)`, with the symbols `a` and `double`. -/
def doubleProgram : List (Item (BitVec 32)) :=
  [.function ⟨1, [2], .mk .empty (some (.snoc .empty
      (.binary .add (.var (.name 2)) (.var (.name 2)))))⟩,
    .stat (.assign (.one (.name 0)) .empty (.call (.name 1) (.snoc .empty (.number 21))))]

/-- The store of the program, with its function. -/
def doubleStore : Store (BitVec 32) Empty :=
  ⟨fun w => if w = 1 then .function ⟨1, 0⟩ else .nil none, []⟩

def noHost : Host (BitVec 32) Empty := ⟨fun f _ _ => nomatch f⟩

end Sirius.Lua
