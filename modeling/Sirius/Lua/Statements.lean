import Mathlib.Tactic
import Sirius.Lua.Expressions

/-!
# The code of statements does what they mean

A statement runs without temporaries, and a `return` in it takes the values of the frame back to
its caller. The condition behind a block is compiled with the temporaries of the `return` of that
block, so a condition of an `elseif` or an `until` is right only where that leaves none.
-/

namespace Sirius.Lua

open Library Sirius.Lua.Parser

variable {ν κ : Type} [Runtime ν]

/-- The integer literals are below 2^16. -/
def Vars.Fits : Vars ν → Prop
  | .one v => v.Fits
  | .snoc vs v => vs.Fits ∧ v.Fits

/-- The integer literals of an initial value are below 2^16. -/
def InitFits (init : Option (Exp ν)) : Prop := ∀ e ∈ init, e.Fits

def Decls.Fits : Decls ν → Prop
  | .one _ init => InitFits init
  | .snoc ds _ init => ds.Fits ∧ InitFits init

omit [Runtime ν] in
/-- An `elseif` comes behind a block whose `return` leaves no temporaries. -/
def Else.Follows (e : Else ν) (b : Block ν) : Prop :=
  match e with
  | .elseif _ _ _ => b.temps = 0
  | _ => True

mutual
/-- The literals are in range, and no condition is compiled with the temporaries of a `return`. -/
def Stat.Fits : Stat ν → Prop
  | .ifThen c b e => c.Fits ∧ b.Fits ∧ e.Fits ∧ e.Follows b
  | .whileDo c b => c.Fits ∧ b.Fits
  | .repeatUntil b c => b.Fits ∧ c.Fits ∧ b.temps = 0
  | .assign vs es e => vs.Fits ∧ es.Fits ∧ e.Fits
  | .call f args => f.Fits ∧ args.Fits
  | .locals ds => ds.Fits

def Else.Fits : Else ν → Prop
  | .none => True
  | .els b => b.Fits
  | .elseif c b e => c.Fits ∧ b.Fits ∧ e.Fits ∧ e.Follows b

def Block.Fits : Block ν → Prop
  | .mk ss ret => ss.Fits ∧ ∀ es ∈ ret, es.Fits

def Stats.Fits : Stats ν → Prop
  | .empty => True
  | .snoc ss st => ss.Fits ∧ st.Fits
end

section

variable {image : Image} {u n : Nat} {s s₁ s₂ s' : Parser} {ws : List Word} {fr : Frame ν κ}
  {env env' : Env ν κ} {st st' : Store ν κ} {vs : List (Object ν κ)}

/-! ### Placed statements -/

omit [Runtime ν] in
theorem Placed.sound (h : Placed image u s s') (hs : 0 ≤ s.ntemp) : Sound s := ⟨hs, h.depth⟩

omit [Runtime ν] in
/-- The code behind a statement. -/
theorem Placed.behind (h : Placed image u s s₂) (h₁ : Adds s s₁ ws) (h₂ : Grows s₁ s₂)
    (hs : 0 ≤ s.ntemp) : Placed image u s₁ s₂ where
  err := h.err
  code i hi := h.code i (h₁.pc.trans hi)
  constants := h.constants
  few := h.few
  low := by rw [h₁.basepc]; exact h.low.trans h₁.pc
  high := by rw [h₁.basepc]; exact h₁.room (h₂.err h.err) h.high
  depth := (h₁.sound (h₂.err h.err) (h.sound hs)).2

omit [Runtime ν] in
theorem Placed.ntemp_nonneg (h : Placed image u s s₂) (h₁ : Adds s s₁ ws) (h₂ : Grows s₁ s₂)
    (hs : 0 ≤ s.ntemp) : 0 ≤ s₁.ntemp := (h₁.sound (h₂.err h.err) (h.sound hs)).1

omit [Runtime ν] in
/-- A statement starts to count its temporaries again. -/
theorem Placed.restart (h : Placed image u s s') (hs : 0 ≤ s.ntemp) :
    Placed image u { s with ntemp := 0 } s' :=
  { h with depth := by have := h.depth; simp only; omega }

omit [Runtime ν] in
theorem Matches.restart (hlocal : s.localvar = env.map (·.1)) :
    Matches { s with ntemp := 0 } env ([] : List (Slot ν κ)) := ⟨hlocal, rfl⟩

/-! ### How statements end -/

/-- The machine behind a `RETCODE` with these values. -/
def Frame.ret (fr : Frame ν κ) (vs : List (Object ν κ)) (st : Store ν κ) : Outcome (Machine ν κ) :=
  (⟨⟨0, 0⟩, fr.below ++ vs.map .object, fr.below.length, st⟩ : Machine ν κ).retCode 0

/-- The machine after a statement whose code ends at `s'`. -/
def Flow.after (fr : Frame ν κ) (s' : Parser) : Flow ν κ → Outcome (Machine ν κ)
  | .next env st => .ok (fr.state s' env [] st)
  | .ret vs st => fr.ret vs st

omit [Runtime ν] in
/-- `RETCODE` drops the local variables. -/
theorem ret_code_locals (pc : Addr) (below locals values : List (Slot ν κ)) :
    (⟨pc, below ++ locals ++ values, below.length, st⟩ : Machine ν κ).retCode locals.length =
      (⟨⟨0, 0⟩, below ++ values, below.length, st⟩ : Machine ν κ).retCode 0 := by
  unfold Machine.retCode
  have hget (i : Nat) (hi : i < below.length) :
      (below ++ locals ++ values)[i]? = (below ++ values)[i]? := by
    rw [List.append_assoc, List.getElem?_append_left hi, List.getElem?_append_left hi]
  have htake : (below ++ locals ++ values).take (below.length - 2) =
      (below ++ values).take (below.length - 2) := by
    rw [List.append_assoc, List.take_append_of_le_length (Nat.sub_le _ _),
      List.take_append_of_le_length (Nat.sub_le _ _)]
  have hdrop : (below ++ locals ++ values).drop (below.length + locals.length) = values := by
    rw [← List.length_append, List.drop_left]
  have hdrop' : (below ++ values).drop (below.length + 0) = values := by
    rw [Nat.add_zero, List.drop_left]
  by_cases hlow : below.length < 2
  · simp only [if_pos hlow]
  · simp only [if_neg hlow, hget (below.length - 2) (by omega), hget (below.length - 1) (by omega),
      htake, hdrop, hdrop']

omit [Runtime ν] in
/-- What comes after a statement is reached from where the code of it ends. -/
theorem Flow.after_congr (hpc : s.pc = s'.pc) (flow : Flow ν κ) :
    flow.after fr s = flow.after fr s' := by
  cases flow with
  | next env st => simp only [Flow.after, state_pc hpc]
  | ret vs st => rfl

end

variable [DecidableEq κ] (ctx : Context ν κ) (image : Image)

/-- The code of the variables of an assignment leaves their parts. -/
def VarlistRuns (n : Nat) : Prop :=
  ∀ (fr : Frame ν κ) (vs : Vars ν) (s : Parser) (env : Env ν κ) (st : Store ν κ), vs.Fits →
    Placed image fr.unit s (codeVarlist ctx.name vs s).2 → Matches s env ([] : List (Slot ν κ)) →
    Leads (luaExecute ctx.host image) (fr.state s env [] st)
      ((evalVars ctx n vs env st).map fun r =>
        fr.state (codeVarlist ctx.name vs s).2 env (r.1.flatMap Target.slots) r.2)

/-- The code of an initial value leaves it. -/
def InitRuns (n : Nat) : Prop :=
  ∀ (fr : Frame ν κ) (init : Option (Exp ν)) (s : Parser) (env : Env ν κ) (st : Store ν κ),
    InitFits init → Placed image fr.unit s (codeInit ctx.name init s) →
    s.localvar = env.map (·.1) → 0 ≤ s.ntemp →
    Leads (luaExecute ctx.host image) (fr.state s env [] st)
      ((evalInit ctx n init env st).map fun r =>
        fr.state (codeInit ctx.name init s) env [.object r.1] r.2)

/-- The code of a declaration makes its variables. -/
def DeclistRuns (n : Nat) : Prop :=
  ∀ (fr : Frame ν κ) (ds : Decls ν) (s : Parser) (env : Env ν κ) (st : Store ν κ),
    ds.Fits → Placed image fr.unit s (codeDeclist ctx.name ds s) →
    s.localvar = env.map (·.1) → 0 ≤ s.ntemp →
    Leads (luaExecute ctx.host image) (fr.state s env [] st)
      ((evalDecls ctx n ds env st).map fun r =>
        fr.state (codeDeclist ctx.name ds s) r.1 [] r.2)

/-- The code of a statement does what it means. -/
def StatRuns (n : Nat) : Prop :=
  ∀ (fr : Frame ν κ) (stat : Stat ν) (s : Parser) (env : Env ν κ) (st : Store ν κ),
    stat.Fits → Placed image fr.unit s (codeStat ctx.name stat s) →
    s.localvar = env.map (·.1) → 0 ≤ s.ntemp →
    Leads (luaExecute ctx.host image) (fr.state s env [] st)
      ((evalStat ctx n stat env st).bind (Flow.after fr (codeStat ctx.name stat s)))

/-- The code of the other case of a conditional. -/
def ElseRuns (n : Nat) : Prop :=
  ∀ (fr : Frame ν κ) (e : Else ν) (b : Block ν) (s : Parser) (env : Env ν κ) (st : Store ν κ),
    e.Fits → e.Follows b → s.ntemp = b.temps →
    Placed image fr.unit s (codeElsepart ctx.name e s) → s.localvar = env.map (·.1) →
    Leads (luaExecute ctx.host image) (fr.state s env [] st)
      ((evalElse ctx n e env st).bind (Flow.after fr (codeElsepart ctx.name e s)))

/-- The code of a block. -/
def BlockRuns (n : Nat) : Prop :=
  ∀ (fr : Frame ν κ) (b : Block ν) (s : Parser) (env : Env ν κ) (st : Store ν κ),
    b.Fits → Placed image fr.unit s (codeBlock ctx.name b s) →
    s.localvar = env.map (·.1) → 0 ≤ s.ntemp →
    Leads (luaExecute ctx.host image) (fr.state s env [] st)
      ((evalBlock ctx n b env st).bind (Flow.after fr (codeBlock ctx.name b s)))

/-- The code of some statements. -/
def StatlistRuns (n : Nat) : Prop :=
  ∀ (fr : Frame ν κ) (ss : Stats ν) (s : Parser) (env : Env ν κ) (st : Store ν κ),
    ss.Fits → Placed image fr.unit s (codeStatlist ctx.name ss s) →
    s.localvar = env.map (·.1) → 0 ≤ s.ntemp →
    Leads (luaExecute ctx.host image) (fr.state s env [] st)
      ((evalStats ctx n ss env st).bind (Flow.after fr (codeStatlist ctx.name ss s)))

variable {ctx image} {n : Nat} {fr : Frame ν κ} {s s₁ s₂ s' : Parser} {env env' : Env ν κ}
  {st st' : Store ν κ} {vs : List (Object ν κ)} {ts : List (Target ν κ)} {t : Target ν κ}

/-! ### The names of the local variables -/

omit [DecidableEq κ] in
/-- A write changes no name. -/
theorem write_names {v : Object ν κ} (h : t.write v env st = .ok (env', st')) :
    env'.map (·.1) = env.map (·.1) := by
  cases t with
  | localVar i =>
      cases h
      refine List.ext_getElem? fun j => ?_
      rw [List.getElem?_map, List.getElem?_map, List.getElem?_modify]
      cases env[j]? with
      | none => rfl
      | some p => by_cases hi : i = j <;> simp [hi]
  | globalVar w =>
      cases h
      rfl
  | indexed o ref =>
      obtain ⟨_, _, h⟩ := Outcome.map_eq_ok h
      cases h
      rfl

omit [DecidableEq κ] in
theorem assign_all_names {l : List (Target ν κ × Object ν κ)}
    (h : assignAll l env st = .ok (env', st')) : env'.map (·.1) = env.map (·.1) := by
  induction l generalizing env' st' with
  | nil =>
      cases h
      rfl
  | cons p l ih =>
      simp only [assignAll, Outcome.bind_eq] at h
      obtain ⟨r, hr, h⟩ := Outcome.bind_eq_ok h
      exact (write_names h).trans (ih hr)

theorem decls_names {ds : Decls ν} (h : evalDecls ctx n ds env st = .ok (env', st')) :
    env'.map (·.1) = env.map (·.1) ++ ds.names := by
  induction n generalizing ds env' st' with
  | zero => cases h
  | succ n ih =>
      cases ds with
      | one w init =>
          simp only [evalDecls, Outcome.bind_eq] at h
          obtain ⟨_, _, h⟩ := Outcome.bind_eq_ok h
          cases h
          simp [Decls.names]
      | snoc ds w init =>
          simp only [evalDecls, Outcome.bind_eq] at h
          obtain ⟨r, hr, h⟩ := Outcome.bind_eq_ok h
          obtain ⟨_, _, h⟩ := Outcome.bind_eq_ok h
          cases h
          simp [Decls.names, ih hr]

/-- The names behind statements with fuel `n`. -/
structure KeepsNames (ctx : Context ν κ) (n : Nat) : Prop where
  stat : ∀ {stat : Stat ν} {env env' : Env ν κ} {st st' : Store ν κ},
    evalStat ctx n stat env st = .ok (.next env' st') →
    env'.map (·.1) = env.map (·.1) ++ stat.names
  els : ∀ {e : Else ν} {env env' : Env ν κ} {st st' : Store ν κ},
    evalElse ctx n e env st = .ok (.next env' st') → env'.map (·.1) = env.map (·.1)
  block : ∀ {b : Block ν} {env env' : Env ν κ} {st st' : Store ν κ},
    evalBlock ctx n b env st = .ok (.next env' st') → env'.map (·.1) = env.map (·.1)
  stats : ∀ {ss : Stats ν} {env env' : Env ν κ} {st st' : Store ν κ},
    evalStats ctx n ss env st = .ok (.next env' st') →
    env'.map (·.1) = env.map (·.1) ++ ss.names

theorem keeps_names (n : Nat) : KeepsNames ctx n := by
  induction n with
  | zero => constructor <;> (intro _ _ _ _ _ h; cases h)
  | succ n ih =>
      constructor
      case stat =>
        intro stat env env' st st' h
        cases stat with
        | ifThen c b e =>
            simp only [evalStat, Outcome.bind_eq] at h
            obtain ⟨v, _, h⟩ := Outcome.bind_eq_ok h
            refine Eq.trans ?_ (List.append_nil _).symm
            split at h
            · exact ih.els h
            · exact ih.block h
        | whileDo c b =>
            simp only [evalStat, Outcome.bind_eq] at h
            obtain ⟨v, _, h⟩ := Outcome.bind_eq_ok h
            split at h
            · cases h
              exact (List.append_nil _).symm
            · obtain ⟨flow, hflow, h⟩ := Outcome.bind_eq_ok h
              cases flow with
              | next env₁ st₁ => rw [ih.stat h, ih.block hflow]
              | ret vs st₁ => cases h
        | repeatUntil b c =>
            simp only [evalStat, Outcome.bind_eq] at h
            obtain ⟨flow, hflow, h⟩ := Outcome.bind_eq_ok h
            cases flow with
            | next env₁ st₁ =>
                obtain ⟨v, _, h⟩ := Outcome.bind_eq_ok h
                split at h
                · rw [ih.stat h, ih.block hflow]
                · cases h
                  exact (ih.block hflow).trans (List.append_nil _).symm
            | ret vs st₁ => cases h
        | assign vs es e =>
            simp only [evalStat, Outcome.bind_eq] at h
            obtain ⟨ts, _, h⟩ := Outcome.bind_eq_ok h
            obtain ⟨us, _, h⟩ := Outcome.bind_eq_ok h
            obtain ⟨r, hr, h⟩ := Outcome.bind_eq_ok h
            cases h
            exact (assign_all_names hr).trans (List.append_nil _).symm
        | call f args =>
            simp only [evalStat, Outcome.bind_eq] at h
            obtain ⟨r, _, h⟩ := Outcome.bind_eq_ok h
            cases h
            exact (List.append_nil _).symm
        | locals ds =>
            simp only [evalStat, Outcome.bind_eq] at h
            obtain ⟨r, hr, h⟩ := Outcome.bind_eq_ok h
            cases h
            exact decls_names hr
      case els =>
        intro e env env' st st' h
        cases e with
        | none =>
            cases h
            rfl
        | els b => exact ih.block h
        | elseif c b e =>
            simp only [evalElse, Outcome.bind_eq] at h
            obtain ⟨v, _, h⟩ := Outcome.bind_eq_ok h
            split at h
            · exact ih.els h
            · exact ih.block h
      case block =>
        intro b env env' st st' h
        obtain ⟨ss, ret⟩ := b
        simp only [evalBlock, Outcome.bind_eq] at h
        obtain ⟨flow, hflow, h⟩ := Outcome.bind_eq_ok h
        cases flow with
        | next env₁ st₁ =>
            cases ret with
            | none =>
                cases h
                have hlength : env.length = (env.map (·.1)).length := List.length_map _ |>.symm
                rw [List.map_take, ih.stats hflow, hlength, List.take_left]
            | some es =>
                obtain ⟨r, _, h⟩ := Outcome.bind_eq_ok h
                cases h
        | ret vs st₁ => cases h
      case stats =>
        intro ss env env' st st' h
        cases ss with
        | empty =>
            cases h
            exact (List.append_nil _).symm
        | snoc ss stat =>
            simp only [evalStats, Outcome.bind_eq] at h
            obtain ⟨flow, hflow, h⟩ := Outcome.bind_eq_ok h
            cases flow with
            | next env₁ st₁ => rw [ih.stat h, ih.stats hflow, Stats.names, List.append_assoc]
            | ret vs st₁ => cases h

end Sirius.Lua
