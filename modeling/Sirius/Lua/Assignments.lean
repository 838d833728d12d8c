import Mathlib.Tactic
import Sirius.Lua.Statements

/-!
# The code of assignments

The tables and indices of the indexed variables lie below the values. `lua_codestore` finds them by
counting the indexed variables behind its own, and pops them itself where the only indexed variable
is the first one.
-/

namespace Sirius.Lua

open Library Sirius.Lua.Parser

variable {ν κ : Type} [Runtime ν] [DecidableEq κ] {ctx : Context ν κ} {image : Image} {n i : Nat}
  {fr : Frame ν κ} {s s₁ s₂ s' : Parser} {env env' : Env ν κ} {st st' : Store ν κ}
  {vs : List (Object ν κ)} {ts : List (Target ν κ)} {t : Target ν κ} {number : Int}

/-! ### Lists of variables -/

/-- The variable is indexed. -/
def Target.isIndexed : Target ν κ → Bool
  | .indexed _ _ => true
  | _ => false

omit [Runtime ν] [DecidableEq κ] in
theorem number_eq_zero : t.number = 0 ↔ t.isIndexed = true := by
  cases t with
  | localVar i =>
      simp only [Target.number, Target.isIndexed, Bool.false_eq_true, iff_false]
      omega
  | globalVar w =>
      simp only [Target.number, Target.isIndexed, Bool.false_eq_true, iff_false]
      omega
  | indexed o ref => exact ⟨fun _ => rfl, fun _ => rfl⟩

omit [Runtime ν] [DecidableEq κ] in
theorem slots_length : t.slots.length = if t.isIndexed then 2 else 0 := by
  cases t <;> rfl

omit [Runtime ν] [DecidableEq κ] in
/-- The temporaries of some variables. -/
theorem flat_slots_length (ts : List (Target ν κ)) :
    (ts.flatMap Target.slots).length = ts.countP Target.isIndexed * 2 := by
  induction ts with
  | nil => rfl
  | cons t ts ih =>
      rw [List.flatMap_cons, List.length_append, ih, slots_length, List.countP_cons]
      split <;> omega

omit [Runtime ν] [DecidableEq κ] in
theorem count_numbers (ts : List (Target ν κ)) :
    (ts.map Target.number).countP (· = 0) = ts.countP Target.isIndexed := by
  rw [List.countP_map]
  refine List.countP_congr fun t _ => ?_
  simp [number_eq_zero]

omit [DecidableEq κ] in
/-- A local variable that is denoted exists. -/
theorem localname_lt {localvar : List Word} {w : Word} : ∀ {i j : Nat},
    luaLocalnameLoop localvar w i = some j → j < localvar.length
  | 0, _, h => by cases h
  | i + 1, j, h => by
      unfold luaLocalnameLoop at h
      split at h
      case isTrue hget =>
        cases h
        exact (List.getElem?_eq_some_iff.mp hget).1
      case isFalse => exact localname_lt h

/-- The variable exists if it is a local one. -/
def Target.Exists (t : Target ν κ) (env : Env ν κ) : Prop :=
  match t with
  | .localVar i => i < env.length
  | _ => True

theorem eval_var_exists {v : Var ν} (h : evalVar ctx n v env st = .ok (t, st')) : t.Exists env := by
  cases n with
  | zero => cases h
  | succ n =>
      cases v with
      | name w =>
          cases hname : luaLocalname (env.map (·.1)) w with
          | none =>
              simp only [evalVar, hname, Outcome.ok.injEq, Prod.mk.injEq] at h
              rw [← h.1]
              trivial
          | some i =>
              simp only [evalVar, hname, Outcome.ok.injEq, Prod.mk.injEq] at h
              rw [← h.1]
              have hless := localname_lt hname
              rwa [List.length_map] at hless
      | index v e =>
          simp only [evalVar, Outcome.bind_eq] at h
          obtain ⟨_, _, h⟩ := Outcome.bind_eq_ok h
          obtain ⟨_, _, h⟩ := Outcome.bind_eq_ok h
          obtain ⟨_, _, h⟩ := Outcome.bind_eq_ok h
          cases h
          trivial
      | field v w =>
          simp only [evalVar, Outcome.bind_eq] at h
          obtain ⟨_, _, h⟩ := Outcome.bind_eq_ok h
          obtain ⟨_, _, h⟩ := Outcome.bind_eq_ok h
          cases h
          trivial

omit [DecidableEq κ] [Runtime ν] in
theorem nvarbuffer_ok (h : (s.incrNvarbuffer number).err = false) :
    (s.incrNvarbuffer number).varbuffer = s.varbuffer ++ [number] ∧
      (s.varbuffer ++ [number]).length < MAXVAR := by
  unfold incrNvarbuffer at h ⊢
  split
  case isTrue hroom =>
    refine ⟨rfl, ?_⟩
    rw [List.length_append, List.length_singleton]
    omega
  case isFalse hroom =>
    rw [if_neg hroom] at h
    cases h

/-- What the parser knows of the variables of an assignment. -/
structure Collected (s : Parser) (k : Nat) (ts : List (Target ν κ)) : Prop where
  varbuffer : s.varbuffer = ts.map Target.number
  few : ts.length < MAXVAR
  indexed : k = ts.countP Target.isIndexed

theorem varlist_collected {vs : Vars ν} (hlocal : s.localvar = env.map (·.1))
    (herr : (codeVarlist ctx.name vs s).2.err = false)
    (h : evalVars ctx n vs env st = .ok (ts, st')) :
    Collected (codeVarlist ctx.name vs s).2 (codeVarlist ctx.name vs s).1 ts ∧
      ∀ t ∈ ts, t.Exists env := by
  induction n generalizing vs ts st' with
  | zero => cases h
  | succ n ih =>
      cases vs with
      | one v =>
          simp only [evalVars, Outcome.bind_eq] at h
          obtain ⟨r, hr, h⟩ := Outcome.bind_eq_ok h
          cases h
          have hnumber := eval_var_number (s := s) hlocal hr
          obtain ⟨hbuffer, hless⟩ := nvarbuffer_ok herr
          refine ⟨⟨?_, by simp [MAXVAR], ?_⟩, ?_⟩
          · rw [codeVarlist]
            exact hbuffer.trans (by rw [hnumber]; rfl)
          · rw [codeVarlist]
            simp only [hnumber, number_eq_zero, List.countP_cons, List.countP_nil, Nat.zero_add]
          · intro t ht
            rw [List.mem_singleton.mp ht]
            exact eval_var_exists hr
      | snoc vs v =>
          simp only [evalVars, Outcome.bind_eq] at h
          obtain ⟨us, hus, h⟩ := Outcome.bind_eq_ok h
          obtain ⟨r, hr, h⟩ := Outcome.bind_eq_ok h
          cases h
          have hvars := emits_varlist ctx.name vs s
          have hvar := emits_var ctx.name v (codeVarlist ctx.name vs s).2
          have hlast := emits_nvarbuffer (s := (codeVar ctx.name v (codeVarlist ctx.name vs s).2).2)
            (codeVar ctx.name v (codeVarlist ctx.name vs s).2).1
          have herr₁ := hlast.err herr
          obtain ⟨hcollected, hexists⟩ := ih (hvar.err herr₁) hus
          have hnumber := eval_var_number (s := (codeVarlist ctx.name vs s).2)
            (hvars.localvar.trans hlocal) hr
          obtain ⟨hbuffer, hless⟩ := nvarbuffer_ok herr
          rw [hvar.varbuffer, hcollected.varbuffer] at hbuffer hless
          refine ⟨⟨?_, ?_, ?_⟩, ?_⟩
          · rw [codeVarlist]
            refine hbuffer.trans ?_
            rw [hnumber, List.map_append]
            rfl
          · simpa using hless
          · rw [codeVarlist]
            simp only [hnumber, number_eq_zero, hcollected.indexed, List.countP_append,
              List.countP_cons, List.countP_nil, Nat.zero_add]
            split <;> rfl
          · intro t ht
            rcases List.mem_append.mp ht with ht | ht
            · exact hexists t ht
            · rw [List.mem_singleton.mp ht]
              exact eval_var_exists hr

omit [DecidableEq κ] [Runtime ν] in
theorem grows_nvarbuffer (vars : List Int) (number : Int) :
    Grows s ({ s with varbuffer := vars }.incrNvarbuffer number) :=
  { (emits_nvarbuffer (s := { s with varbuffer := vars }) number).toGrows with }

omit [DecidableEq κ] [Runtime ν] in
theorem state_nvarbuffer (vars : List Int) (number : Int) (temps : List (Slot ν κ)) :
    fr.state s env temps st =
      fr.state ({ s with varbuffer := vars }.incrNvarbuffer number) env temps st := by
  refine state_pc ?_
  unfold incrNvarbuffer
  split <;> rfl

theorem varlist_runs (hvars : VarlistRuns ctx image n) (hvar : VarRuns ctx image n) :
    VarlistRuns ctx image (n + 1) := by
  intro fr vs s env st hfits h hs
  cases vs with
  | one v =>
      have hgrows := grows_nvarbuffer (s := (codeVar ctx.name v s).2) [] (codeVar ctx.name v s).1
      simp only [evalVars, Outcome.bind_eq, Outcome.map_bind]
      refine (hvar fr v s env [] st hfits (h.left hgrows) hs).bind fun r _ => ?_
      rw [state_nvarbuffer [] (codeVar ctx.name v s).1, Outcome.map_ok, List.flatMap_cons,
        List.flatMap_nil, List.append_nil]
      exact Leads.refl
  | snoc vs v =>
      have hvars' := emits_varlist ctx.name vs s
      have hvar' := emits_var ctx.name v (codeVarlist ctx.name vs s).2
      have hgrows := grows_nvarbuffer (s := (codeVar ctx.name v (codeVarlist ctx.name vs s).2).2)
        (codeVar ctx.name v (codeVarlist ctx.name vs s).2).2.varbuffer
        (codeVar ctx.name v (codeVarlist ctx.name vs s).2).1
      have hboth := h.left hgrows
      have hleft := hboth.left hvar'.toGrows
      simp only [evalVars, Outcome.bind_eq, Outcome.map_bind]
      refine (hvars fr vs s env st hfits.1 hleft hs).bind fun r hr => ?_
      obtain ⟨hcollected, -⟩ := varlist_collected hs.localvar hleft.err hr
      have hmatches : Matches (codeVarlist ctx.name vs s).2 env (r.1.flatMap Target.slots) := by
        have hstart : Matches { s with varbuffer := (codeVarlist ctx.name vs s).2.varbuffer } env
            ([] : List (Slot ν κ)) := ⟨hs.localvar, hs.ntemp⟩
        refine hstart.emits hvars' hleft.err ?_
        rw [flat_slots_length, hcollected.indexed]
        push_cast
        simp only [List.length_nil]
        ring
      have hplaced : Placed image fr.unit (codeVarlist ctx.name vs s).2
          (codeVar ctx.name v (codeVarlist ctx.name vs s).2).2 := by
        have hstart : Placed image fr.unit
            { s with varbuffer := (codeVarlist ctx.name vs s).2.varbuffer }
            (codeVar ctx.name v (codeVarlist ctx.name vs s).2).2 := { hboth with }
        exact hstart.right hvars' hvar'.toGrows
      refine (hvar fr v _ env _ r.2 hfits.2 hplaced hmatches).bind fun r' _ => ?_
      rw [state_nvarbuffer (codeVar ctx.name v (codeVarlist ctx.name vs s).2).2.varbuffer
        (codeVar ctx.name v (codeVarlist ctx.name vs s).2).1, Outcome.map_ok, List.flatMap_append]
      simp only [List.flatMap_cons, List.flatMap_nil, List.append_nil]
      exact Leads.refl

/-! ### Stores -/

omit [DecidableEq κ] in
/-- The last variable gets its object first. -/
theorem assign_all_concat (l : List (Target ν κ × Object ν κ)) (t : Target ν κ) (v : Object ν κ) :
    assignAll (l ++ [(t, v)]) env st = (t.write v env st).bind fun r => assignAll l r.1 r.2 := by
  induction l with
  | nil =>
      simp only [List.nil_append, assignAll, Outcome.bind_eq, Outcome.ok_bind]
      cases t.write v env st <;> rfl
  | cons p l ih =>
      simp only [List.cons_append, assignAll, Outcome.bind_eq] at ih ⊢
      rw [ih, Outcome.bind_assoc]

omit [Runtime ν] [DecidableEq κ] in
/-- A local variable in its slot is overwritten. -/
theorem set_local {below temps : List (Slot ν κ)} {j : Nat} {v : Object ν κ} (hj : j < env.length) :
    (below ++ env.map (fun p => Slot.object p.2) ++ temps).set (below.length + j) (.object v) =
      below ++ (env.modify j fun p => (p.1, v)).map (fun p => Slot.object p.2) ++ temps := by
  have hset : (env.map fun p => Slot.object p.2).set j (.object v) =
      (env.modify j fun p => (p.1, v)).map fun p => Slot.object p.2 := by
    refine List.ext_getElem? fun k => ?_
    rw [List.getElem?_map, List.getElem?_modify, List.getElem?_set]
    by_cases hk : j = k
    · subst hk
      simp [hj]
    · simp [hk]
  rw [List.append_assoc, List.set_append_right _ _ (Nat.le_add_right _ _), Nat.add_sub_cancel_left,
    List.set_append_left _ _ (by simpa using hj), hset, List.append_assoc]

/-- What is below the values when the store of variable `i` is done. -/
def slotsLeft (ts : List (Target ν κ)) (i : Nat) : List (Slot ν κ) :=
  if i = 0 ∧ (ts.drop 1).countP Target.isIndexed = 0 then [] else ts.flatMap Target.slots

omit [Runtime ν] [DecidableEq κ] in
theorem slots_left_of_not_indexed (hget : ts[i]? = some t) (ht : t.isIndexed = false) :
    slotsLeft ts i = ts.flatMap Target.slots := by
  unfold slotsLeft
  split
  case isTrue h =>
    obtain ⟨rfl, hrest⟩ := h
    cases ts with
    | nil => rfl
    | cons t' ts =>
        cases hget
        refine (List.eq_nil_of_length_eq_zero ?_).symm
        rw [flat_slots_length, List.countP_cons, ht]
        have hcount : ts.countP Target.isIndexed = 0 := hrest
        rw [hcount]
        rfl
  case isFalse => rfl

variable (fr) in
/-- `lua_codestore` -/
theorem leads_codestore (host : Host ν κ) (st : Store ν κ) {v : Object ν κ}
    (h : Placed image fr.unit s (s.luaCodestore i)) (hs : s.varbuffer = ts.map Target.number)
    (hlocal : s.localvar = env.map (·.1)) (hn : 0 ≤ s.ntemp) (hfew : ts.length < MAXVAR)
    (hget : ts[i]? = some t) (hvs : vs.length = i) (hexists : t.Exists env) :
    Leads (luaExecute host image)
      (fr.state s env (ts.flatMap Target.slots ++ vs.map .object ++ [.object v]) st)
      ((t.write v env st).map fun r =>
        fr.state (s.luaCodestore i) r.1 (slotsLeft ts i ++ vs.map .object) r.2) := by
  have hnumber : s.varbuffer.getD i 0 = t.number := by
    rw [hs, List.getD_eq_getElem?_getD, List.getElem?_map, hget]
    rfl
  have hi : i < ts.length := (List.getElem?_eq_some_iff.mp hget).1
  have hlength := congrArg List.length hlocal
  rw [List.length_map] at hlength
  have hdepth := h.depth
  simp only [MAXSLOTS, STACKGAP, MAXVAR] at hdepth hfew
  cases t with
  | localVar j =>
      rw [slots_left_of_not_indexed hget rfl]
      have hneg : ¬ (Target.localVar j : Target ν κ).number > 0 := by
        simp only [Target.number]; omega
      have hneg' : (Target.localVar j : Target ν κ).number < 0 := by
        simp only [Target.number]; omega
      have hplace : (-(Target.localVar j : Target ν κ).number - 1).toNat = j := by
        simp only [Target.number]; omega
      have hj : j < env.length := hexists
      unfold luaCodestore at h ⊢
      dsimp only at h ⊢
      rw [hnumber, if_neg hneg, if_pos hneg'] at h ⊢
      simp only [hplace] at h ⊢
      refine Reaches.leads (Reaches.single ?_) Leads.refl
      split
      case isTrue hshort =>
        rw [dif_pos hshort] at h
        rw [execute_op h]
        simp only [execute, Machine.storeLocal, Frame.state, ← List.append_assoc, pop_append,
          Outcome.bind_eq, Outcome.ok_bind]
        rw [List.append_assoc _ (ts.flatMap Target.slots), set_local hj]
        simp only [Machine.next, List.append_assoc]
        rfl
      case isFalse hshort =>
        rw [dif_neg hshort] at h
        obtain ⟨hop, hbyte⟩ := operand_byte _ _ host
          (ts.flatMap Target.slots ++ vs.map .object ++ [.object v]) st h
        rw [hop]
        simp only [execute, Frame.state] at hbyte ⊢
        rw [hbyte, BitVec.toNat_ofNat, Nat.mod_eq_of_lt (by omega)]
        simp only [Machine.storeLocal, ← List.append_assoc, pop_append, Outcome.bind_eq,
          Outcome.ok_bind]
        rw [List.append_assoc _ (ts.flatMap Target.slots), set_local hj]
        simp only [Machine.next, List.append_assoc]
        rfl
  | globalVar w =>
      rw [slots_left_of_not_indexed hget rfl]
      have hpos : (Target.globalVar w : Target ν κ).number > 0 := by
        simp only [Target.number]; omega
      have hword : ((Target.globalVar w : Target ν κ).number - 1).toNat = w.toNat := by
        simp only [Target.number]; omega
      unfold luaCodestore at h ⊢
      dsimp only at h ⊢
      rw [hnumber, if_pos hpos, hword] at h ⊢
      obtain ⟨halign, hop, hread⟩ := reaches_wide host
        (ts.flatMap Target.slots ++ vs.map .object ++ [.object v]) st h w.isLt
      refine Reaches.leads (halign.trans (Reaches.single ?_)) Leads.refl
      rw [hop]
      simp only [execute, Frame.state, ← List.append_assoc, pop_append, Outcome.bind_eq,
        Outcome.ok_bind] at hread ⊢
      rw [hread, BitVec.ofNat_toNat, BitVec.setWidth_eq]
      rfl
  | indexed o ref =>
      have hupper : (s.varbuffer.drop (i + 1)).countP (· = 0) =
          (ts.drop (i + 1)).countP Target.isIndexed := by
        rw [hs, ← List.map_drop, count_numbers]
      have hsplit : ts.flatMap Target.slots = (ts.take i).flatMap Target.slots ++
          Slot.object o :: Slot.object ref :: (ts.drop (i + 1)).flatMap Target.slots := by
        have hts : ts = ts.take i ++ Target.indexed o ref :: ts.drop (i + 1) := by
          rw [← (List.getElem?_eq_some_iff.mp hget).2, List.getElem_cons_drop, List.take_append_drop]
        conv_lhs => rw [hts]
        rw [List.flatMap_append, List.flatMap_cons]
        rfl
      have hcount : (ts.drop (i + 1)).countP Target.isIndexed ≤ ts.length - (i + 1) := by
        rw [← List.length_drop]
        exact List.countP_le_length
      have hafter := flat_slots_length (ts.drop (i + 1))
      unfold luaCodestore at h ⊢
      dsimp only at h ⊢
      rw [hnumber, if_neg (by simp [Target.number]), if_neg (by simp [Target.number]), hupper]
        at h ⊢
      refine Leads.of_step ?_
      split
      case isTrue hzero =>
        rw [if_pos hzero] at h
        obtain ⟨hnone, rfl⟩ : (ts.drop (i + 1)).countP Target.isIndexed = 0 ∧ i = 0 := by omega
        rw [hnone] at hafter
        have hleft : slotsLeft ts 0 = [] := if_pos ⟨rfl, hnone⟩
        rw [hleft, hsplit, List.eq_nil_of_length_eq_zero hafter, List.eq_nil_of_length_eq_zero hvs,
          execute_op h]
        have hstack (stack : List (Slot ν κ)) : stack ++ [Slot.object o, .object ref] ++
            [.object v] = stack ++ [.object o] ++ [.object ref] ++ [.object v] := by simp
        simp only [execute, Frame.state, List.take_zero, List.flatMap_nil, List.nil_append,
          List.map_nil, List.append_nil, ← List.append_assoc, hstack, pop_append, Outcome.bind_eq,
          Outcome.ok_bind]
        congr 1
        simp only [Target.write]
        cases st.storeIndexed o ref v with
        | ok st' => simp [Outcome.map, Outcome.bind, Machine.next, codeOp, codeByte]
        | error => rfl
        | unknown => rfl
      case isFalse hzero =>
        rw [if_neg hzero] at h
        have hleft : slotsLeft ts i = ts.flatMap Target.slots := if_neg fun hboth => by
          obtain ⟨rfl, hnone⟩ := hboth
          exact hzero (by rw [hnone])
        obtain ⟨hop, hbyte⟩ := operand_byte _ _ host
          (ts.flatMap Target.slots ++ vs.map .object ++ [.object v]) st h
        rw [hleft, hop]
        obtain ⟨a, ha⟩ : ∃ a, fr.below ++ env.map (fun p => Slot.object p.2) ++
            (ts.take i).flatMap Target.slots = a := ⟨_, rfl⟩
        obtain ⟨c, hc⟩ : ∃ c, (ts.drop (i + 1)).flatMap Target.slots ++ vs.map Slot.object ++
            [Slot.object v] = c := ⟨_, rfl⟩
        have hstack : fr.below ++ env.map (fun p => Slot.object p.2) ++
            (ts.flatMap Target.slots ++ vs.map Slot.object ++ [Slot.object v]) =
              a ++ .object o :: .object ref :: c := by
          rw [hsplit, ← ha, ← hc]
          simp only [List.append_assoc, List.cons_append]
        have hclength : c.length = (ts.drop (i + 1)).countP Target.isIndexed * 2 + i + 1 := by
          rw [← hc, List.length_append, List.length_append, hafter, List.length_map, hvs]
          rfl
        have htotal : (a ++ Slot.object o :: Slot.object ref :: c).length =
            a.length + 2 + c.length := by
          simp only [List.length_append, List.length_cons]
          omega
        have hobject : objectAt (a ++ Slot.object o :: Slot.object ref :: c) a.length = .ok o :=
          object_at_append a _ o
        have hindex : objectAt (a ++ Slot.object o :: Slot.object ref :: c) (a.length + 1) =
            .ok ref := by
          have happend := object_at_append (a ++ [Slot.object o]) c ref
          rwa [List.append_assoc, List.length_append] at happend
        have hpop : pop (a ++ Slot.object o :: Slot.object ref :: c) =
            .ok (fr.below ++ env.map (fun p => Slot.object p.2) ++
              (ts.flatMap Target.slots ++ vs.map Slot.object), v) := by
          rw [← hstack, ← List.append_assoc, pop_append]
        have hplace : a.length + 2 + c.length - 3 -
            ((ts.drop (i + 1)).countP Target.isIndexed * 2 + i) = a.length := by omega
        have hplace' : a.length + 2 + c.length - 2 -
            ((ts.drop (i + 1)).countP Target.isIndexed * 2 + i) = a.length + 1 := by omega
        simp only [execute, Frame.state] at hbyte ⊢
        rw [hbyte, BitVec.toNat_ofNat, Nat.mod_eq_of_lt (by omega), hstack, htotal, hplace, hplace']
        simp only [hpop, hobject, hindex, Outcome.bind_eq, Outcome.ok_bind]
        congr 1
        simp only [Target.write]
        cases st.storeIndexed o ref v with
        | ok st' => rfl
        | error => rfl
        | unknown => rfl

variable (fr) in
/-- The variables up to `i` get their objects. -/
theorem stores_runs (host : Host ν κ) (hfew : ts.length < MAXVAR) :
    ∀ (i : Nat) (vs : List (Object ν κ)) (s : Parser) (env : Env ν κ) (st : Store ν κ),
      vs.length = i + 1 → i < ts.length → Placed image fr.unit s (codeStores (i + 1) s) →
      s.varbuffer = ts.map Target.number → s.localvar = env.map (·.1) → 0 ≤ s.ntemp →
      (∀ t ∈ ts, t.Exists env) →
      Leads (luaExecute host image) (fr.state s env (ts.flatMap Target.slots ++ vs.map .object) st)
        ((assignAll ((ts.take (i + 1)).zip vs) env st).map fun r =>
          fr.state (codeStores (i + 1) s) r.1 (slotsLeft ts 0) r.2) := by
  intro i
  induction i with
  | zero =>
      intro vs s env st hvs hi h hs hlocal hn hexists
      obtain ⟨v, rfl⟩ := List.length_eq_one_iff.mp hvs
      have hget := List.getElem?_eq_getElem hi
      have hstore := leads_codestore fr (v := v) host st h hs hlocal hn hfew hget
        (rfl : ([] : List (Object ν κ)).length = 0) (hexists _ (List.getElem_mem hi))
      have hfirst : (ts.take (0 + 1)).zip [v] = [(ts[0], v)] := by
        rw [← List.take_append_getElem hi]
        rfl
      have hassign : assignAll ([] ++ [(ts[0], v)]) env st = _ := assign_all_concat [] ts[0] v
      rw [List.nil_append] at hassign
      rw [hfirst, hassign]
      simp only [List.map_nil, List.append_nil] at hstore
      rw [Outcome.map_bind]
      exact hstore.bind fun r _ => Leads.refl
  | succ i ih =>
      intro vs s env st hvs hi h hs hlocal hn hexists
      obtain ⟨us, v, rfl⟩ : ∃ us v, vs = us ++ [v] := by
        rcases List.eq_nil_or_concat' vs with rfl | hlast
        · cases hvs
        · exact hlast
      have hus : us.length = i + 1 := by simpa using hvs
      have hget := List.getElem?_eq_getElem hi
      have hfirst := emits_codestore (s := s) (i + 1)
      have hrest := emits_stores (s := s.luaCodestore (i + 1)) (i + 1)
      have hplaced := h.left hrest.toGrows
      have hstore := leads_codestore fr (v := v) host st hplaced hs hlocal hn hfew hget hus
        (hexists _ (List.getElem_mem hi))
      have hleft : slotsLeft ts (i + 1) = ts.flatMap Target.slots := if_neg fun hboth => by
        cases hboth.1
      have hzip : (ts.take (i + 1 + 1)).zip (us ++ [v]) =
          (ts.take (i + 1)).zip us ++ [(ts[i + 1], v)] := by
        rw [← List.take_append_getElem hi]
        exact List.zip_append (by rw [List.length_take]; omega)
      rw [hzip, assign_all_concat, Outcome.map_bind, List.map_append, ← List.append_assoc]
      rw [hleft] at hstore
      refine hstore.bind fun r hr => ?_
      have hnames := write_names hr
      have hntemp : (s.luaCodestore (i + 1)).ntemp = s.ntemp + 0 := hfirst.ntemp hplaced.err
      refine ih us (s.luaCodestore (i + 1)) r.1 r.2 hus (by omega)
        (h.right hfirst hrest.toGrows) (hfirst.varbuffer.trans hs)
        ((hfirst.localvar.trans hlocal).trans hnames.symm) (by omega) fun t ht => ?_
      have hsame : r.1.length = env.length := by
        rw [← List.length_map (fun x : Word × Object ν κ => x.1), hnames, List.length_map]
      have hold := hexists t ht
      cases t with
      | localVar j => exact lt_of_lt_of_eq hold hsame.symm
      | globalVar w => trivial
      | indexed o ref => trivial

/-! ### Assignments -/

omit [Runtime ν] [DecidableEq κ] in
theorem slots_objects (ts : List (Target ν κ)) :
    ∃ os : List (Object ν κ), ts.flatMap Target.slots = os.map .object := by
  induction ts with
  | nil => exact ⟨[], rfl⟩
  | cons t ts ih =>
      obtain ⟨os, hos⟩ := ih
      rw [List.flatMap_cons, hos]
      cases t with
      | localVar i => exact ⟨os, rfl⟩
      | globalVar w => exact ⟨os, rfl⟩
      | indexed o ref => exact ⟨o :: ref :: os, rfl⟩

/-- The values of an assignment become as many as its variables. -/
theorem adjust_values_runs (host : Host ν κ) (st : Store ν κ) {k : Nat} {es : Exps ν} {call : Bool}
    (hcollected : Collected s k ts)
    (h : Placed image fr.unit s (if call ∨ (s.varbuffer.length : Int) ≠ s.ntemp - k * 2 then
      s.luaCodeadjust (k * 2 + s.varbuffer.length) else s))
    (hlocal : s.localvar = env.map (·.1)) (hcall : es.isCall = call)
    (hntemp : s.ntemp = k * 2 + es.temps) (hvs : es.isCall = false → vs.length = es.length)
    (hdepth : s.localvar.length ≤ MAXSLOTS) :
    Reaches (luaExecute host image) (fr.state s env (ts.flatMap Target.slots ++ vs.map .object) st)
      (fr.state (if call ∨ (s.varbuffer.length : Int) ≠ s.ntemp - k * 2 then
        s.luaCodeadjust (k * 2 + s.varbuffer.length) else s) env
        (ts.flatMap Target.slots ++ (adjust ts.length vs).map .object) st) := by
  have hlength : s.varbuffer.length = ts.length := by rw [hcollected.varbuffer, List.length_map]
  have hcount : k ≤ ts.length := by
    rw [hcollected.indexed]
    exact List.countP_le_length
  have hfew := hcollected.few
  simp only [MAXSLOTS, STACKGAP, MAXVAR] at hdepth hfew
  split
  case isTrue hneeded =>
    rw [if_pos hneeded] at h
    refine reaches_adjust host _ st vs (n := ts.length) h hlocal ?_ (by omega)
    rw [flat_slots_length, ← hcollected.indexed, hlength]
    push_cast
    ring
  case isFalse hdone =>
    obtain ⟨hnone, hsame⟩ := not_or.mp hdone
    have hes : es.isCall = false := by rw [hcall]; exact Bool.eq_false_iff.mpr hnone
    have htemps : es.temps = es.length := by simp [Exps.temps, hes]
    have hequal : vs.length = ts.length := by
      rw [hvs hes]
      omega
    rw [← hequal, adjust_self]
    exact .refl

variable (fr) in
/-- What is left of the indexed variables is dropped. -/
theorem drop_slots_runs (host : Host ν κ) (st : Store ν κ) {k : Nat} (hcollected : Collected s k ts)
    (h : Placed image fr.unit s (if k > 1 ∨ (k = 1 ∧ s.varbuffer.getD 0 0 ≠ 0) then
      s.luaCodeadjust 0 else s))
    (hlocal : s.localvar = env.map (·.1)) (hdepth : s.localvar.length ≤ MAXSLOTS) :
    Reaches (luaExecute host image) (fr.state s env (slotsLeft ts 0) st)
      (fr.state (if k > 1 ∨ (k = 1 ∧ s.varbuffer.getD 0 0 ≠ 0) then s.luaCodeadjust 0 else s) env []
        st) := by
  simp only [MAXSLOTS, STACKGAP, MAXVAR] at hdepth
  split
  case isTrue hneeded =>
    rw [if_pos hneeded] at h
    obtain ⟨os, hos⟩ : ∃ os : List (Object ν κ), slotsLeft ts 0 = os.map .object := by
      unfold slotsLeft
      split
      · exact ⟨[], rfl⟩
      · exact slots_objects ts
    rw [hos]
    exact reaches_adjust host [] st os (n := 0) h hlocal rfl (by omega)
  case isFalse hdone =>
    have hnone : slotsLeft ts 0 = [] := by
      unfold slotsLeft
      split
      case isTrue => rfl
      case isFalse hrest =>
        refine List.eq_nil_of_length_eq_zero ?_
        rw [flat_slots_length]
        have hindexed := hcollected.indexed
        have hbuffer := hcollected.varbuffer
        cases ts with
        | nil => rfl
        | cons t ts =>
            rw [List.countP_cons] at hindexed
            have hfirst : s.varbuffer.getD 0 0 = t.number := by rw [hbuffer]; rfl
            rw [hfirst, Ne, number_eq_zero] at hdone
            have hmore : ts.countP Target.isIndexed ≠ 0 := fun hzero => hrest ⟨rfl, hzero⟩
            by_cases ht : t.isIndexed = true
            · rw [if_pos ht] at hindexed
              omega
            · rw [if_neg ht] at hindexed
              exact absurd (by omega : k > 1 ∨ k = 1) fun hk =>
                hdone (hk.imp_right fun hone => ⟨hone, ht⟩)
    rw [hnone]
    exact .refl

end Sirius.Lua
