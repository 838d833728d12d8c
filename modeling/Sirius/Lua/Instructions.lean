import Mathlib.Tactic
import Sirius.Lua.Emission

/-!
# Running the code of single actions

`Placed image u s s'` says that the final code of a unit has, from `s.pc` on, what was written
between the parser states `s` and `s'`. The parser knows the local variables and the number of the
temporaries of the machine that runs there, `Matches`. The lemmas run the code of one action.
-/

namespace Sirius.Lua

open Library Sirius.Lua.Parser

variable {ν κ : Type}

/-- The code between `s` and `s'` is in the final code, which no later write changes. -/
structure Placed (image : Image) (u : Nat) (s s' : Parser) : Prop where
  err : s'.err = false
  code : ∀ i, s.pc ≤ i → i < s'.pc → image.code u i = s'.buffer i
  constants : s'.constants <+: image.constants
  few : image.constants.length < MAXCONSTANT - 1
  low : s.basepc ≤ s.pc
  high : s.pc ≤ s.basepc + MAXCODE
  depth : s.ntemp + s.localvar.length ≤ MAXSLOTS

/-- The function that runs: its unit, and the stack below its local variables. -/
structure Frame (ν κ : Type) where
  unit : Nat
  below : List (Slot ν κ)

/-- The machine at the place of a parser state with these local variables and temporaries. -/
def Frame.state (fr : Frame ν κ) (s : Parser) (env : Env ν κ) (temps : List (Slot ν κ))
    (st : Store ν κ) : Machine ν κ :=
  ⟨⟨fr.unit, s.pc⟩, fr.below ++ env.map (fun p => .object p.2) ++ temps, fr.below.length, st⟩

/-- What the parser knows of the machine. -/
structure Matches (s : Parser) (env : Env ν κ) (temps : List (Slot ν κ)) : Prop where
  localvar : s.localvar = env.map (·.1)
  ntemp : s.ntemp = temps.length

variable {image : Image} {u p n size rounds : Nat} {k k₁ k₂ : Int} {op : OpCode} {c : Byte}
  {w : Word} {text : Text} {s s₁ s₂ s' : Parser} {fr : Frame ν κ} {env : Env ν κ}
  {temps temps' : List (Slot ν κ)} {st : Store ν κ}

theorem Matches.emits (h : Matches s env temps) (he : Emits s s' k) (herr : s'.err = false)
    (hlength : (temps'.length : Int) = temps.length + k) : Matches s' env temps' where
  localvar := he.localvar.trans h.localvar
  ntemp := by rw [he.ntemp herr, h.ntemp, hlength]

/-- The first part of some code. -/
theorem Placed.left (h : Placed image u s s₂) (h₂ : Grows s₁ s₂) : Placed image u s s₁ where
  err := h₂.err h.err
  code i hi hi' := (h.code i hi (hi'.trans_le h₂.pc)).trans (h₂.buffer i hi')
  constants := h₂.constants.trans h.constants
  few := h.few
  low := h.low
  high := h.high
  depth := h.depth

/-- The second part of some code. -/
theorem Placed.right (h : Placed image u s s₂) (h₁ : Emits s s₁ k) (h₂ : Grows s₁ s₂) :
    Placed image u s₁ s₂ where
  err := h.err
  code i hi := h.code i (h₁.pc.trans hi)
  constants := h.constants
  few := h.few
  low := by rw [h₁.basepc]; exact h.low.trans h₁.pc
  high := by rw [h₁.basepc]; exact h₁.room (h₂.err h.err) h.high
  depth := h₁.depth (h₂.err h.err) h.depth

/-- A part of some code that no later byte was written over. -/
theorem Placed.range (h : Placed image u s s') (hlow : s.pc ≤ s₁.pc)
    (hcode : ∀ i, s₁.pc ≤ i → i < s₂.pc → i < s'.pc ∧ s'.buffer i = s₂.buffer i)
    (herr : s'.err = false → s₂.err = false) (hconst : s₂.constants <+: s'.constants)
    (hbase : s₁.basepc = s.basepc) (hhigh : s₁.pc ≤ s.basepc + MAXCODE)
    (hdepth : s₁.ntemp + s₁.localvar.length ≤ MAXSLOTS) : Placed image u s₁ s₂ where
  err := herr h.err
  code i hi hi' :=
    let ⟨hless, hsame⟩ := hcode i hi hi'
    (h.code i (hlow.trans hi) hless).trans hsame
  constants := hconst.trans h.constants
  few := h.few
  low := by rw [hbase]; exact h.low.trans hlow
  high := by rw [hbase]; exact hhigh
  depth := hdepth

/-! ### The bytes -/

theorem Placed.byte (h : Placed image u s (s.codeByte c)) : image.code u s.pc = c :=
  (h.code s.pc le_rfl (Nat.lt_succ_self _)).trans (Function.update_self _ _ _)

theorem Placed.opcode (h : Placed image u s (s.codeOp op)) :
    OpCode.ofByte (image.code u s.pc) = some op := by
  rw [Placed.byte h, of_byte_byte]

theorem Placed.word (h : Placed image u s (s.codeWord n)) (hn : n < 2 ^ 16) :
    readHalf (image.code u) s.pc = n := by
  have hsame : readHalf (image.code u) s.pc = readHalf (writeHalf s.buffer s.pc n) s.pc :=
    read_half_congr fun k hk => h.code (s.pc + k) (Nat.le_add_right _ _)
      (by simp only [codeWord]; omega)
  rw [hsame, read_write_half_same hn]

section Machine

variable [Runtime ν] [DecidableEq κ] {host : Host ν κ} {m : Machine ν κ}

/-- The machine at an operation. -/
theorem execute_at (h : OpCode.ofByte (image.code m.pc.unit m.pc.off) = some op) :
    luaExecute host image m = execute host image op m := by
  rw [luaExecute, h]

theorem execute_op (h : Placed image fr.unit s (s.codeOp op)) :
    luaExecute host image (fr.state s env temps st) =
      execute host image op (fr.state s env temps st) :=
  execute_at h.opcode

omit [Runtime ν] [DecidableEq κ] in
/-- The machine behind an instruction. -/
theorem state_next (hpc : s'.pc = s.pc + n) :
    (fr.state s env temps st).next n
      (fr.below ++ env.map (fun p => .object p.2) ++ temps') st = fr.state s' env temps' st := by
  simp only [Machine.next, Frame.state, hpc]

omit [Runtime ν] [DecidableEq κ] in
theorem state_push {v : Object ν κ} (hpc : s'.pc = s.pc + n) :
    (fr.state s env temps st).push n v = fr.state s' env (temps ++ [.object v]) st := by
  simp only [Machine.push, Machine.next, Frame.state, hpc, List.append_assoc]

omit [Runtime ν] [DecidableEq κ] in
@[simp] theorem pop_append (stack : List (Slot ν κ)) (v : Object ν κ) :
    pop (stack ++ [.object v]) = .ok (stack, v) := by
  simp [pop]

omit [Runtime ν] [DecidableEq κ] in
@[simp] theorem object_at_append (stack rest : List (Slot ν κ)) (v : Object ν κ) :
    objectAt (stack ++ .object v :: rest) stack.length = .ok v := by
  simp [objectAt]

/-- The machine runs through the padding. -/
theorem reaches_align_loop (h : Placed image fr.unit s (alignLoop size rounds s)) :
    Reaches (luaExecute host image) (fr.state s env temps st)
      (fr.state (alignLoop size rounds s) env temps st) := by
  induction rounds generalizing s with
  | zero => exact .refl
  | succ rounds ih =>
      unfold alignLoop at h ⊢
      split
      case isTrue hpad =>
        rw [if_pos hpad] at h
        have hnop := h.left emits_align_loop.toGrows
        have hstep : luaExecute host image (fr.state s env temps st) =
            .go (fr.state (s.codeOp .NOP) env temps st) := by
          rw [execute_op hnop]
          exact congrArg Next.go (state_next rfl)
        exact (Reaches.single hstep).trans (ih (h.right (emits_op _) emits_align_loop.toGrows))
      case isFalse => exact .refl

theorem reaches_align (h : Placed image fr.unit s (s.alignN size)) :
    Reaches (luaExecute host image) (fr.state s env temps st)
      (fr.state (s.alignN size) env temps st) :=
  reaches_align_loop h

/-- An aligned operation with a word. -/
theorem reaches_wide (host : Host ν κ) (temps : List (Slot ν κ)) (st : Store ν κ)
    (h : Placed image fr.unit s (((s.alignN 2).codeOp op).codeWord n)) (hn : n < 2 ^ 16) :
    Reaches (luaExecute host image) (fr.state s env temps st)
        (fr.state (s.alignN 2) env temps st) ∧
      luaExecute host image (fr.state (s.alignN 2) env temps st) =
        execute host image op (fr.state (s.alignN 2) env temps st) ∧
      readHalf (image.code fr.unit) ((s.alignN 2).pc + 1) = n := by
  have hop := h.right (emits_align 2) ((emits_op op).trans emits_word).toGrows
  exact ⟨reaches_align (h.left ((emits_op op).trans emits_word).toGrows),
    execute_op (hop.left emits_word.toGrows),
    (hop.right (emits_op op) emits_word.toGrows).word hn⟩

/-! ### Operators -/

/-- An operation on the two objects on the top. -/
theorem leads_binary {f : Object ν κ → Object ν κ → Outcome (Object ν κ)} {l r : Object ν κ}
    (h : Placed image fr.unit s (s.codeOp op))
    (hop : ∀ m : Machine ν κ, execute host image op m = .ofOutcome (m.binary f)) :
    Leads (luaExecute host image) (fr.state s env (temps ++ [.object l] ++ [.object r]) st)
      ((f l r).map fun v => fr.state (s.codeOp op) env (temps ++ [.object v]) st) := by
  refine Leads.of_step ?_
  rw [execute_op h, hop]
  congr 1
  simp only [Machine.binary, Frame.state, ← List.append_assoc, pop_append, Outcome.bind_eq,
    Outcome.ok_bind]
  cases f l r with
  | ok v => simp only [Outcome.ok_bind, Outcome.map_ok, Machine.next]; rfl
  | error => rfl
  | unknown => rfl

/-- An operation on the object on the top. -/
theorem leads_unary {f : Object ν κ → Outcome (Object ν κ × Store ν κ)} {o : Object ν κ}
    (h : Placed image fr.unit s (s.codeOp op))
    (hop : ∀ m : Machine ν κ, m.store = st → execute host image op m = .ofOutcome (m.unary f)) :
    Leads (luaExecute host image) (fr.state s env (temps ++ [.object o]) st)
      ((f o).map fun r => fr.state (s.codeOp op) env (temps ++ [.object r.1]) r.2) := by
  refine Leads.of_step ?_
  rw [execute_op h, hop _ rfl]
  congr 1
  simp only [Machine.unary, Frame.state, ← List.append_assoc, pop_append, Outcome.bind_eq,
    Outcome.ok_bind]
  cases f o with
  | ok r => simp only [Outcome.ok_bind, Outcome.map_ok, Machine.next]; rfl
  | error => rfl
  | unknown => rfl

/-- The operations of an operator. -/
theorem leads_ops {b : BinOp} {l r : Object ν κ}
    (h : Placed image fr.unit s (b.ops.foldl (fun s op => s.codeOp op) s)) :
    Leads (luaExecute host image) (fr.state s env (temps ++ [.object l] ++ [.object r]) st)
      ((b.apply l r).map fun v =>
        fr.state (b.ops.foldl (fun s op => s.codeOp op) s) env (temps ++ [.object v]) st) := by
  have hnot (op : OpCode) (f : Object ν κ → Object ν κ → Outcome (Object ν κ))
      (h : Placed image fr.unit s ((s.codeOp op).codeOp .NOTOP))
      (hop : ∀ m : Machine ν κ, execute host image op m = .ofOutcome (m.binary f)) :
      Leads (luaExecute host image) (fr.state s env (temps ++ [.object l] ++ [.object r]) st)
        (((f l r).map notop).map fun v =>
          fr.state ((s.codeOp op).codeOp .NOTOP) env (temps ++ [.object v]) st) := by
    have hfirst : Leads (luaExecute host image)
        (fr.state s env (temps ++ [.object l] ++ [.object r]) st)
        ((f l r).map fun v => fr.state (s.codeOp op) env (temps ++ [.object v]) st) :=
      leads_binary (h.left (emits_op .NOTOP).toGrows) hop
    have hbind := hfirst.bind fun v _ =>
        leads_unary (f := fun o => .ok (notop o, st))
          (h.right (emits_op op) (emits_op .NOTOP).toGrows) fun m hm => by rw [← hm]; rfl
    rw [Outcome.map_map]
    cases hf : f l r with
    | ok v => rwa [hf] at hbind
    | error => rwa [hf] at hbind
    | unknown => trivial
  cases b with
  | eq => exact leads_binary h fun _ => rfl
  | lt => exact leads_binary h fun _ => rfl
  | gt => exact hnot .LEOP leop h fun _ => rfl
  | ne => exact hnot .EQOP eqop h fun _ => rfl
  | le => exact leads_binary h fun _ => rfl
  | ge => exact hnot .LTOP ltop h fun _ => rfl
  | add => exact leads_binary h fun _ => rfl
  | sub => exact leads_binary h fun _ => rfl
  | mult => exact leads_binary h fun _ => rfl
  | div => exact leads_binary h fun _ => rfl
  | conc => exact leads_binary h fun _ => rfl

/-! ### Constants -/

omit [Runtime ν] [DecidableEq κ] in
theorem state_pc (h : s.pc = s'.pc) : fr.state s env temps st = fr.state s' env temps st := by
  simp only [Frame.state, h]

omit [Runtime ν] [DecidableEq κ] in
theorem state_incr_ntemp : fr.state s.incrNtemp env temps st = fr.state s env temps st := by
  refine state_pc ?_
  unfold incrNtemp
  split <;> rfl

/-- An operation without operands that pushes an object. -/
theorem reaches_push {v : Object ν κ} (h : Placed image fr.unit s (s.codeOp op))
    (hop : ∀ m : Machine ν κ, execute host image op m = .go (m.push 1 v)) :
    Reaches (luaExecute host image) (fr.state s env temps st)
      (fr.state (s.codeOp op) env (temps ++ [.object v]) st) := by
  refine Reaches.single ?_
  rw [execute_op h, hop]
  exact congrArg Next.go (state_push rfl)

variable (fr env) in
/-- The operand of an operation with a byte. -/
theorem operand_byte (host : Host ν κ) (temps : List (Slot ν κ)) (st : Store ν κ)
    (h : Placed image fr.unit s ((s.codeOp op).codeByte c)) :
    luaExecute host image (fr.state s env temps st) =
        execute host image op (fr.state s env temps st) ∧
      image.code fr.unit (s.pc + 1) = c :=
  ⟨execute_op (h.left emits_byte.toGrows), (h.right (emits_op op) emits_byte.toGrows).byte⟩

/-- An integer literal is below 2^16, and its value is the literal again. -/
def LiteralOk (f : ν) : Prop :=
  Runtime.eq f (Runtime.ofInt (Runtime.toInt f)) = true →
    Runtime.ofInt (Runtime.toInt f) = f ∧ 0 ≤ Runtime.toInt f ∧ Runtime.toInt f < 2 ^ 16

theorem literal_of_int {i : Int} (h : 0 ≤ i) (h' : i < 2 ^ 16) :
    LiteralOk (Runtime.ofInt i : ν) := fun _ => by
  rw [Runtime.to_int_of_int i h h']
  exact ⟨rfl, h, h'⟩

/-- `code_number` -/
theorem reaches_number {f : ν} (h : Placed image fr.unit s (s.codeNumber f)) (hf : LiteralOk f) :
    Reaches (luaExecute host image) (fr.state s env temps st)
      (fr.state (s.codeNumber f) env (temps ++ [.object (.number (some f))]) st) := by
  unfold codeNumber at h ⊢
  dsimp only at h ⊢
  rw [state_incr_ntemp]
  replace h := h.left emits_incr_ntemp.toGrows
  split
  case isTrue hint =>
    rw [if_pos hint] at h
    obtain ⟨hsame, hlow, hhigh⟩ := hf hint
    split
    case isTrue hsmall =>
      rw [if_pos hsmall] at h
      obtain ⟨k, hk⟩ : ∃ k : Fin 3, Runtime.toInt f = k := by
        obtain ⟨k, hk⟩ := Int.eq_ofNat_of_zero_le hlow
        exact ⟨⟨k, by omega⟩, hk⟩
      have hbyte : BitVec.ofInt 8 ((OpCode.PUSH0.num : Int) + Runtime.toInt f) =
          (OpCode.PUSH k).byte := by
        rw [hk]
        fin_cases k <;> rfl
      rw [hbyte] at h ⊢
      refine reaches_push h fun m => ?_
      simp only [execute]
      rw [← hk, hsame]
    case isFalse hsmall =>
      rw [if_neg hsmall] at h
      split
      case isTrue hless =>
        rw [if_pos hless] at h
        obtain ⟨hop, hbyte⟩ := operand_byte _ _ host temps st h
        refine Reaches.single ?_
        rw [hop]
        have hvalue : (((BitVec.ofInt 8 (Runtime.toInt f)).toNat : Nat) : Int) = Runtime.toInt f := by
          rw [BitVec.toNat_ofInt]
          omega
        simp only [execute, Frame.state] at hbyte ⊢
        rw [hbyte, hvalue, hsame]
        exact congrArg Next.go (state_push (s := s) rfl)
      case isFalse hless =>
        rw [if_neg hless] at h
        obtain ⟨halign, hop, hword⟩ := reaches_wide host temps st h (by rw [BitVec.toNat_ofInt]; omega)
        refine halign.trans (Reaches.single ?_)
        rw [hop]
        have hvalue : (((BitVec.ofInt 16 (Runtime.toInt f)).toNat : Nat) : Int) =
            Runtime.toInt f := by
          rw [BitVec.toNat_ofInt]
          omega
        simp only [execute, Frame.state] at hword ⊢
        rw [hword, hvalue, hsame]
        exact congrArg Next.go (state_push (s := s.alignN 2) rfl)
  case isFalse hint =>
    rw [if_neg hint] at h
    have hop := h.right (emits_align 4) ((emits_op .PUSHFLOAT).trans (emits_float f)).toGrows
    have hfloat := hop.right (emits_op .PUSHFLOAT) (emits_float f).toGrows
    have hvalue : Runtime.ofBytes (fun i => image.code fr.unit ((s.alignN 4).pc + 1 + i)) = f := by
      refine Runtime.of_bytes_to_bytes f _ fun i hi => ?_
      have hcode := hfloat.code ((s.alignN 4).pc + 1 + i) (Nat.le_add_right _ _)
        (Nat.add_lt_add_left hi _)
      rw [hcode]
      simp only [codeFloat, copyBytes, codeOp, codeByte]
      rw [if_pos ⟨Nat.le_add_right _ _, Nat.add_lt_add_left hi _⟩, Nat.zero_add,
        Nat.add_sub_cancel_left]
    refine (reaches_align (h.left ((emits_op .PUSHFLOAT).trans (emits_float f)).toGrows)).trans
      (Reaches.single ?_)
    rw [execute_op (hop.left (emits_float f).toGrows)]
    simp only [execute, Frame.state]
    rw [hvalue]
    exact congrArg Next.go (state_push (s := s.alignN 4) rfl)

omit [DecidableEq κ] in
/-- The constant that `lua_findconstant` finds is the text. -/
theorem findconstant_get (h : (luaFindconstant ν text s).2.constants <+: image.constants)
    (hfew : image.constants.length < MAXCONSTANT - 1) :
    image.constants[(luaFindconstant ν text s).1]? = some text ∧
      (luaFindconstant ν text s).1 < 2 ^ 16 := by
  obtain ⟨i, t, hi, ht⟩ : ∃ i t, luaFindconstant ν text s = (i, t) ∧ t.constants[i]? = some text := by
    unfold luaFindconstant at h ⊢
    cases hfind : s.constants.findIdx? fun c => Runtime.strcmp ν text c = 0 with
    | some i =>
        obtain ⟨hi, hsame, -⟩ := List.findIdx?_eq_some_iff_getElem.mp hfind
        have htext := (Runtime.strcmp_eq_zero text _).mp (of_decide_eq_true hsame)
        exact ⟨i, s, rfl, by rw [List.getElem?_eq_getElem hi, ← htext]⟩
    | none =>
        simp only [hfind] at h
        have hless : ¬ MAXCONSTANT - 1 ≤ s.constants.length := by
          intro hfull
          rw [if_pos hfull] at h
          have hlength : s.constants.length ≤ image.constants.length := h.length_le
          omega
        rw [if_neg hless]
        exact ⟨_, _, rfl, List.getElem?_concat_length⟩
  rw [hi] at h ⊢
  have hlength : i < image.constants.length :=
    ((List.getElem?_eq_some_iff.mp ht).1).trans_le h.length_le
  obtain ⟨rest, hrest⟩ := h
  refine ⟨?_, by simp only [MAXCONSTANT] at hfew; omega⟩
  rw [← hrest, List.getElem?_append_left (List.getElem?_eq_some_iff.mp ht).1, ht]

omit [DecidableEq κ] in
theorem findconstant_pc : (luaFindconstant ν text s).2.pc = s.pc := by
  unfold luaFindconstant
  split
  · rfl
  · split <;> rfl

/-- The code of a constant string. -/
theorem reaches_string (host : Host ν κ) (env : Env ν κ) (temps : List (Slot ν κ)) (st : Store ν κ)
    (h : Placed image fr.unit s (s.codeString ν text)) :
    Reaches (luaExecute host image) (fr.state s env temps st)
      (fr.state (s.codeString ν text) env (temps ++ [.object (.string text)]) st) := by
  obtain ⟨t, ht⟩ : ∃ t, (s.alignN 2).codeOp .PUSHSTRING = t := ⟨_, rfl⟩
  have hcode : s.codeString ν text =
      ((luaFindconstant ν text t).2.codeWord (luaFindconstant ν text t).1).incrNtemp := by
    rw [← ht]
    rfl
  have hfind : Emits t (luaFindconstant ν text t).2 0 := emits_findconstant ν
  have hpc : (luaFindconstant ν text t).2.pc = t.pc := findconstant_pc
  rw [hcode] at h ⊢
  rw [state_incr_ntemp]
  replace h := h.left emits_incr_ntemp.toGrows
  have hget := findconstant_get (h.left emits_word.toGrows).constants h.few
  obtain ⟨⟨i, t'⟩, hresult⟩ : ∃ r, luaFindconstant ν text t = r := ⟨_, rfl⟩
  simp only [hresult] at h hfind hpc hget ⊢
  obtain ⟨hget, hless⟩ := hget
  have hrest : Emits t (t'.codeWord i) (0 + 0) := hfind.trans emits_word
  have hwide : Emits (s.alignN 2) (t'.codeWord i) (0 + (0 + 0)) :=
    Emits.trans (ht ▸ emits_op .PUSHSTRING) hrest
  have hop := h.right (emits_align 2) hwide.toGrows
  have hoperand := ((hop.right (ht ▸ emits_op .PUSHSTRING) hrest.toGrows).right hfind
    emits_word.toGrows).word hless
  refine (reaches_align (h.left hwide.toGrows)).trans (Reaches.single ?_)
  subst ht
  rw [execute_op (hop.left hrest.toGrows)]
  rw [hpc] at hoperand
  simp only [codeOp, codeByte] at hoperand
  simp only [execute, Frame.state]
  rw [hoperand, hget]
  refine congrArg Next.go (state_push (s := s.alignN 2) ?_)
  simp only [codeWord, hpc, codeOp, codeByte]

/-! ### Variables -/

/-- The number of a variable in the parser. -/
def Target.number : Target ν κ → Int
  | .localVar i => -(i + 1)
  | .globalVar w => w.toNat + 1
  | .indexed _ _ => 0

/-- What a variable has on the stack before it is read or written. -/
def Target.slots : Target ν κ → List (Slot ν κ)
  | .indexed o ref => [.object o, .object ref]
  | _ => []

omit [Runtime ν] [DecidableEq κ] in
/-- A local variable in its slot. -/
theorem object_at_local {below : List (Slot ν κ)} {i : Nat} {v : Object ν κ}
    (h : env[i]? = some (w, v)) :
    objectAt (below ++ env.map (fun p => .object p.2) ++ temps) (below.length + i) = .ok v := by
  have hless : i < env.length := (List.getElem?_eq_some_iff.mp h).1
  rw [objectAt, List.append_assoc, List.getElem?_append_right (Nat.le_add_right _ _),
    Nat.add_sub_cancel_left, List.getElem?_append_left (by simpa using hless), List.getElem?_map, h]
  rfl

/-- `lua_pushvar` -/
theorem leads_pushvar (host : Host ν κ) (temps : List (Slot ν κ)) (st : Store ν κ)
    {t : Target ν κ} (h : Placed image fr.unit s (s.luaPushvar t.number)) (hs : Matches s env (temps ++ t.slots)) :
    Leads (luaExecute host image) (fr.state s env (temps ++ t.slots) st)
      ((t.read env st).map fun r =>
        fr.state (s.luaPushvar t.number) env (temps ++ [.object r.1]) r.2) := by
  cases t with
  | localVar i =>
      have hneg : ¬ (Target.localVar i : Target ν κ).number > 0 := by
        simp only [Target.number]; omega
      have hneg' : (Target.localVar i : Target ν κ).number < 0 := by
        simp only [Target.number]; omega
      have hnumber : (-(Target.localVar i : Target ν κ).number - 1).toNat = i := by
        simp only [Target.number]; omega
      simp only [Target.read, Target.slots, List.append_nil] at hs ⊢
      cases hget : env[i]? with
      | none => trivial
      | some p =>
          obtain ⟨w, v⟩ := p
          unfold luaPushvar at h ⊢
          rw [if_neg hneg, if_pos hneg'] at h ⊢
          simp only [hnumber] at h ⊢
          refine Reaches.leads (Reaches.single ?_) Leads.refl
          dsimp only
          split
          case isTrue hshort =>
            rw [dif_pos hshort] at h
            rw [state_incr_ntemp, execute_op (h.left emits_incr_ntemp.toGrows)]
            simp only [execute, Machine.pushLocal, Frame.state, object_at_local hget,
              Outcome.bind_eq, Outcome.ok_bind]
            exact congrArg Next.go (state_push rfl)
          case isFalse hshort =>
            rw [dif_neg hshort] at h
            obtain ⟨hop, hbyte⟩ := operand_byte _ _ host temps st (h.left emits_incr_ntemp.toGrows)
            have hless : i < 2 ^ 8 := by
              have hlength : i < s.localvar.length := by
                rw [hs.localvar, List.length_map]
                exact (List.getElem?_eq_some_iff.mp hget).1
              have hdepth := h.depth
              rw [hs.ntemp] at hdepth
              simp only [MAXSLOTS, STACKGAP, MAXVAR] at hdepth
              omega
            rw [state_incr_ntemp, hop]
            simp only [execute, Frame.state] at hbyte ⊢
            rw [hbyte, BitVec.toNat_ofNat, Nat.mod_eq_of_lt hless]
            simp only [Machine.pushLocal, object_at_local hget, Outcome.bind_eq, Outcome.ok_bind]
            exact congrArg Next.go (state_push (s := s) rfl)
  | globalVar w =>
      have hpos : (Target.globalVar w : Target ν κ).number > 0 := by
        simp only [Target.number]; omega
      have hnumber : ((Target.globalVar w : Target ν κ).number - 1).toNat = w.toNat := by
        simp only [Target.number]; omega
      simp only [Target.read, Target.slots, List.append_nil]
      unfold luaPushvar at h ⊢
      rw [if_pos hpos, hnumber] at h ⊢
      rw [Outcome.map_ok, state_incr_ntemp]
      obtain ⟨halign, hop, hword⟩ := reaches_wide host temps st (h.left emits_incr_ntemp.toGrows) w.isLt
      refine Reaches.leads (halign.trans (Reaches.single ?_)) Leads.refl
      rw [hop]
      simp only [execute, Frame.state] at hword ⊢
      rw [hword, BitVec.ofNat_toNat, BitVec.setWidth_eq]
      exact congrArg Next.go (state_push (s := s.alignN 2) rfl)
  | indexed o ref =>
      unfold luaPushvar at h ⊢
      simp only [Target.number, gt_iff_lt, lt_self_iff_false, if_false] at h ⊢
      simp only [Target.read, Target.slots]
      refine Leads.of_step ?_
      rw [execute_op (h.left (emits_decr_ntemp zero_le_one).toGrows)]
      have hslots : temps ++ [Slot.object o, .object ref] =
          temps ++ [Slot.object o] ++ [.object ref] := by simp
      simp only [execute, Frame.state, hslots, ← List.append_assoc, pop_append, Outcome.bind_eq,
        Outcome.ok_bind]
      congr 1
      cases st.index o ref with
      | ok r => rfl
      | error => rfl
      | unknown => rfl

/-! ### Adjusting -/

omit [Runtime ν] [DecidableEq κ] in
theorem adjust_stack_append (stack : List (Slot ν κ)) (vs : List (Object ν κ)) (n : Nat) :
    adjustStack (stack ++ vs.map .object) (stack.length + n) =
      stack ++ (adjust n vs).map .object := by
  simp only [adjustStack, adjust, List.length_append, List.length_map]
  rw [Nat.add_sub_add_left, List.append_assoc, List.take_length_add_append, List.map_take,
    List.map_append, List.map_replicate]

omit [Runtime ν] [DecidableEq κ] in
@[simp] theorem adjust_length (n : Nat) (vs : List (Object ν κ)) : (adjust n vs).length = n := by
  simp only [adjust, List.length_take, List.length_append, List.length_replicate]
  omega

omit [Runtime ν] [DecidableEq κ] in
theorem adjust_one (vs : List (Object ν κ)) : adjust 1 vs = [first vs] := by
  cases vs with
  | nil => rfl
  | cons v vs => simp [adjust, first]

omit [Runtime ν] [DecidableEq κ] in
theorem adjust_self (vs : List (Object ν κ)) : adjust vs.length vs = vs := by
  simp [adjust]

/-- `lua_codeadjust` cuts the values behind the temporaries, or adds nil. -/
theorem reaches_adjust (host : Host ν κ) (temps : List (Slot ν κ)) (st : Store ν κ)
    (vs : List (Object ν κ))
    (h : Placed image fr.unit s (s.luaCodeadjust k)) (hlocal : s.localvar = env.map (·.1))
    (hk : k = temps.length + n) (hless : k + s.localvar.length < 2 ^ 8) :
    Reaches (luaExecute host image) (fr.state s env (temps ++ vs.map .object) st)
      (fr.state (s.luaCodeadjust k) env (temps ++ (adjust n vs).map .object) st) := by
  obtain ⟨hop, hbyte⟩ := operand_byte _ _ host (temps ++ vs.map .object) st h
  have hvalue : (BitVec.ofInt 8 (k + s.localvar.length)).toNat = env.length + temps.length + n := by
    have hlength := congrArg List.length hlocal
    rw [List.length_map] at hlength
    rw [BitVec.toNat_ofInt]
    omega
  refine Reaches.single ?_
  rw [hop]
  simp only [execute, Frame.state] at hbyte ⊢
  rw [hbyte, hvalue]
  have hstack : fr.below ++ env.map (fun p => Slot.object p.2) ++ (temps ++ vs.map .object) =
      (fr.below ++ env.map (fun p => Slot.object p.2) ++ temps) ++ vs.map .object := by
    simp only [List.append_assoc]
  have htop : fr.below.length + (env.length + temps.length + n) =
      (fr.below ++ env.map (fun p => Slot.object p.2) ++ temps).length + n := by
    simp only [List.length_append, List.length_map]
    omega
  rw [hstack, htop, adjust_stack_append]
  simp only [Machine.next, luaCodeadjust, codeOp, codeByte, List.append_assoc]

/-- The last one of `n` expressions becomes one value if it is a call. -/
theorem reaches_cut (host : Host ν κ) (temps : List (Slot ν κ)) (st : Store ν κ)
    (vs : List (Object ν κ)) {call : Bool}
    (h : Placed image fr.unit s (s.oneValue call)) (hlocal : s.localvar = env.map (·.1))
    (hntemp : call = true → s.ntemp + 1 = temps.length + n) (hn : call = false → vs.length = n) :
    Reaches (luaExecute host image) (fr.state s env (temps ++ vs.map .object) st)
      (fr.state (s.oneValue call) env (temps ++ (adjust n vs).map .object) st) := by
  cases call with
  | false =>
      rw [← hn rfl, adjust_self]
      exact .refl
  | true =>
      have hdepth := (emits_one_value (s := s) true).depth h.err h.depth
      have hgrown := (emits_one_value (s := s) true).ntemp h.err
      rw [hgrown, (emits_one_value (s := s) true).localvar] at hdepth
      simp only [MAXSLOTS, STACKGAP, MAXVAR, if_true] at hdepth
      have hadjust := reaches_adjust host temps st vs (n := n)
        (h.left emits_incr_ntemp.toGrows) hlocal (hntemp rfl) (by omega)
      refine hadjust.trans ?_
      change Reaches _ _ (fr.state (incrNtemp _) _ _ _)
      rw [state_incr_ntemp]
      exact .refl

/-! ### Tables and calls -/

/-- `STOREFIELD` -/
theorem leads_storefield {o ref v : Object ν κ}
    (h : Placed image fr.unit s (s.codeOp .STOREFIELD)) :
    Leads (luaExecute host image)
      (fr.state s env (temps ++ [.object o] ++ [.object ref] ++ [.object v]) st)
      ((st.storeField o ref v).map fun st =>
        fr.state (s.codeOp .STOREFIELD) env (temps ++ [.object o]) st) := by
  refine Leads.of_step ?_
  rw [execute_op h]
  simp only [execute, Frame.state, ← List.append_assoc, pop_append, Outcome.bind_eq,
    Outcome.ok_bind]
  congr 1
  cases st.storeField o ref v <;> rfl

/-- `PUSHMARK` -/
theorem reaches_pushmark (h : Placed image fr.unit s (s.codeOp .PUSHMARK)) :
    Reaches (luaExecute host image) (fr.state s env temps st)
      (fr.state (s.codeOp .PUSHMARK) env (temps ++ [.mark none]) st) := by
  refine Reaches.single ?_
  rw [execute_op h]
  simp only [execute, Frame.state, List.append_assoc]
  rfl

/-- `PUSHOBJECT` copies the table below a function and a mark. -/
theorem reaches_pushobject {o f : Object ν κ} {x : Option Nat}
    (h : Placed image fr.unit s (s.codeOp .PUSHOBJECT)) :
    Reaches (luaExecute host image)
      (fr.state s env (temps ++ [.object o] ++ [.object f] ++ [.mark x]) st)
      (fr.state (s.codeOp .PUSHOBJECT) env
        (temps ++ [.object o] ++ [.object f] ++ [.mark x] ++ [.object o]) st) := by
  refine Reaches.single ?_
  rw [execute_op h]
  obtain ⟨stack, hstack⟩ : ∃ stack, fr.below ++ env.map (fun p => Slot.object p.2) ++ temps = stack :=
    ⟨_, rfl⟩
  have hlength : (stack ++ [Slot.object o] ++ [Slot.object f] ++ [Slot.mark x]).length - 3 =
      stack.length := by
    simp
  have hobject : objectAt (stack ++ [Slot.object o] ++ [Slot.object f] ++ [Slot.mark x])
      stack.length = .ok o := by
    simp [objectAt]
  simp only [execute, Frame.state, ← List.append_assoc, hstack, hlength, hobject, Outcome.bind_eq,
    Outcome.ok_bind]
  rfl

/-- The size of a new table, which is written over the operand of its `PUSHBYTE`. -/
theorem Placed.table_size (h : Placed image u s (s₂.setByte (s.pc + 1) c))
    (h₂ : Grows ((s.codeOp .PUSHBYTE).codeByte 0#8).incrNtemp s₂) :
    OpCode.ofByte (image.code u s.pc) = some .PUSHBYTE ∧ image.code u (s.pc + 1) = c ∧
      Placed image u ((s.codeOp .PUSHBYTE).codeByte 0#8).incrNtemp s₂ := by
  have hsize : Emits s ((s.codeOp .PUSHBYTE).codeByte 0#8).incrNtemp (0 + 0 + 1) :=
    ((emits_op .PUSHBYTE).trans emits_byte).trans emits_incr_ntemp
  have hpc : ((s.codeOp .PUSHBYTE).codeByte 0#8).incrNtemp.pc = s.pc + 2 := by
    unfold incrNtemp
    split <;> rfl
  have hbytes (i : Nat) (hi : i < s.pc + 2) :
      s₂.buffer i = ((s.codeOp .PUSHBYTE).codeByte 0#8).buffer i := by
    rw [h₂.buffer i (hpc ▸ hi)]
    unfold incrNtemp
    split <;> rfl
  have hend : s.pc + 2 ≤ s₂.pc := hpc ▸ h₂.pc
  have hcode (i : Nat) (hi : s.pc ≤ i) (hi' : i < s₂.pc) :
      image.code u i = (s₂.setByte (s.pc + 1) c).buffer i := h.code i hi hi'
  refine ⟨?_, ?_, ?_⟩
  · rw [hcode _ le_rfl (by omega)]
    simp only [setByte]
    rw [Function.update_of_ne (by omega), hbytes _ (by omega)]
    simp only [codeOp, codeByte]
    rw [Function.update_of_ne (by omega), Function.update_self, of_byte_byte]
  · rw [hcode _ (Nat.le_succ _) (by omega)]
    exact Function.update_self _ _ _
  · refine h.range hsize.pc (fun i hi hi' => ⟨hi', ?_⟩) (fun herr => herr) List.prefix_rfl
      hsize.basepc (hsize.room (h₂.err h.err) h.high) (hsize.depth (h₂.err h.err) h.depth)
    exact Function.update_of_ne (by omega) _ _

/-! ### Jumps -/

/-- A jump in the final code. -/
def JumpAt (image : Image) (u p : Nat) (op : OpCode) (n : Nat) : Prop :=
  OpCode.ofByte (image.code u p) = some op ∧ readHalf (image.code u) (p + 1) = n

omit [DecidableEq κ] [Runtime ν] in
theorem set_jump_here : (s.setJump p op n).buffer p = op.byte := by
  simp only [setJump]
  rw [write_half_outside (.inl (Nat.lt_succ_self p)), Function.update_self]

omit [DecidableEq κ] [Runtime ν] in
/-- A jump that no later write changes. -/
theorem jump_at (hn : n < 2 ^ 16)
    (hcode : ∀ i, p ≤ i → i < p + 3 → image.code u i = (s.setJump p op n).buffer i) :
    JumpAt image u p op n := by
  refine ⟨?_, ?_⟩
  · rw [hcode p le_rfl (by omega), set_jump_here, of_byte_byte]
  · have hword : readHalf (image.code u) (p + 1) = readHalf (s.setJump p op n).buffer (p + 1) :=
      read_half_congr fun k hk => hcode (p + 1 + k) (by omega) (by omega)
    rw [hword]
    exact read_write_half_same hn

omit [DecidableEq κ] [Runtime ν] in
/-- Code with one jump, whose open space is between two parts. -/
theorem Placed.jump {a : Parser} (h : Placed image u s (s₂.setJump a.pc op n)) (h₁ : Grows s a)
    (h₂ : Grows (openSpace a) s₂) (hdepth : a.ntemp + a.localvar.length ≤ MAXSLOTS)
    (hn : n ≤ s₂.pc - s.pc) :
    Placed image u s a ∧ JumpAt image u a.pc op n ∧ Placed image u (openSpace a) s₂ := by
  have herr : s₂.err = false := h.err
  have hspace := emits_space (s := a)
  have hopen : (openSpace a).pc = a.pc + 3 := rfl
  have hend := h₂.pc
  have hroom := h₂.room herr (hspace.room (h₂.err herr) (by
    rw [h₁.basepc]
    exact h₁.room (hspace.err (h₂.err herr)) h.high))
  rw [hspace.basepc, h₁.basepc] at hroom
  have hlow := h.low
  simp only [MAXCODE] at hroom
  have hcode (i : Nat) (hi : s.pc ≤ i) (hi' : i < s₂.pc) :
      image.code u i = (s₂.setJump a.pc op n).buffer i := h.code i hi hi'
  refine ⟨?_, jump_at (by omega) fun i hi hi' => hcode i (h₁.pc.trans hi) (by omega), ?_⟩
  · refine h.range le_rfl (fun i _ hi => ⟨?_, ?_⟩) (fun _ => hspace.err (h₂.err herr))
      (hspace.constants.trans h₂.constants) rfl h.high h.depth
    · change i < s₂.pc
      omega
    · rw [set_jump_outside (.inl hi), h₂.buffer i (by omega), hspace.buffer i hi]
  · refine h.range (h₁.pc.trans hspace.pc) (fun i hi hi' => ⟨hi', ?_⟩) (fun _ => herr)
      List.prefix_rfl (hspace.basepc.trans h₁.basepc) ?_ hdepth
    · exact set_jump_outside (.inr (by omega))
    · simp only [MAXCODE]
      omega

omit [DecidableEq κ] [Runtime ν] in
/-- Code with two jumps, whose open spaces are between three parts. -/
theorem Placed.jumps {a b s₃ s₄ : Parser} {op₁ op₂ : OpCode} {n₁ n₂ : Nat}
    (h : Placed image u s s₄) (h₁ : Grows s a) (h₂ : Grows (openSpace a) b)
    (h₃ : Grows (openSpace b) s₃) (herr : s₄.err = s₃.err) (hpc : s₄.pc = s₃.pc)
    (hconst : s₄.constants = s₃.constants)
    (hfirst : ∀ i, a.pc ≤ i → i < a.pc + 3 → s₄.buffer i = (s₃.setJump a.pc op₁ n₁).buffer i)
    (hsecond : ∀ i, b.pc ≤ i → i < b.pc + 3 → s₄.buffer i = (s₃.setJump b.pc op₂ n₂).buffer i)
    (hrest : ∀ i, (i < a.pc ∨ a.pc + 3 ≤ i) → (i < b.pc ∨ b.pc + 3 ≤ i) →
      s₄.buffer i = s₃.buffer i)
    (hdepth : a.ntemp + a.localvar.length ≤ MAXSLOTS)
    (hdepth' : b.ntemp + b.localvar.length ≤ MAXSLOTS)
    (hn₁ : n₁ ≤ s₃.pc - s.pc) (hn₂ : n₂ ≤ s₃.pc - s.pc) :
    Placed image u s a ∧ JumpAt image u a.pc op₁ n₁ ∧ Placed image u (openSpace a) b ∧
      JumpAt image u b.pc op₂ n₂ ∧ Placed image u (openSpace b) s₃ := by
  have herr₃ : s₃.err = false := herr ▸ h.err
  have hspace := emits_space (s := a)
  have hspace' := emits_space (s := b)
  have hopen : (openSpace a).pc = a.pc + 3 := rfl
  have hopen' : (openSpace b).pc = b.pc + 3 := rfl
  have herrb := hspace'.err (h₃.err herr₃)
  have herra := hspace.err (h₂.err herrb)
  have hpca := h₁.pc
  have hpcb := h₂.pc
  have hpc₃ := h₃.pc
  have hbase : b.basepc = s.basepc := h₂.basepc.trans (hspace.basepc.trans h₁.basepc)
  have hrooma := h₁.room herra h.high
  have hroomb := h₂.room herrb (hspace.room (h₂.err herrb) (by rw [h₁.basepc]; exact hrooma))
  have hroom := h₃.room herr₃ (hspace'.room (h₃.err herr₃) (by
    rw [hbase]
    rwa [hspace.basepc, h₁.basepc] at hroomb))
  rw [hspace'.basepc, hbase] at hroom
  have hlow := h.low
  simp only [MAXCODE] at hroom
  have hcode (i : Nat) (hi : s.pc ≤ i) (hi' : i < s₃.pc) : image.code u i = s₄.buffer i :=
    h.code i hi (hpc ▸ hi')
  have hjump : JumpAt image u a.pc op₁ n₁ := jump_at (s := s₃) (by omega) fun i hi hi' =>
    (hcode i (by omega) (by omega)).trans (hfirst i hi hi')
  have hjump' : JumpAt image u b.pc op₂ n₂ := jump_at (s := s₃) (by omega) fun i hi hi' =>
    (hcode i (by omega) (by omega)).trans (hsecond i hi hi')
  refine ⟨?_, hjump, ?_, hjump', ?_⟩
  · refine h.range le_rfl (fun i _ hi => ⟨by omega, ?_⟩) (fun _ => herra) ?_ rfl h.high h.depth
    · rw [hrest i (by omega) (by omega), h₃.buffer i (by omega), hspace'.buffer i (by omega),
        h₂.buffer i (by omega), hspace.buffer i hi]
    · rw [hconst]
      exact ((hspace.constants.trans h₂.constants).trans hspace'.constants).trans h₃.constants
  · refine h.range (h₁.pc.trans hspace.pc) (fun i hi hi' => ⟨by omega, ?_⟩) (fun _ => herrb) ?_
      (hspace.basepc.trans h₁.basepc) (by simp only [MAXCODE]; omega) hdepth
    · rw [hrest i (by omega) (by omega), h₃.buffer i (by omega), hspace'.buffer i (by omega)]
    · rw [hconst]
      exact hspace'.constants.trans h₃.constants
  · refine h.range (by omega) (fun i hi hi' => ⟨by omega, ?_⟩) (fun _ => herr₃) ?_
      (hspace'.basepc.trans hbase) (by simp only [MAXCODE]; omega) hdepth'
    · exact hrest i (by omega) (by omega)
    · rw [hconst]

/-- `POP` -/
theorem reaches_pop {v : Object ν κ} (h : Placed image fr.unit s (s.codeOp .POP)) :
    Reaches (luaExecute host image) (fr.state s env (temps ++ [.object v]) st)
      (fr.state (s.codeOp .POP) env temps st) := by
  refine Reaches.single ?_
  rw [execute_op h]
  simp only [execute, Frame.state, ← List.append_assoc, pop_append, Outcome.bind_eq,
    Outcome.ok_bind]
  rfl

/-- `JMP` -/
theorem reaches_jmp (h : JumpAt image fr.unit s.pc .JMP n) (hpc : s'.pc = s.pc + 3 + n) :
    Reaches (luaExecute host image) (fr.state s env temps st) (fr.state s' env temps st) := by
  refine Reaches.single ((execute_at h.1).trans ?_)
  have hword := h.2
  simp only [execute, Frame.state] at hword ⊢
  rw [hword, hpc]
  rfl

/-- `UPJMP` -/
theorem reaches_upjmp (h : JumpAt image fr.unit s.pc .UPJMP n) (hpc : s'.pc = s.pc + 3 - n) :
    Reaches (luaExecute host image) (fr.state s env temps st) (fr.state s' env temps st) := by
  refine Reaches.single ((execute_at h.1).trans ?_)
  have hword := h.2
  simp only [execute, Frame.state] at hword ⊢
  rw [hword, hpc]
  rfl

/-- `ONFJMP` and `ONTJMP` jump over the code for the second operand. -/
theorem reaches_onjmp (s' s₁ : Parser) {v : Object ν κ} {nil : Bool}
    (h : JumpAt image fr.unit s.pc (if nil then .ONFJMP else .ONTJMP) n)
    (hpc : s'.pc = s.pc + 3 + n) (hpc₁ : s₁.pc = s.pc + 3) :
    Reaches (luaExecute host image) (fr.state s env (temps ++ [.object v]) st)
      (fr.state (if v.isNil = nil then s' else s₁) env (temps ++ [.object v]) st) := by
  refine Reaches.single ((execute_at h.1).trans ?_)
  have hexec : execute host image (if nil then .ONFJMP else .ONTJMP)
      (fr.state s env (temps ++ [.object v]) st) = .ofOutcome
        ((fr.state s env (temps ++ [.object v]) st).onJump nil n) := by
    have hword := h.2
    cases nil <;>
    · simp only [execute, Frame.state] at hword ⊢
      rw [← hword]
      rfl
  rw [hexec]
  simp only [Machine.onJump, Frame.state, ← List.append_assoc, pop_append, Outcome.bind_eq,
    Outcome.ok_bind, Machine.jump]
  split
  · rw [← hpc]; rfl
  · rw [← hpc₁]; rfl

/-- `IFFJMP` -/
theorem reaches_iffjmp (s' s₁ : Parser) {v : Object ν κ} (h : JumpAt image fr.unit s.pc .IFFJMP n)
    (hpc : s'.pc = s.pc + 3 + n) (hpc₁ : s₁.pc = s.pc + 3) :
    Reaches (luaExecute host image) (fr.state s env (temps ++ [.object v]) st)
      (fr.state (if v.isNil then s' else s₁) env temps st) := by
  refine Reaches.single ((execute_at h.1).trans ?_)
  have hword := h.2
  simp only [execute, Frame.state] at hword ⊢
  rw [hword]
  simp only [Machine.ifJump, ← List.append_assoc, pop_append, Outcome.bind_eq,
    Outcome.ok_bind, Machine.jump]
  split
  · rw [← hpc]; rfl
  · rw [← hpc₁]; rfl

/-- `IFFUPJMP` -/
theorem reaches_iffupjmp (s' s₁ : Parser) {v : Object ν κ} (h : JumpAt image fr.unit s.pc .IFFUPJMP n)
    (hpc : s'.pc = s.pc + 3 - n) (hpc₁ : s₁.pc = s.pc + 3) :
    Reaches (luaExecute host image) (fr.state s env (temps ++ [.object v]) st)
      (fr.state (if v.isNil then s' else s₁) env temps st) := by
  refine Reaches.single ((execute_at h.1).trans ?_)
  have hword := h.2
  simp only [execute, Frame.state] at hword ⊢
  rw [hword]
  simp only [Machine.ifJump, ← List.append_assoc, pop_append, Outcome.bind_eq,
    Outcome.ok_bind, Machine.jump]
  split
  · rw [← hpc]; rfl
  · rw [← hpc₁]; rfl

/-! ### Calls -/

omit [DecidableEq κ] [Runtime ν] in
theorem rdrop_objects (stack : List (Slot ν κ)) (x : Option Nat) (args : List (Object ν κ)) :
    (stack ++ [Slot.mark x] ++ args.map Slot.object).rdropWhile Slot.isObject =
      stack ++ [Slot.mark x] := by
  rw [List.rdropWhile, List.reverse_append, List.dropWhile_append_of_pos]
  · simp [Slot.isObject]
  · intro slot hslot
    obtain ⟨o, -, rfl⟩ := List.mem_map.mp (List.mem_reverse.mp hslot)
    rfl

omit [DecidableEq κ] [Runtime ν] in
theorem objects_map (vs : List (Object ν κ)) : objects (vs.map .object) = vs := by
  induction vs with
  | nil => rfl
  | cons v vs ih => rw [List.map_cons, objects, ih]

/-- The stack at a call: what is below, the function, a mark and the parameters. -/
def callStack (outer : List (Slot ν κ)) (f : Object ν κ) (x : Option Nat)
    (args : List (Object ν κ)) : List (Slot ν κ) :=
  outer ++ [.object f] ++ [.mark x] ++ args.map .object

omit [Runtime ν] [DecidableEq κ] in
theorem call_func_eq (pc : Addr) (base : Nat) (outer : List (Slot ν κ)) (f : Object ν κ)
    (x : Option Nat) (args : List (Object ν κ)) :
    Machine.callFunc host ⟨pc, callStack outer f x args, base, st⟩ =
      match f with
      | .function b =>
          if MAXSTACK - (outer.length + 2) < STACKGAP then .overflow
          else .go ⟨b, callStack outer (.function ⟨pc.unit, pc.off + 1⟩) (some base) args,
            outer.length + 2, st⟩
      | .cfunction f => .go ⟨⟨pc.unit, pc.off + 1⟩,
          outer ++ (host.cfunction f args st).1.map .object, base, (host.cfunction f args st).2⟩
      | _ => .fail := by
  have htop : ((callStack outer f x args).rdropWhile Slot.isObject).length = outer.length + 2 := by
    rw [callStack, rdrop_objects]
    simp
  have hget : (callStack outer f x args)[outer.length]? = some (.object f) := by
    simp [callStack]
  have hset (f' : Slot ν κ) (x' : Slot ν κ) :
      ((callStack outer f x args).set outer.length f').set (outer.length + 1) x' =
        outer ++ [f'] ++ [x'] ++ args.map .object := by
    simp [callStack]
  have hdrop : (callStack outer f x args).drop (outer.length + 2) = args.map .object := by
    rw [callStack]
    exact List.drop_left' (by simp)
  have htake : (callStack outer f x args).take outer.length = outer := by
    simp [callStack]
  unfold Machine.callFunc
  simp only [htop, Nat.add_sub_cancel]
  rw [if_neg (by omega), hget]
  have hone : outer.length + 2 - 1 = outer.length + 1 := by omega
  cases f with
  | function b => simp only [hone, hset]; rfl
  | cfunction f => simp only [hdrop, htake, objects_map, Machine.next]
  | _ => rfl

variable (st) in
omit [Runtime ν] [DecidableEq κ] in
/-- `RETCODE` takes the values behind the local variables back to the caller. -/
theorem ret_code_eq (pc back : Addr) (base n : Nat) (outer values : List (Slot ν κ))
    (locals : List (Slot ν κ)) (hn : n = locals.length) :
    (⟨pc, outer ++ [.object (.function back)] ++ [.mark (some base)] ++ locals ++ values,
      outer.length + 2, st⟩ : Machine ν κ).retCode n = .ok ⟨back, outer ++ values, base, st⟩ := by
  have hstack : outer ++ [Slot.object (.function back)] ++ [Slot.mark (some base)] ++ locals ++
      values = outer ++ Slot.object (.function back) :: Slot.mark (some base) ::
        (locals ++ values) := by
    simp
  have hdrop : (outer ++ Slot.object (.function back) :: Slot.mark (some base) ::
      (locals ++ values)).drop (outer.length + 2 + n) = values := by
    have hlength : outer.length + 2 + n =
        (outer ++ [Slot.object (.function back)] ++ [Slot.mark (some base)] ++ locals).length := by
      simp only [List.length_append, List.length_singleton]
      omega
    rw [← hstack, hlength, List.drop_left]
  have hone : outer.length + 2 - 1 = outer.length + 1 := by omega
  unfold Machine.retCode
  simp only [hstack, hdrop, Nat.add_sub_cancel, hone]
  rw [if_neg (by omega)]
  simp

end Machine

end Sirius.Lua
