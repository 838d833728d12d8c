import Sirius.Gui.Compositor
import Sirius.Library.Runs

/-!
# The paint list over whole runs

`PaintList s ws` says that the cells behind the dummy head belong to the windows `ws`. Runs apply
the three calls with any addresses; next to the state they carry the abstract list. The result,
`paint_list_run`, is for runs that never give the focus to window 0 while other windows exist and
never remove an unregistered window whose address lies at address 0 of the memory.
-/

namespace Sirius.Gui

open Library

variable {heap heap' : Nat → Option Paint} {p q a b n addr head : Nat} {l l₁ l₂ : List Nat}
  {s s' : Compositor} {ws : List Nat}

/-- The links of the paint list. -/
abbrev Paints : (Nat → Option Paint) → Nat → List Nat → Prop := Cells Paint.next

/-- The cells of the list belong to the windows `ws`. -/
def Owners (heap : Nat → Option Paint) (l ws : List Nat) : Prop :=
  l.map (fun a => (heap a).map Paint.w) = ws.map some

/-- The paint list: the dummy head, then one cell for each window, no window twice. -/
structure PaintList (s : Compositor) (ws : List Nat) : Prop where
  cells : ∃ l, Paints s.heap s.paintReadyQueue (s.paintReadyQueue :: l) ∧ Owners s.heap l ws
  dummy : (s.heap s.paintReadyQueue).map Paint.w = some 0
  nodup : (0 :: ws).Nodup
  count : s.windowCount = ws.length

/-! ### Calls -/

/-- A call with its address; `new` is the memory `malloc` returns and `low` what lies at address
0. -/
inductive WindowCall where
  | add (new addr : Nat)
  | remove (low : Paint) (addr : Nat)
  | foco (addr : Nat)

namespace WindowCall

/-- The function called, with `n` steps for its loops. -/
def run (n : Nat) (s : Compositor) : WindowCall → Option Compositor
  | .add new addr => windowAdd n new addr s
  | .remove low addr => windowRemove n low addr s
  | .foco addr => windowFoco n addr s

/-- What the call does to the list of windows. -/
def abstract (ws : List Nat) : WindowCall → List Nat
  | .add _ addr => if addr ∈ 0 :: ws then ws else ws ++ [addr]
  | .remove _ addr => ws.erase addr
  | .foco addr => if addr ∈ ws then ws.erase addr ++ [addr] else ws

/-- `malloc` returns memory that is not in use. -/
def Fresh (s : Compositor) : WindowCall → Prop
  | .add new _ => new ≠ 0 ∧ s.heap new = none
  | _ => True

/-- The calls after which the list is as it should be. -/
def Good : Compositor × List Nat → WindowCall → Prop
  | _, .add _ _ => True
  | (_, ws), .remove low addr => addr ∈ ws ∨ ws = [] ∨ low.w ≠ addr
  | (_, ws), .foco addr => addr ≠ 0 ∨ ws = []

end WindowCall

/-- A call together with the abstract list. -/
inductive WindowStep : Compositor × List Nat → WindowCall → Compositor × List Nat → Prop where
  | call (s s' : Compositor) (ws : List Nat) (call : WindowCall) (hfresh : call.Fresh s) :
      Returns (fun n => call.run n s) s' → WindowStep (s, ws) call (s', call.abstract ws)

/-- The runs of the compositor whose calls are all `Good`. -/
def WindowRun (paint gid : Nat) (s : Compositor) (ws : List Nat) : Prop :=
  Run WindowStep WindowCall.Good (compose paint gid, []) (s, ws)

/-! ### Cells and owners -/

theorem set_paint_other {c : Paint} (h : a ≠ p) : setPaint heap p c a = heap a :=
  Function.update_of_ne h ..

@[simp] theorem set_paint_self {c : Paint} : setPaint heap p c p = some c :=
  Function.update_self ..

/-- Relinking a cell keeps the owners of all cells. -/
theorem set_paint_owner {c : Paint} {v : Nat} (hp : heap p = some c) (a : Nat) :
    (setPaint heap p { c with next := v } a).map Paint.w = (heap a).map Paint.w := by
  by_cases heq : a = p
  · subst heq
    rw [set_paint_self, hp]
    rfl
  · rw [set_paint_other heq]

theorem Owners.congr (h : Owners heap l ws)
    (hsame : ∀ a ∈ l, (heap' a).map Paint.w = (heap a).map Paint.w) : Owners heap' l ws := by
  unfold Owners at *
  rw [← h]
  exact List.map_congr_left hsame

theorem Owners.length (h : Owners heap l ws) : l.length = ws.length := by
  simpa using congrArg List.length h

/-- The cells of a window in the middle of the list. -/
theorem Owners.split (h : Owners heap l ws) (hmem : addr ∈ ws) (hnodup : ws.Nodup) :
    ∃ l₁ b l₂ ws₁ ws₂, l = l₁ ++ b :: l₂ ∧ ws = ws₁ ++ addr :: ws₂ ∧ Owners heap l₁ ws₁ ∧
      (heap b).map Paint.w = some addr ∧ Owners heap l₂ ws₂ ∧ addr ∉ ws₁ ∧ addr ∉ ws₂ := by
  obtain ⟨ws₁, ws₂, rfl⟩ := List.append_of_mem hmem
  unfold Owners at *
  rw [List.map_append, List.map_cons, List.map_eq_append_iff] at h
  obtain ⟨l₁, l', rfl, h₁, h'⟩ := h
  obtain ⟨b, l₂, rfl, hb, h₂⟩ := List.map_eq_cons_iff.mp h'
  have hnot := List.nodup_cons.mp (List.nodup_middle.mp hnodup)
  rw [List.mem_append, not_or] at hnot
  exact ⟨l₁, b, l₂, ws₁, ws₂, rfl, rfl, h₁, hb, h₂, hnot.1.1, hnot.1.2⟩

/-- A cell of the list whose window is known. -/
theorem Owners.mem (h : Owners heap l ws) (ha : a ∈ l) :
    ∃ w ∈ ws, (heap a).map Paint.w = some w := by
  have hmem : (heap a).map Paint.w ∈ ws.map some := by
    unfold Owners at h
    rw [← h]
    exact List.mem_map_of_mem ha
  obtain ⟨w, hw, heq⟩ := List.mem_map.mp hmem
  exact ⟨w, hw, heq.symm⟩

theorem Owners.append {ws₁ ws₂ : List Nat} (h₁ : Owners heap l₁ ws₁) (h₂ : Owners heap l₂ ws₂) :
    Owners heap (l₁ ++ l₂) (ws₁ ++ ws₂) := by
  unfold Owners at *
  rw [List.map_append, List.map_append, h₁, h₂]

/-- The list with the dummy head as a cell of window 0. -/
theorem paint_list_of (hcells : Paints s.heap s.paintReadyQueue (s.paintReadyQueue :: l))
    (howners : Owners s.heap (s.paintReadyQueue :: l) (0 :: ws)) (hnodup : (0 :: ws).Nodup)
    (hcount : s.windowCount = ws.length) : PaintList s ws := by
  unfold Owners at howners
  rw [List.map_cons, List.map_cons, List.cons.injEq] at howners
  exact ⟨⟨l, hcells, howners.2⟩, howners.1, hnodup, hcount⟩

/-- The dummy head as a cell of window 0. -/
theorem PaintList.owners (h : PaintList s ws) :
    ∃ l, Paints s.heap s.paintReadyQueue (s.paintReadyQueue :: l) ∧
      Owners s.heap (s.paintReadyQueue :: l) (0 :: ws) := by
  obtain ⟨l, hcells, howners⟩ := h.cells
  refine ⟨l, hcells, ?_⟩
  unfold Owners at *
  rw [List.map_cons, List.map_cons, howners, h.dummy]

/-! ### The loops -/

/-- The loop of `window_add` finds the cell of a registered window, and 0 for another address. -/
theorem search_owner (hcells : Paints heap p l) (howners : Owners heap l ws) (addr : Nat)
    (hn : l.length ≤ n) :
    (addr ∈ ws → ∃ a ≠ 0, search Paint.next heap (fun c => c.w == addr) n p = some a) ∧
      (addr ∉ ws → search Paint.next heap (fun c => c.w == addr) n p = some 0) := by
  have hsearch := hcells.search_eq (fun c => c.w == addr) hn
  have htest : ∀ a ∈ l, ((heap a).any fun c => c.w == addr) = true ↔
      (heap a).map Paint.w = some addr := by
    intro a _
    cases heap a <;> simp
  constructor
  · intro hmem
    have howned : some addr ∈ l.map fun a => (heap a).map Paint.w := by
      unfold Owners at howners
      rw [howners]
      exact List.mem_map_of_mem hmem
    obtain ⟨b, hb, howner⟩ := List.mem_map.mp howned
    have hsome : (l.find? fun a => (heap a).any fun c => c.w == addr).isSome :=
      List.find?_isSome.mpr ⟨b, hb, (htest b hb).mpr howner⟩
    obtain ⟨a, ha⟩ := Option.isSome_iff_exists.mp hsome
    rw [ha] at hsearch
    exact ⟨a, hcells.ne_zero a (List.mem_of_find?_eq_some ha), hsearch⟩
  · intro hnot
    have hnone : (l.find? fun a => (heap a).any fun c => c.w == addr) = none := by
      rw [List.find?_eq_none]
      intro a ha hfound
      obtain ⟨w, hw, howner⟩ := howners.mem ha
      rw [(htest a ha).mp hfound] at howner
      exact hnot (Option.some.inj howner ▸ hw)
    rw [hnone] at hsearch
    exact hsearch

/-- The loop to the end of the list finds the last cell. -/
theorem search_last (hcells : Paints heap p (l ++ [q])) (hn : l.length < n) :
    search Paint.next heap (fun c => c.next == 0) n p = some q ∧
      ∃ c, heap q = some c ∧ c.next = 0 := by
  obtain ⟨-, -, c, hc, hend⟩ := hcells.of_append
  have hnot : (0 : Nat) ∉ l ++ [q] := fun hmem => hcells.ne_zero 0 hmem rfl
  have hlink : (heap q).map Paint.next = some 0 := by
    rw [hc, Option.map_some, hend]
  exact ⟨hcells.search_link hnot hlink hn, c, hc, hend⟩

/-- Linking the last cell to a cell outside the list. -/
theorem append_cell (hcells : Paints heap p (l ++ [q])) (hb : b ≠ 0)
    (hnew : (heap b).map Paint.next = some 0) (hout : b ∉ l ++ [q]) (c : Paint) :
    Paints (setPaint heap q { c with next := b }) p (l ++ [q] ++ [b]) := by
  have hnodup := hcells.nodup
  have hnot : ∀ a ∈ l, a ≠ q := fun a ha heq =>
    (List.nodup_append.mp hnodup).2.2 a ha q (List.mem_singleton_self q) heq
  have hbq : b ≠ q := fun heq => hout (by simp [heq])
  obtain ⟨d, hd, hdnext⟩ := Option.map_eq_some_iff.mp hnew
  rw [List.append_assoc]
  refine hcells.splice (b := b) (fun a ha => by rw [set_paint_other (hnot a ha)]) ?_ ?_
  · rw [set_paint_self]
    rfl
  · refine ⟨rfl, hb, d, ?_, hdnext⟩
    rw [set_paint_other hbq, hd]

/-! ### The calls -/

/-- Every list with a head ends in some cell. -/
theorem exists_last (p : Nat) (l : List Nat) : ∃ l₁ q, p :: l = l₁ ++ [q] := by
  obtain ⟨l₁, q, heq⟩ := (List.eq_nil_or_concat' (p :: l)).resolve_left (List.cons_ne_nil _ _)
  exact ⟨l₁, q, heq⟩

/-- `window_add` of an address that is in the list, or of 0. -/
theorem window_add_present (h : PaintList s ws) (new : Nat) (hmem : addr ∈ 0 :: ws)
    (hn : ws.length < n) : windowAdd n new addr s = some s := by
  obtain ⟨l, hcells, howners⟩ := h.owners
  have hlen := howners.length
  simp only [List.length_cons] at hlen
  obtain ⟨a, ha, hsearch⟩ :=
    (search_owner hcells howners addr (show (_ :: l).length ≤ n by simp; omega)).1 hmem
  rw [windowAdd, hsearch]
  show (if a ≠ 0 then some s else _) = some s
  rw [if_pos ha]

/-- `window_add` of another address. -/
theorem window_add_absent (h : PaintList s ws) {new : Nat} (hnew : new ≠ 0)
    (hfresh : s.heap new = none) (hnot : addr ∉ 0 :: ws) :
    ∃ s', (∀ n, ws.length < n → windowAdd n new addr s = some s') ∧
      PaintList s' (ws ++ [addr]) := by
  obtain ⟨l, hcells, howners⟩ := h.owners
  have hlen := howners.length
  simp only [List.length_cons] at hlen
  have hsearch : ∀ n, ws.length < n →
      search Paint.next s.heap (fun c => c.w == addr) n s.paintReadyQueue = some 0 := fun n hn =>
    (search_owner hcells howners addr (show (_ :: l).length ≤ n by simp; omega)).2 hnot
  have hout : new ∉ s.paintReadyQueue :: l := by
    intro hmem
    obtain ⟨c, hc⟩ := hcells.allocated new hmem
    rw [hfresh] at hc
    cases hc
  have hother : ∀ a ∈ s.paintReadyQueue :: l, setPaint s.heap new ⟨addr, 0⟩ a = s.heap a :=
    fun a ha => set_paint_other fun heq => hout (heq ▸ ha)
  have hcells' : Paints (setPaint s.heap new ⟨addr, 0⟩) s.paintReadyQueue
      (s.paintReadyQueue :: l) := hcells.congr fun a ha => by rw [hother a ha]
  -- the new cell goes behind the last one
  obtain ⟨l₁, q, hsplit⟩ := exists_last s.paintReadyQueue l
  rw [hsplit] at hcells' hout
  have hcount : l₁.length = ws.length := by
    have := congrArg List.length hsplit
    simp at this
    omega
  obtain ⟨-, c, hc, -⟩ := search_last hcells' (Nat.lt_succ_self _)
  have hgrown := append_cell hcells' hnew (by simp) hout c
  refine ⟨{ s with
    heap := setPaint (setPaint s.heap new ⟨addr, 0⟩) q { c with next := new }
    paintFoco := new
    windowCount := s.windowCount + 1
    gid := s.gid + 1 }, ?_, ?_⟩
  · intro n hn
    obtain ⟨hlast, -⟩ := search_last hcells' (hcount ▸ hn)
    simp only [windowAdd, hsearch n hn, Option.bind_eq_bind, Option.bind_some, ne_eq,
      not_true_eq_false, if_false, hlast, hc]
    rfl
  · have howner := set_paint_owner (v := new) hc
    have hold : Owners (setPaint (setPaint s.heap new ⟨addr, 0⟩) q { c with next := new })
        (s.paintReadyQueue :: l) (0 :: ws) :=
      howners.congr fun a ha => by rw [howner, hother a ha]
    have hone : Owners (setPaint (setPaint s.heap new ⟨addr, 0⟩) q { c with next := new })
        [new] [addr] := by
      show [Option.map Paint.w _] = [some addr]
      rw [howner, set_paint_self]
      rfl
    rw [← hsplit] at hgrown
    refine paint_list_of hgrown (hold.append hone) ?_ ?_
    · rw [← List.cons_append]
      refine List.nodup_append.mpr ⟨h.nodup, List.nodup_singleton _, fun w hw v hv heq => ?_⟩
      rw [List.mem_singleton.mp hv] at heq
      exact hnot (heq ▸ hw)
    · show s.windowCount + 1 = (ws ++ [addr]).length
      rw [h.count, List.length_append, List.length_singleton]

/-- The test in the loop of `window_remove`: the cell behind belongs to the window. -/
abbrev Behind (low : Paint) (heap : Nat → Option Paint) (addr : Nat) (c : Paint) : Bool :=
  (cellAt low heap c.next).any fun next => next.w == addr

/-- A cell that is followed by another one of the list. -/
theorem behind_iff {low c : Paint} (hcells : Paints heap c.next (b :: l)) :
    Behind low heap addr c = true ↔ (heap b).map Paint.w = some addr := by
  obtain ⟨heq, hb, d, hd, -⟩ := hcells
  rw [Behind, heq, cellAt, if_neg hb, hd]
  simp

/-- The loop of `window_remove` goes on from a cell that another window's cell follows. -/
theorem search_skip (low : Paint) (hcells : Paints heap p (p :: b :: l))
    (hne : (heap b).map Paint.w ≠ some addr) :
    search Paint.next heap (Behind low heap addr) (n + 1) p =
        search Paint.next heap (Behind low heap addr) n b ∧ Paints heap b (b :: l) := by
  obtain ⟨-, hp, c, hc, hrest⟩ := hcells
  have hskip : ¬ Behind low heap addr c = true := fun h => hne ((behind_iff hrest).mp h)
  have hnext : c.next = b := hrest.1
  rw [search, if_neg hp, hc]
  simp only [if_neg hskip]
  rw [hnext] at hrest ⊢
  exact ⟨rfl, hrest⟩

/-- The last cell of a list with the first cell `p`. -/
abbrev lastCell (p : Nat) (l : List Nat) : Nat := (p :: l).getLast (List.cons_ne_nil _ _)

/-- The loop of `window_remove` stops at the cell before the window's cell. -/
theorem search_before (low : Paint) (hcells : Paints heap p (p :: (l₁ ++ b :: l₂)))
    (hb : (heap b).map Paint.w = some addr) (hnot : ∀ a ∈ l₁, (heap a).map Paint.w ≠ some addr)
    (hn : l₁.length < n) :
    search Paint.next heap (Behind low heap addr) n p = some (lastCell p l₁) := by
  obtain ⟨n, rfl⟩ : ∃ m, n = m + 1 := ⟨n - 1, by omega⟩
  induction l₁ generalizing p n with
  | nil =>
      obtain ⟨-, hp, c, hc, hrest⟩ := hcells
      rw [search, if_neg hp, hc]
      simp only [(behind_iff hrest).mpr hb, if_true]
      rfl
  | cons y l₁ ih =>
      simp only [List.length_cons] at hn
      obtain ⟨hstep, hrest⟩ := search_skip (n := n) low hcells (hnot y (List.mem_cons_self ..))
      obtain ⟨n, rfl⟩ : ∃ m, n = m + 1 := ⟨n - 1, by omega⟩
      rw [hstep]
      exact ih hrest (fun a ha => hnot a (List.mem_cons_of_mem _ ha)) n (by omega)

/-- The loop of `window_remove` for an unregistered address: it goes to the end, where the test is
about the memory at address 0. -/
theorem search_unregistered (low : Paint) (hcells : Paints heap p (p :: l))
    (hnot : ∀ a ∈ l, (heap a).map Paint.w ≠ some addr) (hn : l.length < n) :
    search Paint.next heap (Behind low heap addr) n p =
      some (if low.w = addr then lastCell p l else 0) := by
  obtain ⟨n, rfl⟩ : ∃ m, n = m + 1 := ⟨n - 1, by omega⟩
  induction l generalizing p n with
  | nil =>
      obtain ⟨-, hp, c, hc, hend⟩ := hcells
      have htest : Behind low heap addr c = (low.w == addr) := by
        rw [Behind, show c.next = 0 from hend]
        rfl
      rw [search, if_neg hp, hc]
      by_cases hlow : low.w = addr
      · simp [htest, hlow]
      · simp only [htest, beq_iff_eq, if_neg hlow]
        rw [show c.next = 0 from hend]
        cases n <;> rfl
  | cons y l ih =>
      simp only [List.length_cons] at hn
      obtain ⟨hstep, hrest⟩ := search_skip (n := n) low hcells (hnot y (List.mem_cons_self ..))
      obtain ⟨n, rfl⟩ : ∃ m, n = m + 1 := ⟨n - 1, by omega⟩
      rw [hstep]
      exact ih hrest (fun a ha => hnot a (List.mem_cons_of_mem _ ha)) n (by omega)

/-- The loop of `window_foco` stops at the window's cell. -/
theorem foco_loop_found (hcells : Paints heap p (l₁ ++ b :: l₂))
    (hb : (heap b).map Paint.w = some addr) (hnot : ∀ a ∈ l₁, (heap a).map Paint.w ≠ some addr)
    (hn : l₁.length < n) (pre : Nat) :
    focoLoop heap addr n pre p = some (lastCell pre l₁, b) := by
  induction l₁ generalizing p pre n with
  | nil =>
      obtain ⟨rfl, hp, c, hc, -⟩ := hcells
      obtain ⟨n, rfl⟩ : ∃ m, n = m + 1 := ⟨n - 1, by omega⟩
      have hw : c.w = addr := by simpa [hc] using hb
      rw [focoLoop, if_neg hp, hc]
      simp only [if_pos hw]
      rfl
  | cons y l₁ ih =>
      obtain ⟨rfl, hp, c, hc, hrest⟩ := hcells
      obtain ⟨n, rfl⟩ : ∃ m, n = m + 1 := ⟨n - 1, by omega⟩
      have hw : c.w ≠ addr := by simpa [hc] using hnot p (List.mem_cons_self ..)
      rw [focoLoop, if_neg hp, hc]
      simp only [if_neg hw]
      exact ih hrest (fun a ha => hnot a (List.mem_cons_of_mem _ ha)) (by simpa using hn) p

/-- The loop of `window_foco` for an unregistered address. -/
theorem foco_loop_absent (hcells : Paints heap p l)
    (hnot : ∀ a ∈ l, (heap a).map Paint.w ≠ some addr) (hn : l.length ≤ n) (pre : Nat) :
    ∃ r, focoLoop heap addr n pre p = some (r, 0) := by
  induction l generalizing p pre n with
  | nil =>
      obtain rfl := hcells
      cases n <;> exact ⟨pre, rfl⟩
  | cons y l ih =>
      obtain ⟨rfl, hp, c, hc, hrest⟩ := hcells
      simp only [List.length_cons] at hn
      obtain ⟨n, rfl⟩ : ∃ m, n = m + 1 := ⟨n - 1, by omega⟩
      have hw : c.w ≠ addr := by simpa [hc] using hnot p (List.mem_cons_self ..)
      rw [focoLoop, if_neg hp, hc]
      simp only [if_neg hw]
      exact ih hrest (fun a ha => hnot a (List.mem_cons_of_mem _ ha)) (by omega) p

/-- The cell of a registered window and the cells around it. -/
structure Registered (s : Compositor) (addr b : Nat) (l₁ l₂ ws₁ ws₂ : List Nat) : Prop where
  cells : Paints s.heap s.paintReadyQueue (s.paintReadyQueue :: (l₁ ++ b :: l₂))
  front : Owners s.heap (s.paintReadyQueue :: l₁) (0 :: ws₁)
  owner : (s.heap b).map Paint.w = some addr
  back : Owners s.heap l₂ ws₂
  others : ∀ a ∈ s.paintReadyQueue :: l₁, (s.heap a).map Paint.w ≠ some addr
  erased : (ws₁ ++ addr :: ws₂).erase addr = ws₁ ++ ws₂

/-- The windows that are registered have a cell. -/
theorem PaintList.registered (h : PaintList s ws) (hmem : addr ∈ ws) :
    ∃ b l₁ l₂ ws₁ ws₂, ws = ws₁ ++ addr :: ws₂ ∧ Registered s addr b l₁ l₂ ws₁ ws₂ := by
  obtain ⟨l, hcells, howners⟩ := h.cells
  obtain ⟨hzero, hnodup⟩ := List.nodup_cons.mp h.nodup
  obtain ⟨l₁, b, l₂, ws₁, ws₂, rfl, rfl, hfront, hb, hback, hnot₁, hnot₂⟩ :=
    howners.split hmem hnodup
  have hhead : Owners s.heap (s.paintReadyQueue :: l₁) (0 :: ws₁) := by
    unfold Owners at *
    rw [List.map_cons, List.map_cons, hfront, h.dummy]
  refine ⟨b, l₁, l₂, ws₁, ws₂, rfl, hcells, hhead, hb, hback, fun a ha howner => ?_, ?_⟩
  · obtain ⟨w, hw, heq⟩ := hhead.mem ha
    obtain rfl : w = addr := Option.some.inj (heq.symm.trans howner)
    rcases List.mem_cons.mp hw with rfl | hw
    · exact hzero hmem
    · exact hnot₁ hw
  · rw [List.erase_append_right _ hnot₁, List.erase_cons_head]

/-- The cells before a cell, with the last of them set apart. -/
theorem front_split (p : Nat) (l l₂ : List Nat) :
    (p :: l).dropLast ++ lastCell p l :: l₂ = p :: (l ++ l₂) := by
  have hfront : (p :: l).dropLast ++ [lastCell p l] = p :: l := List.dropLast_append_getLast _
  calc (p :: l).dropLast ++ lastCell p l :: l₂
      = (p :: l).dropLast ++ [lastCell p l] ++ l₂ := by rw [List.append_assoc]; rfl
    _ = p :: (l ++ l₂) := by rw [hfront, List.cons_append]

/-- The cell before the window's cell, seen from the whole list. -/
theorem Registered.cells_before {l₁ l₂ ws₁ ws₂ : List Nat}
    (h : Registered s addr b l₁ l₂ ws₁ ws₂) :
    Paints s.heap s.paintReadyQueue ((s.paintReadyQueue :: l₁).dropLast ++
      lastCell s.paintReadyQueue l₁ :: b :: l₂) := by
  rw [front_split]
  exact h.cells

/-- The cell appears once in the list. -/
theorem Registered.once {l₁ l₂ ws₁ ws₂ : List Nat} (h : Registered s addr b l₁ l₂ ws₁ ws₂) :
    b ∉ s.paintReadyQueue :: (l₁ ++ l₂) := by
  have hnodup := h.cells.nodup
  rw [← List.cons_append, List.nodup_middle, List.nodup_cons] at hnodup
  exact hnodup.1

/-- The owners of the list without the cell, in a heap that changed links only. -/
theorem Registered.owners_without {l₁ l₂ ws₁ ws₂ : List Nat}
    (h : Registered s addr b l₁ l₂ ws₁ ws₂)
    (hsame : ∀ a, a ≠ b → (heap' a).map Paint.w = (s.heap a).map Paint.w) :
    Owners heap' (s.paintReadyQueue :: (l₁ ++ l₂)) (0 :: (ws₁ ++ ws₂)) := by
  have hother : ∀ a ∈ s.paintReadyQueue :: (l₁ ++ l₂), a ≠ b := fun a ha heq =>
    h.once (heq ▸ ha)
  refine (h.front.congr fun a ha => hsame a (hother a ?_)).append
    (h.back.congr fun a ha => hsame a (hother a ?_))
  · rw [← List.cons_append]
    exact List.mem_append_left _ ha
  · exact List.mem_cons_of_mem _ (List.mem_append_right _ ha)

/-- `window_remove` of a registered window. -/
theorem window_remove_registered (h : PaintList s ws) (low : Paint) (hmem : addr ∈ ws) :
    ∃ s', (∀ n, ws.length < n → windowRemove n low addr s = some s') ∧
      PaintList s' (ws.erase addr) := by
  have hlen := h.count
  obtain ⟨b, l₁, l₂, ws₁, ws₂, rfl, hreg⟩ := h.registered hmem
  have hcells := hreg.cells_before
  have hfront := hreg.front.length
  simp only [List.length_cons, List.length_append] at hfront hlen
  obtain ⟨-, -, c, hc, hbehind⟩ := hcells.of_append
  obtain ⟨hnext, hb, d, hd, -⟩ := hbehind
  -- the search ends at the cell before the one of the window
  have hsearch : ∀ n, l₁.length < n → search Paint.next s.heap (Behind low s.heap addr) n
      s.paintReadyQueue = some (lastCell s.paintReadyQueue l₁) := fun n hn =>
    search_before low hreg.cells hreg.owner
      (fun a ha => hreg.others a (List.mem_cons_of_mem _ ha)) hn
  have hr := hcells.ne_zero (lastCell s.paintReadyQueue l₁) (by simp)
  generalize hlast : lastCell s.paintReadyQueue l₁ = r at *
  have hne : r ≠ b := by
    rintro rfl
    have hnodup := (List.nodup_append.mp hcells.nodup).2.1
    exact (List.nodup_cons.mp hnodup).1 (List.mem_cons_self ..)
  -- that cell is linked past the window's cell, which is freed
  let heap' := Function.update (setPaint s.heap r { c with next := d.next }) b none
  have hsame : ∀ a, a ≠ r → a ≠ b → heap' a = s.heap a := fun a har hab => by
    show Function.update (setPaint s.heap r _) b none a = s.heap a
    rw [Function.update_of_ne hab, set_paint_other har]
  have hrelinked : heap' r = some { c with next := d.next } := by
    show Function.update (setPaint s.heap r _) b none r = _
    rw [Function.update_of_ne hne, set_paint_self]
  refine ⟨{ s with
    heap := heap'
    paintFoco := if s.paintFoco = b then 0 else s.paintFoco
    windowCount := s.windowCount - 1 }, ?_, ?_⟩
  · intro n hn
    rw [List.length_append, List.length_cons] at hn
    have hcount : ¬ s.windowCount < 1 := by omega
    have hcell : cellAt low s.heap b = some d := by rw [cellAt, if_neg hb, hd]
    simp only [windowRemove, if_neg hcount]
    rw [show search Paint.next s.heap _ n s.paintReadyQueue = some r from
      hsearch n (by omega)]
    simp only [Option.bind_eq_bind, Option.bind_some, if_neg hr, hc, hnext, hcell, if_neg hb]
    rfl
  · have howner : ∀ a, a ≠ b → (heap' a).map Paint.w = (s.heap a).map Paint.w := by
      intro a hab
      by_cases har : a = r
      · rw [har, hrelinked, hc]
        rfl
      · rw [hsame a har hab]
    have hunlinked := hcells.unlink hd hsame (by rw [hrelinked]; rfl)
    rw [← hlast, front_split] at hunlinked
    have hkept : (ws₁ ++ addr :: ws₂).erase addr = ws₁ ++ ws₂ := hreg.erased
    rw [hkept]
    refine paint_list_of hunlinked (hreg.owners_without howner) ?_ ?_
    · refine h.nodup.sublist (List.Sublist.cons_cons 0 ?_)
      rw [← hkept]
      exact List.erase_sublist
    · show s.windowCount - 1 = (ws₁ ++ ws₂).length
      rw [hlen, List.length_append]
      omega

/-- `window_remove` of an unregistered address. -/
theorem window_remove_unregistered (h : PaintList s ws) (low : Paint) (hnot : addr ∉ ws) :
    (ws = [] ∨ low.w ≠ addr → ∀ n, ws.length < n → windowRemove n low addr s = some s) ∧
      (ws ≠ [] → low.w = addr → ∃ s', (∀ n, ws.length < n →
        windowRemove n low addr s = some s') ∧ s'.windowCount = s.windowCount - 1) := by
  obtain ⟨l, hcells, howners⟩ := h.cells
  have hlen := howners.length
  have hothers : ∀ a ∈ l, (s.heap a).map Paint.w ≠ some addr := by
    intro a ha howner
    obtain ⟨w, hw, heq⟩ := howners.mem ha
    obtain rfl : w = addr := Option.some.inj (heq.symm.trans howner)
    exact hnot hw
  have hsearch := fun n (hn : l.length < n) =>
    search_unregistered low hcells hothers hn
  by_cases hnil : ws = []
  · subst hnil
    have hcount : s.windowCount < 1 := by
      rw [h.count]
      exact Nat.zero_lt_one
    exact ⟨fun _ _ _ => if_pos hcount, fun hne => absurd rfl hne⟩
  · have hcount : ¬ s.windowCount < 1 := by
      have := List.length_pos_of_ne_nil hnil
      have := h.count
      omega
    refine ⟨fun hlow n hn => ?_, fun _ hlow => ?_⟩
    · have hzero := hsearch n (by omega)
      rw [if_neg (hlow.resolve_left hnil)] at hzero
      simp only [windowRemove, if_neg hcount]
      rw [show search Paint.next s.heap _ n s.paintReadyQueue = some 0 from hzero]
      rfl
    · -- behind the last cell the memory at address 0 is taken for a cell
      simp only [if_pos hlow] at hsearch
      have hsplit := front_split s.paintReadyQueue l []
      rw [List.append_nil] at hsplit
      rw [← hsplit] at hcells
      obtain ⟨-, hr, c, hc, hend⟩ := hcells.of_append
      have hcell : cellAt low s.heap c.next = some low := if_pos hend
      have hnull : c.next = 0 := hend
      refine ⟨{ s with
        heap := setPaint s.heap (lastCell s.paintReadyQueue l) { c with next := low.next }
        paintFoco := if s.paintFoco = 0 then 0 else s.paintFoco
        windowCount := s.windowCount - 1 }, fun n hn => ?_, rfl⟩
      simp only [windowRemove, if_neg hcount]
      rw [show search Paint.next s.heap _ n s.paintReadyQueue = some _ from
        hsearch n (by omega)]
      simp only [Option.bind_eq_bind, Option.bind_some, if_neg hr, hc, hcell]
      simp only [hnull, if_true]
      rfl

/-- `window_foco` of an unregistered address other than 0. -/
theorem window_foco_unregistered (h : PaintList s ws) (hnot : addr ∉ 0 :: ws)
    (hn : ws.length < n) : windowFoco n addr s = some s := by
  obtain ⟨l, hcells, howners⟩ := h.owners
  have hlen := howners.length
  simp only [List.length_cons] at hlen
  have hothers : ∀ a ∈ s.paintReadyQueue :: l, (s.heap a).map Paint.w ≠ some addr := by
    intro a ha howner
    obtain ⟨w, hw, heq⟩ := howners.mem ha
    obtain rfl : w = addr := Option.some.inj (heq.symm.trans howner)
    exact hnot hw
  have hfuel : (s.paintReadyQueue :: l).length ≤ n := by
    simp only [List.length_cons]
    omega
  obtain ⟨r, hloop⟩ := foco_loop_absent hcells hothers hfuel s.paintReadyQueue
  rw [windowFoco, hloop]
  rfl

/-- `window_foco` of the address 0 finds the dummy head. -/
theorem window_foco_zero (h : PaintList s ws) :
    ∃ s', (∀ n, ws.length < n → windowFoco n 0 s = some s') ∧ (ws = [] → PaintList s' ws) ∧
      (ws ≠ [] → (s'.heap s'.paintReadyQueue).map Paint.next = some s'.paintReadyQueue) := by
  obtain ⟨l, hcells, howners⟩ := h.cells
  have hlen := howners.length
  have hdummy := h.dummy
  obtain ⟨-, hp, c, hc, hrest⟩ := hcells
  have hw : c.w = 0 := by simpa [hc] using hdummy
  have hloop : ∀ n, focoLoop s.heap 0 (n + 1) s.paintReadyQueue s.paintReadyQueue =
      some (s.paintReadyQueue, s.paintReadyQueue) := by
    intro n
    rw [focoLoop, if_neg hp, hc]
    simp only [if_pos hw]
  cases l with
  | nil =>
      obtain rfl : ws = [] := List.length_eq_zero_iff.mp hlen.symm
      have hend : c.next = 0 := hrest
      refine ⟨{ s with paintFoco := s.paintReadyQueue }, ?_, fun _ => ?_, fun hne => absurd rfl hne⟩
      · intro n hn
        obtain ⟨n, rfl⟩ : ∃ m, n = m + 1 := ⟨n - 1, by omega⟩
        rw [windowFoco, hloop]
        simp only [Option.bind_eq_bind, Option.bind_some, if_neg hp, hc, hend, if_true]
        rfl
      · exact ⟨h.cells, h.dummy, h.nodup, h.count⟩
  | cons y l =>
      have hsome : ws ≠ [] := by
        rintro rfl
        simp at hlen
      have hend : c.next ≠ 0 := by
        rw [hrest.1]
        exact hrest.2.1
      -- the list behind the head is lost, and the head is linked to itself
      refine ⟨{ s with
        heap := setPaint (setPaint (setPaint s.heap s.paintReadyQueue c) s.paintReadyQueue
          { c with next := 0 }) s.paintReadyQueue { c with next := s.paintReadyQueue }
        paintFoco := s.paintReadyQueue }, ?_, fun hnil => absurd hnil hsome, fun _ => ?_⟩
      · intro n hn
        obtain ⟨n, rfl⟩ : ∃ m, n = m + 1 := ⟨n - 1, by omega⟩
        rw [windowFoco, hloop]
        simp only [Option.bind_eq_bind, Option.bind_some, if_neg hp, hc, if_neg hend,
          set_paint_self, search, beq_self_eq_true, if_true]
        rfl
      · show (setPaint _ s.paintReadyQueue _ s.paintReadyQueue).map Paint.next = _
        rw [set_paint_self]
        rfl

/-- `window_foco` of a registered window. -/
theorem window_foco_registered (h : PaintList s ws) (hmem : addr ∈ ws) :
    ∃ s', (∀ n, ws.length < n → windowFoco n addr s = some s') ∧
      PaintList s' (ws.erase addr ++ [addr]) := by
  obtain ⟨b, l₁, l₂, ws₁, ws₂, rfl, hreg⟩ := h.registered hmem
  have hcells := hreg.cells_before
  have hfront := hreg.front.length
  have hback := hreg.back.length
  have hcount := h.count
  simp only [List.length_cons, List.length_append] at hfront hcount
  obtain ⟨-, -, c, hc, hbehind⟩ := hcells.of_append
  obtain ⟨hnext, hb, d, hd, hrest⟩ := hbehind
  have hwhole : Paints s.heap s.paintReadyQueue ((s.paintReadyQueue :: l₁) ++ b :: l₂) := hreg.cells
  have hloop : ∀ n, l₁.length + 1 < n → focoLoop s.heap addr n s.paintReadyQueue
      s.paintReadyQueue = some (lastCell s.paintReadyQueue l₁, b) := fun n hn =>
    foco_loop_found hwhole hreg.owner hreg.others hn _
  have hbound : ∀ n, (ws₁ ++ addr :: ws₂).length < n → l₁.length + 1 < n := fun n hn => by
    rw [List.length_append, List.length_cons] at hn
    omega
  have hkept : (ws₁ ++ addr :: ws₂).erase addr = ws₁ ++ ws₂ := hreg.erased
  rw [hkept]
  cases l₂ with
  | nil =>
      -- the window is the last one already
      obtain rfl : ws₂ = [] := List.length_eq_zero_iff.mp hback.symm
      have hend : d.next = 0 := hrest
      refine ⟨{ s with paintFoco := b }, ?_, ?_⟩
      · intro n hn
        rw [windowFoco, hloop n (hbound n hn)]
        simp only [Option.bind_eq_bind, Option.bind_some, if_neg hb, hd, hend, if_true]
        rfl
      · rw [List.append_nil]
        exact ⟨h.cells, h.dummy, h.nodup, h.count⟩
  | cons y l₂ =>
      have hend : d.next ≠ 0 := by
        rw [hrest.1]
        exact hrest.2.1
      generalize hlast : lastCell s.paintReadyQueue l₁ = r at *
      have hnodup := hcells.nodup
      have hne : r ≠ b := by
        rintro rfl
        have hinner := (List.nodup_append.mp hnodup).2.1
        exact (List.nodup_cons.mp hinner).1 (List.mem_cons_self ..)
      let relinked := setPaint s.heap r { c with next := d.next }
      have hd' : relinked b = some d := (set_paint_other (Ne.symm hne)).trans hd
      let detached := setPaint relinked b { d with next := 0 }
      have hsame : ∀ a, a ≠ r → a ≠ b → detached a = s.heap a := fun a har hab =>
        (set_paint_other hab).trans (set_paint_other har)
      have hr : detached r = some { c with next := d.next } :=
        (set_paint_other hne).trans set_paint_self
      have hunlinked := hcells.unlink hd hsame (by rw [hr]; rfl)
      rw [← hlast, front_split] at hunlinked
      obtain ⟨l₃, q, hsplit⟩ := exists_last s.paintReadyQueue (l₁ ++ y :: l₂)
      rw [hsplit] at hunlinked
      have hfuel : ∀ n, (ws₁ ++ addr :: ws₂).length < n → l₃.length < n := fun n hn => by
        have := congrArg List.length hsplit
        simp only [List.length_cons, List.length_append, List.length_nil] at this hback hn
        omega
      obtain ⟨-, e, he, -⟩ := search_last hunlinked (Nat.lt_succ_self _)
      have hout : b ∉ l₃ ++ [q] := by
        rw [← hsplit]
        exact hreg.once
      have hself : detached b = some { d with next := 0 } := set_paint_self
      have hgrown := append_cell hunlinked hb (by rw [hself]; rfl) hout e
      refine ⟨{ s with heap := setPaint detached q { e with next := b }, paintFoco := b }, ?_, ?_⟩
      · intro n hn
        obtain ⟨hsearch, -⟩ := search_last hunlinked (hfuel n hn)
        rw [windowFoco, hloop n (hbound n hn)]
        simp only [Option.bind_eq_bind, Option.bind_some, if_neg hb, hd, if_neg hend, hc]
        rw [show setPaint s.heap r { c with next := d.next } b = some d from hd']
        simp only [Option.bind_some]
        rw [show search Paint.next (setPaint _ b _) _ n s.paintReadyQueue = some q from hsearch]
        simp only [Option.bind_some]
        rw [show setPaint _ b _ q = some e from he]
        rfl
      · have hfinal := set_paint_owner (v := b) he
        have howner : ∀ a, (detached a).map Paint.w = (s.heap a).map Paint.w := by
          intro a
          show (setPaint (setPaint s.heap r _) b _ a).map Paint.w = _
          rw [set_paint_owner hd' a, set_paint_owner hc a]
        have hrest' : Owners (setPaint detached q { e with next := b })
            (s.paintReadyQueue :: (l₁ ++ y :: l₂)) (0 :: (ws₁ ++ ws₂)) :=
          hreg.owners_without fun a _ => (hfinal a).trans (howner a)
        have hone : Owners (setPaint detached q { e with next := b }) [b] [addr] := by
          show [Option.map Paint.w _] = [some addr]
          rw [hfinal, howner, hreg.owner]
        rw [← hsplit] at hgrown
        refine paint_list_of hgrown (hrest'.append hone) ?_ ?_
        · have hnodup' := h.nodup
          rw [← List.cons_append, List.nodup_middle] at hnodup'
          obtain ⟨hnot, hwithout⟩ := List.nodup_cons.mp hnodup'
          rw [← List.cons_append, ← List.cons_append]
          refine List.nodup_append.mpr ⟨hwithout, List.nodup_singleton _, fun w hw v hv heq => ?_⟩
          rw [List.mem_singleton.mp hv] at heq
          exact hnot (heq ▸ hw)
        · show s.windowCount = (ws₁ ++ ws₂ ++ [addr]).length
          rw [hcount, List.length_append, List.length_append, List.length_singleton]
          omega

/-- A head that is linked to itself starts no finite list. -/
theorem self_linked_endless {l : List Nat} (hself : (heap p).map Paint.next = some p) :
    ¬ Paints heap p (p :: l) := by
  rintro ⟨-, hp, c, hc, hrest⟩
  rw [hc, Option.map_some, Option.some.injEq] at hself
  rw [hself] at hrest
  have hcells : Paints heap p (p :: l) := ⟨rfl, hp, c, hc, hself ▸ hrest⟩
  have hsame := congrArg List.length (hcells.unique hrest)
  simp at hsame

/-- Every call returns, and the list is as it should be afterwards exactly when the call is
`Good`. -/
theorem window_call (h : PaintList s ws) (call : WindowCall) (hfresh : call.Fresh s) :
    ∃ s', Returns (fun n => call.run n s) s' ∧
      (PaintList s' (call.abstract ws) ↔ call.Good (s, ws)) := by
  cases call with
  | add new addr =>
      by_cases hmem : addr ∈ 0 :: ws
      · have habstract : (WindowCall.add new addr).abstract ws = ws := if_pos hmem
        rw [habstract]
        exact ⟨s, ⟨ws.length + 1, fun n hn => window_add_present h new hmem hn⟩,
          iff_of_true h trivial⟩
      · have habstract : (WindowCall.add new addr).abstract ws = ws ++ [addr] := if_neg hmem
        obtain ⟨s', hrun, hlist⟩ := window_add_absent h hfresh.1 hfresh.2 hmem
        rw [habstract]
        exact ⟨s', ⟨ws.length + 1, hrun⟩, iff_of_true hlist trivial⟩
  | remove low addr =>
      by_cases hmem : addr ∈ ws
      · obtain ⟨s', hrun, hlist⟩ := window_remove_registered h low hmem
        exact ⟨s', ⟨ws.length + 1, hrun⟩, iff_of_true hlist (.inl hmem)⟩
      · obtain ⟨hgood, hbad⟩ := window_remove_unregistered h low hmem
        have habstract : (WindowCall.remove low addr).abstract ws = ws :=
          List.erase_of_not_mem hmem
        rw [habstract]
        by_cases hcase : ws = [] ∨ low.w ≠ addr
        · exact ⟨s, ⟨ws.length + 1, hgood hcase⟩, iff_of_true h (.inr hcase)⟩
        · obtain ⟨hsome, hlow⟩ := not_or.mp hcase
          obtain ⟨s', hrun, hcount⟩ := hbad hsome (not_not.mp hlow)
          refine ⟨s', ⟨ws.length + 1, hrun⟩, iff_of_false (fun hlist => ?_) fun hgood => ?_⟩
          · -- the count has dropped, the list has not
            have hold := h.count
            have hnew := hlist.count
            have hpos := List.length_pos_of_ne_nil hsome
            omega
          · exact hgood.elim hmem hcase
  | foco addr =>
      by_cases hzero : addr = 0
      · subst hzero
        have hmem : 0 ∉ ws := (List.nodup_cons.mp h.nodup).1
        have habstract : (WindowCall.foco 0).abstract ws = ws := if_neg hmem
        obtain ⟨s', hrun, hempty, hself⟩ := window_foco_zero h
        rw [habstract]
        refine ⟨s', ⟨ws.length + 1, hrun⟩, fun hlist => ?_, fun hgood => hempty ?_⟩
        · by_contra hbad
          obtain ⟨l, hcells, -⟩ := hlist.cells
          exact self_linked_endless (hself fun hnil => hbad (.inr hnil)) hcells
        · exact hgood.resolve_left fun hne => hne rfl
      · by_cases hmem : addr ∈ ws
        · have habstract : (WindowCall.foco addr).abstract ws = ws.erase addr ++ [addr] :=
            if_pos hmem
          obtain ⟨s', hrun, hlist⟩ := window_foco_registered h hmem
          rw [habstract]
          exact ⟨s', ⟨ws.length + 1, hrun⟩, iff_of_true hlist (.inl hzero)⟩
        · have habstract : (WindowCall.foco addr).abstract ws = ws := if_neg hmem
          have hnot : addr ∉ 0 :: ws := by
            rw [List.mem_cons, not_or]
            exact ⟨hzero, hmem⟩
          rw [habstract]
          exact ⟨s, ⟨ws.length + 1, fun n hn => window_foco_unregistered h hnot hn⟩,
            iff_of_true h (.inl hzero)⟩

/-! ### Runs -/

/-- The list right after `compose`. -/
theorem compose_list {paint : Nat} (hpaint : paint ≠ 0) (gid : Nat) :
    PaintList (compose paint gid) [] := by
  have hhead : (compose paint gid).heap paint = some ⟨0, 0⟩ := by
    show setPaint (fun _ => none) paint ⟨0, 0⟩ paint = _
    exact set_paint_self
  refine ⟨⟨[], ⟨rfl, hpaint, _, hhead, rfl⟩, rfl⟩, ?_, by simp, rfl⟩
  show ((compose paint gid).heap paint).map Paint.w = some 0
  rw [hhead]
  rfl

/-- The list in every state of a run. -/
theorem window_run_list {paint gid : Nat} (hpaint : paint ≠ 0)
    (hrun : WindowRun paint gid s ws) : PaintList s ws := by
  refine Run.invariant (fun state => PaintList state.1 state.2) hrun
    (compose_list hpaint gid) ?_
  intro state call next h hgood hstep
  cases hstep with
  | call s s' ws call hfresh hreturns =>
      obtain ⟨s'', hreturns', hiff⟩ := window_call h call hfresh
      rw [hreturns.unique hreturns']
      exact hiff.mpr hgood

/-- The paint list over whole runs. In every state that a run of good calls reaches, the list is
the dummy head followed by the abstract list of windows, without end and repetition, and
`window_count` is its length; every further call returns, and keeps this exactly when it is
good. -/
theorem paint_list_run (paint gid : Nat) (hpaint : paint ≠ 0) (s : Compositor) (ws : List Nat)
    (hrun : WindowRun paint gid s ws) :
    PaintList s ws ∧ ∀ call : WindowCall, call.Fresh s →
      ∃ s', Returns (fun n => call.run n s) s' ∧
        (PaintList s' (call.abstract ws) ↔ call.Good (s, ws)) := by
  have hlist := window_run_list hpaint hrun
  exact ⟨hlist, fun call hfresh => window_call hlist call hfresh⟩

/-- A run that registers the window at address 5. -/
theorem window_run_add : ∃ s, WindowRun 1 0 s [5] := by
  have hlist := compose_list Nat.one_ne_zero 0
  have hunused : (compose 1 0).heap 2 = none := rfl
  obtain ⟨s, hreturns, -⟩ := window_call hlist (.add 2 5) ⟨by decide, hunused⟩
  exact ⟨s, Run.snoc Run.refl (.add 2 5) trivial
    (WindowStep.call _ s [] (.add 2 5) ⟨by decide, hunused⟩ hreturns)⟩

/-- The paint list of that run. -/
theorem paint_list_run_add : ∃ s, PaintList s [5] ∧ s.windowCount = 1 := by
  obtain ⟨s, hrun⟩ := window_run_add
  have hlist := (paint_list_run 1 0 Nat.one_ne_zero s [5] hrun).1
  exact ⟨s, hlist, hlist.count⟩

/-- Giving the focus to window 0 there links the dummy head to itself. -/
theorem window_foco_zero_endless :
    ∃ s s', WindowRun 1 0 s [5] ∧ Returns (fun n => windowFoco n 0 s) s' ∧
      (s'.heap s'.paintReadyQueue).map Paint.next = some s'.paintReadyQueue ∧
      ¬ PaintList s' ((WindowCall.foco 0).abstract [5]) := by
  obtain ⟨s, hrun⟩ := window_run_add
  obtain ⟨s', hreturns, -, hself⟩ := window_foco_zero (window_run_list Nat.one_ne_zero hrun)
  have hendless := hself (List.cons_ne_nil _ _)
  refine ⟨s, s', hrun, ⟨2, hreturns⟩, hendless, fun hbroken => ?_⟩
  obtain ⟨l, hcells, -⟩ := hbroken.cells
  exact self_linked_endless hendless hcells

end Sirius.Gui
