import Mathlib.Tactic
import Sirius.Library.Runs

/-!
# The application table of the launcher

`app_remove_foco`, `app_execute`, `app_fixe_remove` and `app_window_register` of
`user/launcher.c`. A start enters the id and the status of the program before it opens the file,
and counts `app_id` up only behind that; so a file that cannot be opened leaves an entry that looks
like a running program, and the next program gets its id.
-/

namespace Sirius.Gui

open Library

/-- The fields `id`, `status` and `w` of `struct app`. -/
structure App where
  (id status w : BitVec 64)

/-- A request of `app_execute` with its `apid`. -/
inductive LauncherRequest where
  | foco (apid : BitVec 64)
  | exec (apid : BitVec 64)

/-- The table with `app_index` entries, `app_index_foco` (`none` for -1), `app_id`, and the requests
sent so far, the last one first. -/
structure Launcher where
  app : Nat → App
  appIndex : Nat
  appIndexFoco : Option Nat
  appId : BitVec 64
  sent : List LauncherRequest

/-- The bits `0x1` and `0x2` of the status. -/
def App.running (a : App) : Bool := a.status &&& 0x1#64 ≠ 0#64
def App.focused (a : App) : Bool := a.status &&& 0x2#64 ≠ 0#64

/-- `app_remove_foco` -/
def appRemoveFoco (t : Launcher) : Launcher :=
  match t.appIndexFoco with
  | none => t
  | some k =>
      { t with
        app := Function.update t.app k { t.app k with status := (t.app k).status &&& ~~~0x2#64 }
        appIndexFoco := none }

/-- `app_execute`, where `opens` says whether `fopen` succeeds. -/
def appExecute (index : Nat) (opens : Bool) (t : Launcher) : Int × Launcher :=
  let a := t.app index
  if a.running then
    if a.focused then (0, t)
    else
      let t :=
        { t with app := Function.update t.app index { a with status := a.status ||| 0x2#64 } }
      let t := { appRemoveFoco t with appIndexFoco := some index }
      (0, { t with sent := .foco a.id :: t.sent })
  else
    let a := { a with id := t.appId, status := a.status ||| 0x1#64 ||| 0x2#64 }
    let t := { t with app := Function.update t.app index a }
    let t := { appRemoveFoco t with appIndexFoco := some index }
    if opens then (0, { t with sent := .exec t.appId :: t.sent, appId := t.appId + 1#64 })
    else (-1, t)

/-- The first entry with that id. -/
def appFind (id : BitVec 64) (t : Launcher) : Option Nat :=
  (List.range t.appIndex).find? fun i => (t.app i).id = id

/-- `app_fixe_remove` -/
def appFixeRemove (id : BitVec 64) (t : Launcher) : Launcher :=
  match appFind id t with
  | none => t
  | some i =>
      let t := if (t.app i).focused then appRemoveFoco t else t
      { t with app := Function.update t.app i { t.app i with id := 0#64, status := 0#64 } }

/-- `app_window_register` for the id that is put together from the message. -/
def appWindowRegister (id window : BitVec 64) (t : Launcher) : Launcher :=
  match appFind id t with
  | none => t
  | some i => { t with app := Function.update t.app i { t.app i with w := window } }

/-! ### Histories -/

/-- The calls of the main loop. An entry that is executed is one of the table. -/
inductive LauncherCall where
  | execute (index : Nat) (opens : Bool)
  | remove (id : BitVec 64)
  | register (id window : BitVec 64)

namespace Launcher

/-- The table with its fixed entries, as `main` sets it up. -/
def start (entries : Nat) : Launcher := ⟨fun _ => ⟨0#64, 0#64, 0#64⟩, entries, none, 1#64, []⟩

/-- The entry is in the table. -/
def Valid (t : Launcher) : LauncherCall → Prop
  | .execute index _ => index < t.appIndex
  | _ => True

def call (t : Launcher) : LauncherCall → Launcher
  | .execute index opens => (appExecute index opens t).2
  | .remove id => appFixeRemove id t
  | .register id window => appWindowRegister id window t

def Step (t : Launcher) (c : LauncherCall) (t' : Launcher) : Prop := t.Valid c ∧ t' = t.call c

/-- The running entries have distinct ids other than 0, and only the entry of `app_index_foco` has
the focus bit, and it is running. -/
structure Ok (t : Launcher) : Prop where
  nonzero : ∀ i < t.appIndex, (t.app i).running → (t.app i).id ≠ 0#64
  distinct : ∀ i < t.appIndex, ∀ j < t.appIndex, (t.app i).running → (t.app j).running →
    (t.app i).id = (t.app j).id → i = j
  focus : ∀ i < t.appIndex, (t.app i).focused → (t.app i).running ∧ t.appIndexFoco = some i

/-- A call keeps the table in order, and a start that fails leaves it as it was. -/
def Law (t : Launcher) (c : LauncherCall) : Prop :=
  (t.call c).Ok ∧ ∀ index opens, c = .execute index opens → (appExecute index opens t).1 ≠ 0 →
    (appExecute index opens t).2 = t

/-- A program that is started can be opened, and the ids are not used up. -/
def Good (t : Launcher) : LauncherCall → Prop
  | .execute index opens => (t.app index).running ∨ opens ∧ t.appId ≠ 0#64
  | _ => True

end Launcher

variable {t t' : Launcher} {c : LauncherCall} {index i : Nat} {id : BitVec 64}

/-! ### Status bits -/

theorem App.running_eq (a : App) : a.running = a.status.getLsbD 0 := by
  have hbit : a.status &&& 0x1#64 = if a.status.getLsbD 0 then 0x1#64 else 0#64 :=
    BitVec.and_twoPow a.status 0
  unfold App.running
  rw [hbit]
  cases a.status.getLsbD 0 <;> decide

theorem App.focused_eq (a : App) : a.focused = a.status.getLsbD 1 := by
  have hbit : a.status &&& 0x2#64 = if a.status.getLsbD 1 then 0x2#64 else 0#64 :=
    BitVec.and_twoPow a.status 1
  unfold App.focused
  rw [hbit]
  cases a.status.getLsbD 1 <;> decide

/-- What the assignments do to the two bits. -/
theorem status_bits (id status w : BitVec 64) :
    (App.running ⟨id, status ||| 0x2#64, w⟩ = App.running ⟨id, status, w⟩ ∧
      App.focused ⟨id, status ||| 0x2#64, w⟩ = true) ∧
    (App.running ⟨id, status ||| 0x1#64 ||| 0x2#64, w⟩ = true ∧
      App.focused ⟨id, status ||| 0x1#64 ||| 0x2#64, w⟩ = true) ∧
    (App.running ⟨id, status &&& ~~~0x2#64, w⟩ = App.running ⟨id, status, w⟩ ∧
      App.focused ⟨id, status &&& ~~~0x2#64, w⟩ = false) ∧
    App.running ⟨id, 0#64, w⟩ = false ∧ App.focused ⟨id, 0#64, w⟩ = false := by
  simp [App.running_eq, App.focused_eq]

/-! ### One call -/

/-- `app_remove_foco` takes the focus bit from the entry of `app_index_foco` only. -/
theorem remove_foco_app (t : Launcher) (i : Nat) :
    ((appRemoveFoco t).app i).id = (t.app i).id ∧
      ((appRemoveFoco t).app i).running = (t.app i).running ∧
      ((appRemoveFoco t).app i).focused =
        ((t.app i).focused && decide (t.appIndexFoco ≠ some i)) := by
  unfold appRemoveFoco
  cases hfoco : t.appIndexFoco with
  | none => simp
  | some k =>
      rcases eq_or_ne i k with rfl | hne
      · obtain ⟨hrunning, hfocused⟩ := (status_bits (t.app i).id (t.app i).status (t.app i).w).2.2.1
        dsimp only
        rw [Function.update_self]
        refine ⟨rfl, hrunning, ?_⟩
        rw [hfocused]
        simp
      · dsimp only
        rw [Function.update_of_ne hne]
        simp [Ne.symm hne]

theorem remove_foco_rest (t : Launcher) :
    (appRemoveFoco t).appIndex = t.appIndex ∧ (appRemoveFoco t).appId = t.appId ∧
      (appRemoveFoco t).appIndexFoco = none := by
  unfold appRemoveFoco
  cases hfoco : t.appIndexFoco with
  | none => exact ⟨rfl, rfl, hfoco⟩
  | some k => exact ⟨rfl, rfl, rfl⟩

namespace Launcher

/-- The invariant of the calls: the entry of `app_index_foco` has the focus bit, and `app_id` is
larger than the ids in use until it wraps around. -/
structure Inv (t : Launcher) : Prop where
  ok : t.Ok
  foco : ∀ k, t.appIndexFoco = some k → k < t.appIndex ∧ (t.app k).focused
  fresh : t.appId = 0#64 ∨
    ∀ i < t.appIndex, (t.app i).running → (t.app i).id.toNat < t.appId.toNat

theorem Inv.start (entries : Nat) : Inv (start entries) := by
  have hrunning : ∀ i, ((Launcher.start entries).app i).running ≠ true := fun _ =>
    (by decide : App.running ⟨0#64, 0#64, 0#64⟩ ≠ true)
  have hfocused : ∀ i, ((Launcher.start entries).app i).focused ≠ true := fun _ =>
    (by decide : App.focused ⟨0#64, 0#64, 0#64⟩ ≠ true)
  refine ⟨⟨fun i _ h => absurd h (hrunning i), fun i _ _ _ h => absurd h (hrunning i),
    fun i _ h => absurd h (hfocused i)⟩, ?_, .inr fun i _ h => absurd h (hrunning i)⟩
  intro k h
  cases h

/-- The table with another entry that gets the focus. -/
theorem Inv.moveFocus (h : t.Inv) {a : App} (hrunning : a.running) (hfocused : a.focused)
    (hfoco : t.appIndexFoco ≠ some index) (hindex : index < t.appIndex) (hid : a.id ≠ 0#64)
    (hother : ∀ i < t.appIndex, i ≠ index → (t.app i).running → (t.app i).id ≠ a.id)
    (happ : t'.app = (appRemoveFoco { t with app := Function.update t.app index a }).app)
    (hcount : t'.appIndex = t.appIndex) (hmoved : t'.appIndexFoco = some index)
    (hfresh : t'.appId = 0#64 ∨ a.id.toNat < t'.appId.toNat ∧
      ∀ i < t.appIndex, i ≠ index → (t.app i).running → (t.app i).id.toNat < t'.appId.toNat) :
    t'.Inv := by
  replace happ := fun i => congrFun happ i ▸
    remove_foco_app { t with app := Function.update t.app index a } i
  have hself := happ index
  have hrest : ∀ i ≠ index, (t'.app i).id = (t.app i).id ∧
      (t'.app i).running = (t.app i).running ∧
      (t'.app i).focused = ((t.app i).focused && decide (t.appIndexFoco ≠ some i)) := fun i hi => by
    have hi' := happ i
    dsimp only at hi'
    rwa [Function.update_of_ne hi] at hi'
  dsimp only at hself
  rw [Function.update_self] at hself
  obtain ⟨hselfId, hselfRunning, hselfFocused⟩ := hself
  constructor
  · constructor
    · intro i hi hrun
      rcases eq_or_ne i index with rfl | hne
      · exact hselfId ▸ hid
      · rw [(hrest i hne).1]
        exact h.ok.nonzero i (hcount ▸ hi) ((hrest i hne).2.1 ▸ hrun)
    · intro i hi j hj hruni hrunj heq
      rcases eq_or_ne i index with rfl | hnei <;> rcases eq_or_ne j i with hji | hneji
      · exact hji.symm
      · rw [hselfId, (hrest j hneji).1] at heq
        exact absurd heq.symm (hother j (hcount ▸ hj) hneji ((hrest j hneji).2.1 ▸ hrunj))
      · exact hji.symm
      · rcases eq_or_ne j index with rfl | hnej
        · rw [hselfId, (hrest i hnei).1] at heq
          exact absurd heq (hother i (hcount ▸ hi) hnei ((hrest i hnei).2.1 ▸ hruni))
        · rw [(hrest i hnei).1, (hrest j hnej).1] at heq
          exact h.ok.distinct i (hcount ▸ hi) j (hcount ▸ hj) ((hrest i hnei).2.1 ▸ hruni)
            ((hrest j hnej).2.1 ▸ hrunj) heq
    · intro i hi hfocus
      rcases eq_or_ne i index with rfl | hne
      · exact ⟨hselfRunning.trans hrunning, hmoved⟩
      · -- no other entry keeps the focus bit
        rw [(hrest i hne).2.2, Bool.and_eq_true, decide_eq_true_eq] at hfocus
        exact absurd (h.ok.focus i (hcount ▸ hi) hfocus.1).2 hfocus.2
  · rintro k hk
    cases hmoved.symm.trans hk
    refine ⟨hcount ▸ hindex, hselfFocused.trans ?_⟩
    rw [hfocused, decide_eq_true hfoco]
    rfl
  · refine hfresh.imp_right fun ⟨hlt, hrestLt⟩ i hi hrun => ?_
    rcases eq_or_ne i index with rfl | hne
    · exact hselfId ▸ hlt
    · rw [(hrest i hne).1]
      exact hrestLt i (hcount ▸ hi) hne ((hrest i hne).2.1 ▸ hrun)

/-- The table with an entry that is cleared; another entry keeps the focus. -/
theorem Inv.clear (h : t.Inv) {a : App} (hrunning : ¬ a.running) (hfocused : ¬ a.focused)
    (hfoco : t.appIndexFoco ≠ some i) :
    Inv { t with app := Function.update t.app i a } := by
  have hcases : ∀ j, (Function.update t.app i a j).running →
      j ≠ i ∧ Function.update t.app i a j = t.app j := fun j hrun => by
    rcases eq_or_ne j i with rfl | hne
    · rw [Function.update_self] at hrun
      exact absurd hrun hrunning
    · exact ⟨hne, Function.update_of_ne hne ..⟩
  constructor
  · constructor
    · intro j hj hrun
      have hsame := (hcases j hrun).2
      dsimp only at hrun ⊢
      rw [hsame] at hrun ⊢
      exact h.ok.nonzero j hj hrun
    · intro j hj k hk hrunj hrunk heq
      have hsamej := (hcases j hrunj).2
      have hsamek := (hcases k hrunk).2
      dsimp only at hrunj hrunk heq
      rw [hsamej] at hrunj heq
      rw [hsamek] at hrunk heq
      exact h.ok.distinct j hj k hk hrunj hrunk heq
    · intro j hj hfocus
      dsimp only at hfocus ⊢
      rcases eq_or_ne j i with rfl | hne
      · rw [Function.update_self] at hfocus
        exact absurd hfocus hfocused
      · rw [Function.update_of_ne hne] at hfocus ⊢
        exact h.ok.focus j hj hfocus
  · intro k hk
    have hne : k ≠ i := fun hki => hfoco (hki ▸ hk)
    dsimp only
    rw [Function.update_of_ne hne]
    exact h.foco k hk
  · refine h.fresh.imp_right fun hlt j hj hrun => ?_
    have hsame := (hcases j hrun).2
    dsimp only at hrun ⊢
    rw [hsame] at hrun ⊢
    exact hlt j hj hrun

/-- Without the focus. -/
theorem Inv.removeFoco (h : t.Inv) : Inv (appRemoveFoco t) := by
  have happ := remove_foco_app t
  obtain ⟨hcount, hid, hnone⟩ := remove_foco_rest t
  generalize appRemoveFoco t = t' at happ hcount hid hnone ⊢
  constructor
  · constructor
    · intro j hj hrun
      rw [(happ j).1]
      exact h.ok.nonzero j (hcount ▸ hj) ((happ j).2.1 ▸ hrun)
    · intro j hj k hk hrunj hrunk heq
      rw [(happ j).1, (happ k).1] at heq
      exact h.ok.distinct j (hcount ▸ hj) k (hcount ▸ hk) ((happ j).2.1 ▸ hrunj)
        ((happ k).2.1 ▸ hrunk) heq
    · intro j hj hfocus
      rw [(happ j).2.2, Bool.and_eq_true, decide_eq_true_eq] at hfocus
      exact absurd (h.ok.focus j (hcount ▸ hj) hfocus.1).2 hfocus.2
  · intro k hk
    cases hnone.symm.trans hk
  · rw [hid]
    refine h.fresh.imp_right fun hlt j hj hrun => ?_
    rw [(happ j).1]
    exact hlt j (hcount ▸ hj) ((happ j).2.1 ▸ hrun)

theorem Inv.fixeRemove (h : t.Inv) (id : BitVec 64) : Inv (appFixeRemove id t) := by
  unfold appFixeRemove
  cases hfind : appFind id t with
  | none => exact h
  | some i =>
      have hi : i < t.appIndex := List.mem_range.mp (List.mem_of_find?_eq_some hfind)
      dsimp only
      by_cases hfocus : (t.app i).focused
      · obtain ⟨-, -, -, hrunning, hfocused⟩ := status_bits 0#64 0#64 ((appRemoveFoco t).app i).w
        rw [if_pos hfocus]
        refine h.removeFoco.clear (Bool.eq_false_iff.mp hrunning) (Bool.eq_false_iff.mp hfocused) ?_
        rw [(remove_foco_rest t).2.2]
        exact fun h => by cases h
      · obtain ⟨-, -, -, hrunning, hfocused⟩ := status_bits 0#64 0#64 (t.app i).w
        rw [if_neg hfocus]
        exact h.clear (Bool.eq_false_iff.mp hrunning) (Bool.eq_false_iff.mp hfocused)
          fun hfoco => hfocus (h.foco i hfoco).2

/-- `app_window_register` changes windows only. -/
theorem window_register_app (id window : BitVec 64) (t : Launcher) (i : Nat) :
    ((appWindowRegister id window t).app i).id = (t.app i).id ∧
      ((appWindowRegister id window t).app i).status = (t.app i).status := by
  unfold appWindowRegister
  cases appFind id t with
  | none => exact ⟨rfl, rfl⟩
  | some k =>
      rcases eq_or_ne i k with rfl | hne
      · dsimp only
        rw [Function.update_self]
        exact ⟨rfl, rfl⟩
      · dsimp only
        rw [Function.update_of_ne hne]
        exact ⟨rfl, rfl⟩

theorem window_register_rest (id window : BitVec 64) (t : Launcher) :
    (appWindowRegister id window t).appIndex = t.appIndex ∧
      (appWindowRegister id window t).appIndexFoco = t.appIndexFoco ∧
      (appWindowRegister id window t).appId = t.appId := by
  unfold appWindowRegister
  cases appFind id t with
  | none => exact ⟨rfl, rfl, rfl⟩
  | some k => exact ⟨rfl, rfl, rfl⟩

theorem Inv.windowRegister (h : t.Inv) (id window : BitVec 64) :
    Inv (appWindowRegister id window t) := by
  have happ := window_register_app id window t
  obtain ⟨hcount, hfoco, hid⟩ := window_register_rest id window t
  generalize appWindowRegister id window t = t' at happ hcount hfoco hid ⊢
  have hrunning : ∀ i, (t'.app i).running = (t.app i).running := fun i => by
    rw [App.running, App.running, (happ i).2]
  have hfocused : ∀ i, (t'.app i).focused = (t.app i).focused := fun i => by
    rw [App.focused, App.focused, (happ i).2]
  obtain ⟨⟨hnonzero, hdistinct, hfocus⟩, hkept, hfresh⟩ := h
  constructor
  · constructor
    · simpa only [hcount, hrunning, (happ _).1] using hnonzero
    · simpa only [hcount, hrunning, (happ _).1] using hdistinct
    · simpa only [hcount, hrunning, hfocused, hfoco] using hfocus
  · simpa only [hcount, hfocused, hfoco] using hkept
  · simpa only [hcount, hrunning, hid, (happ _).1] using hfresh

/-- A running entry that is executed gets the focus. -/
theorem Inv.executeRunning (h : t.Inv) (opens : Bool) (hindex : index < t.appIndex)
    (hrunning : (t.app index).running) :
    Inv (appExecute index opens t).2 ∧ (appExecute index opens t).1 = 0 := by
  by_cases hfocus : (t.app index).focused
  · have hexec : appExecute index opens t = (0, t) := by
      unfold appExecute
      dsimp only
      rw [if_pos hrunning, if_pos hfocus]
    rw [hexec]
    exact ⟨h, rfl⟩
  · obtain ⟨hkept, hset⟩ :=
      (status_bits (t.app index).id (t.app index).status (t.app index).w).1
    unfold appExecute
    dsimp only
    rw [if_pos hrunning, if_neg hfocus]
    refine ⟨?_, rfl⟩
    refine h.moveFocus (hkept.trans hrunning) hset (fun hfoco => hfocus (h.foco index hfoco).2)
      hindex (h.ok.nonzero index hindex hrunning)
      (fun i hi hne hrun heq => hne (h.ok.distinct i hi index hindex hrun hrunning heq)) rfl
      (remove_foco_rest _).1 rfl ?_
    dsimp only
    rw [(remove_foco_rest _).2.1]
    exact h.fresh.imp_right fun hlt => ⟨hlt index hindex hrunning, fun i hi _ => hlt i hi⟩

/-- The table behind the start of a program whose file is opened or not. -/
theorem execute_start (opens : Bool) (hrunning : ¬ (t.app index).running) :
    (appExecute index opens t).2.app = (appRemoveFoco { t with
        app := Function.update t.app index
          { t.app index with id := t.appId, status := (t.app index).status ||| 0x1#64 ||| 0x2#64 }
        }).app ∧
      (appExecute index opens t).2.appIndex = t.appIndex ∧
      (appExecute index opens t).2.appIndexFoco = some index ∧
      (opens → (appExecute index opens t).2.appId = t.appId + 1#64) ∧
      (appExecute index opens t).1 = if opens then 0 else -1 := by
  unfold appExecute
  dsimp only
  rw [if_neg hrunning]
  cases opens with
  | true =>
      exact ⟨rfl, (remove_foco_rest _).1, rfl,
        fun _ => congrArg (· + 1#64) (remove_foco_rest _).2.1, rfl⟩
  | false =>
      exact ⟨rfl, (remove_foco_rest _).1, rfl, fun hopens => absurd hopens Bool.false_ne_true, rfl⟩

/-- An entry without the running bit has not got the focus. -/
theorem Inv.foco_ne (h : t.Inv) (hindex : index < t.appIndex) (hrunning : ¬ (t.app index).running) :
    t.appIndexFoco ≠ some index := fun hfoco =>
  hrunning (h.ok.focus index hindex (h.foco index hfoco).2).1

/-- A program that starts gets an id that no running entry has. -/
theorem Inv.executeStart (h : t.Inv) (hindex : index < t.appIndex)
    (hrunning : ¬ (t.app index).running) (hid : t.appId ≠ 0#64) :
    Inv (appExecute index true t).2 := by
  obtain ⟨happ, hcount, hmoved, hnext, -⟩ := execute_start true hrunning
  obtain ⟨hrun, hfocused⟩ :=
    (status_bits t.appId (t.app index).status (t.app index).w).2.1
  have hlt := h.fresh.resolve_left hid
  refine h.moveFocus hrun hfocused (h.foco_ne hindex hrunning) hindex hid
    (fun i hi _ hruni heq => ?_) happ hcount hmoved ?_
  · have := hlt i hi hruni
    dsimp only at heq
    rw [heq] at this
    exact absurd this (Nat.lt_irrefl _)
  · rw [hnext rfl]
    by_cases hwrap : t.appId + 1#64 = 0#64
    · exact .inl hwrap
    · -- the counter is larger by one, since it has not wrapped around
      have hsucc : (t.appId + 1#64).toNat = t.appId.toNat + 1 := by
        have hne : (t.appId + 1#64).toNat ≠ 0 := fun h => hwrap (BitVec.eq_of_toNat_eq h)
        rw [BitVec.toNat_add] at hne ⊢
        have := t.appId.isLt
        change (t.appId.toNat + 1) % 2 ^ 64 ≠ 0 at hne
        change (t.appId.toNat + 1) % 2 ^ 64 = t.appId.toNat + 1
        omega
      refine .inr ⟨hsucc ▸ Nat.lt_succ_self _, fun i hi _ hruni => ?_⟩
      exact hsucc ▸ (hlt i hi hruni).trans (Nat.lt_succ_self _)

/-- A start that fails enters the program, and one with the id 0 breaks the order. -/
theorem Inv.not_law (h : t.Inv) {opens : Bool} (hindex : index < t.appIndex)
    (hrunning : ¬ (t.app index).running) (hbad : opens → t.appId = 0#64) :
    ¬ t.Law (.execute index opens) := by
  rintro ⟨hok, hsame⟩
  obtain ⟨happ, hcount, hmoved, -, hresult⟩ := execute_start opens hrunning
  cases opens with
  | false =>
      have heq := hsame index false rfl (by rw [hresult]; decide)
      rw [heq] at hmoved
      exact h.foco_ne hindex hrunning hmoved
  | true =>
      have hself := remove_foco_app { t with
        app := Function.update t.app index
          { t.app index with id := t.appId, status := (t.app index).status ||| 0x1#64 ||| 0x2#64 }
        } index
      rw [← happ] at hself
      dsimp only at hself
      rw [Function.update_self] at hself
      have hrun := (status_bits t.appId (t.app index).status (t.app index).w).2.1.1
      exact hok.nonzero index (hcount.symm ▸ hindex) (hself.2.1.trans hrun)
        (hself.1.trans (hbad rfl))

/-- A call meets the law exactly when it starts nothing or a program that can be opened. -/
theorem Inv.law_iff (h : t.Inv) (hvalid : t.Valid c) : t.Law c ↔ t.Good c := by
  cases c with
  | execute index opens =>
      by_cases hrunning : (t.app index).running
      · obtain ⟨hkept, hresult⟩ := h.executeRunning opens hvalid hrunning
        refine iff_of_true ⟨hkept.ok, fun i o hcall hne => ?_⟩ (.inl hrunning)
        cases hcall
        exact absurd hresult hne
      · constructor
        · intro hlaw
          by_contra hgood
          refine h.not_law hvalid hrunning (fun hopens => ?_) hlaw
          by_contra hid
          exact hgood (.inr ⟨hopens, hid⟩)
        · rintro (hrun | ⟨rfl, hid⟩)
          · exact absurd hrun hrunning
          · refine ⟨(h.executeStart hvalid hrunning hid).ok, fun i o hcall hne => ?_⟩
            cases hcall
            exact absurd (execute_start true hrunning).2.2.2.2 hne
  | remove id => exact iff_of_true ⟨(h.fixeRemove id).ok, fun _ _ hcall => by cases hcall⟩ trivial
  | register id window =>
      exact iff_of_true ⟨(h.windowRegister id window).ok, fun _ _ hcall => by cases hcall⟩ trivial

/-- A good call keeps the invariant. -/
theorem Inv.call (h : t.Inv) (hvalid : t.Valid c) (hgood : t.Good c) : (t.call c).Inv := by
  cases c with
  | execute index opens =>
      by_cases hrunning : (t.app index).running
      · exact (h.executeRunning opens hvalid hrunning).1
      · obtain ⟨rfl, hid⟩ := hgood.resolve_left hrunning
        exact h.executeStart hvalid hrunning hid
  | remove id => exact h.fixeRemove id
  | register id window => exact h.windowRegister id window

/-- In a run whose starts open their programs the table stays in order, and the next call keeps it
so exactly when it does the same. -/
theorem launcher_table_iff {entries : Nat} (h : Run Step Good (Launcher.start entries) t) :
    t.Ok ∧ ∀ c, t.Valid c → (t.Law c ↔ t.Good c) := by
  have hinv : t.Inv := h.invariant Inv (Inv.start entries) fun s c s' hs hgood hstep => by
    obtain ⟨hvalid, rfl⟩ := hstep
    exact hs.call hvalid hgood
  exact ⟨hinv.ok, fun _ hvalid => hinv.law_iff hvalid⟩

/-- A program is started, and then the next entry. -/
theorem launcher_table_iff_started :
    ((Launcher.start 2).call (.execute 0 true)).Law (.execute 1 true) :=
  ((launcher_table_iff (Run.refl.snoc (LauncherCall.execute 0 true)
    (.inr ⟨rfl, by decide⟩) ⟨by change 0 < 2; decide, rfl⟩)).2 (.execute 1 true)
      (by change 1 < 2; decide)).mpr (.inr ⟨rfl, by decide⟩)

/-- The file of entry 0 cannot be opened; it is entered as program 1 with both bits, and so is the
program that is started next. -/
theorem failed_start_takes_id :
    ¬ (Launcher.start 2).Law (.execute 0 false) ∧
      ¬ ((Launcher.start 2).call (.execute 0 false)).Law (.execute 1 true) := by
  constructor
  · rintro ⟨-, hsame⟩
    have heq := congrArg Launcher.appIndexFoco (hsame 0 false rfl (by decide))
    exact absurd heq (by decide)
  · rintro ⟨hok, -⟩
    exact absurd (hok.distinct 0 (by decide) 1 (by decide) (by decide) (by decide) (by decide))
      (by decide)

end Launcher

end Sirius.Gui
