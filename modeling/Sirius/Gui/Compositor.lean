import Sirius.Library.Cells
import Mathlib.Logic.Function.Basic

/-!
# The paint list of the compositor

`window_add`, `window_remove` and `window_foco` of `kernel/gui/compositor.c`. The windows on the
screen are the cells behind a dummy head, linked with `next`, in the order in which they are
painted. Memory that holds no `PAINT` is `none`; a read through the null pointer is not a fault in
the kernel, it finds what lies at address 0. The loops are cut off after `n` steps. The two
spinlocks are taken and released within each call and are left out, as are the fields of the
window record itself, of which `window_add` writes `gid`.
-/

namespace Sirius.Gui

open Library

/-- `PAINT`. The cell belongs to the window at address `w`. -/
structure Paint where
  w : Nat
  next : Nat
  deriving DecidableEq, Repr

/-- The globals of `compositor.c`. -/
structure Compositor where
  heap : Nat → Option Paint
  paintReadyQueue : Nat
  paintFoco : Nat
  windowCount : Nat
  gid : Nat

/-- Write one cell. -/
def setPaint (heap : Nat → Option Paint) (p : Nat) (c : Paint) : Nat → Option Paint :=
  Function.update heap p (some c)

/-- The start of `compose`: the dummy head at the address `paint`. -/
def compose (paint gid : Nat) : Compositor :=
  ⟨setPaint (fun _ => none) paint ⟨0, 0⟩, paint, 0, 0, gid⟩

/-- `window_add`, with the address `new` that `malloc` returns. -/
def windowAdd (n new addr : Nat) (s : Compositor) : Option Compositor := do
  let tmp ← search Paint.next s.heap (fun c => c.w == addr) n s.paintReadyQueue
  if tmp ≠ 0 then pure s
  else
    let heap := setPaint s.heap new ⟨addr, 0⟩
    let tmp ← search Paint.next heap (fun c => c.next == 0) n s.paintReadyQueue
    let c ← heap tmp
    pure { s with
      heap := setPaint heap tmp { c with next := new }
      paintFoco := new
      windowCount := s.windowCount + 1
      gid := s.gid + 1 }

/-- The cell at `p`, where `low` is what a read through the null pointer finds. -/
def cellAt (low : Paint) (heap : Nat → Option Paint) (p : Nat) : Option Paint :=
  if p = 0 then some low else heap p

/-- `window_remove`. The loop looks at the cell behind `tmp`, also when there is none. -/
def windowRemove (n : Nat) (low : Paint) (addr : Nat) (s : Compositor) : Option Compositor :=
  if s.windowCount < 1 then some s
  else do
    let tmp ← search Paint.next s.heap
      (fun c => (cellAt low s.heap c.next).any fun next => next.w == addr) n s.paintReadyQueue
    if tmp = 0 then pure s
    else
      let c ← s.heap tmp
      let save := c.next
      let next ← cellAt low s.heap save
      let heap := setPaint s.heap tmp { c with next := next.next }
      pure { s with
        heap := if save = 0 then heap else Function.update heap save none
        paintFoco := if s.paintFoco = save then 0 else s.paintFoco
        windowCount := s.windowCount - 1 }

/-- The loop of `window_foco`: the cell before the window's cell, and that cell or 0. -/
def focoLoop (heap : Nat → Option Paint) (addr : Nat) : (n pre tmp : Nat) → Option (Nat × Nat)
  | 0, pre, tmp => if tmp = 0 then some (pre, 0) else none
  | n + 1, pre, tmp =>
      if tmp = 0 then some (pre, 0)
      else match heap tmp with
        | none => none
        | some c => if c.w = addr then some (pre, tmp) else focoLoop heap addr n tmp c.next

/-- `window_foco` -/
def windowFoco (n addr : Nat) (s : Compositor) : Option Compositor := do
  let (pre, tmp) ← focoLoop s.heap addr n s.paintReadyQueue s.paintReadyQueue
  if tmp = 0 then pure s
  else
    let c ← s.heap tmp
    if c.next = 0 then pure { s with paintFoco := tmp }
    else
      let p ← s.heap pre
      let heap := setPaint s.heap pre { p with next := c.next }
      let c ← heap tmp
      let heap := setPaint heap tmp { c with next := 0 }
      let pre ← search Paint.next heap (fun c => c.next == 0) n s.paintReadyQueue
      let p ← heap pre
      pure { s with heap := setPaint heap pre { p with next := tmp }, paintFoco := tmp }

end Sirius.Gui
