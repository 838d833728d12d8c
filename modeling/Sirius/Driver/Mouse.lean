import Mathlib.Tactic
import Sirius.Library.Runs

/-!
# Mouse packets

`mouse_handler` and `mouse_refresh` of `kernel/driver/ps2/mouse.c`. A packet of three bytes is
handled in three interrupts; the last one moves the cursor. The test of the overflow bits lets a
packet with an overflow in y pass, and the border of the screen is taken for a place on it.
-/

namespace Sirius.Driver

open Library

/-- `horizontal_resolution` and `vertical_resolution` of `gui`. -/
structure Screen where
  (horizontalResolution verticalResolution : Nat)

/-- The variables of the handler, with the fields `x`, `y` and `b` of `mouse`. -/
structure Mouse where
  countMouse : Nat
  buttons : BitVec 8
  (mouseX mouseY x y : Int)
  b : BitVec 8

/-- `(int) val`, with the bits above set when `negative`. -/
def delta (negative : Bool) (val : BitVec 8) : Int :=
  if negative then (val.setWidth 32 ||| 0xffffff00#32).toInt else (val.setWidth 32).toInt

/-- One coordinate of `mouse_refresh`, at most the resolution `limit`. -/
def clampTo (limit : Nat) (v : Int) : Int := if v < 0 then 0 else if v > limit then limit else v

/-- `mouse_refresh` -/
def mouseRefresh (gui : Screen) (mouse : Mouse) : Mouse :=
  { mouse with
    x := clampTo gui.horizontalResolution (mouse.x + mouse.mouseX)
    y := clampTo gui.verticalResolution (mouse.y - mouse.mouseY)
    b := mouse.buttons }

/-- `mouse_handler` with the byte `val` of the port. -/
def mouseHandler (gui : Screen) (val : BitVec 8) (mouse : Mouse) : Mouse :=
  match mouse.countMouse with
  | 0 => { mouse with countMouse := 1, buttons := val }
  | 1 => { mouse with countMouse := 2, mouseX := delta (mouse.buttons &&& 0x10#8 ≠ 0#8) val }
  | 2 =>
      let mouse := { mouse with mouseY := delta (mouse.buttons &&& 0x20#8 ≠ 0#8) val }
      let mouse :=
        if mouse.buttons &&& 0x80#8 ≠ 0#8 ∨ mouse.buttons &&& 0x40#8 = 0#8 then
          mouseRefresh gui mouse
        else mouse
      { mouse with countMouse := 0 }
  | _ => { mouse with countMouse := 0 }

/-- What `mouse_install` sets. The count lets the handler drop one byte. -/
def mouseInstall (gui : Screen) : Mouse where
  countMouse := 4
  buttons := 0#8
  mouseX := 0
  mouseY := 0
  x := gui.horizontalResolution / 2
  y := gui.verticalResolution / 2
  b := 0#8

/-! ### Packets -/

/-- A packet: the flags and the low bytes of the two deltas. -/
structure MousePacket where
  (flags dx dy : BitVec 8)

namespace MousePacket

/-- The sign-extended 9-bit deltas. -/
def deltaX (p : MousePacket) : Int :=
  if p.flags.getLsbD 4 then (p.dx.toNat : Int) - 256 else p.dx.toNat

def deltaY (p : MousePacket) : Int :=
  if p.flags.getLsbD 5 then (p.dy.toNat : Int) - 256 else p.dy.toNat

def overflowX (p : MousePacket) : Bool := p.flags.getLsbD 6

def overflowY (p : MousePacket) : Bool := p.flags.getLsbD 7

/-- The three interrupts of a packet. -/
def handle (gui : Screen) (p : MousePacket) (mouse : Mouse) : Mouse :=
  mouseHandler gui p.dy (mouseHandler gui p.dx (mouseHandler gui p.flags mouse))

/-- A packet is handled after the other. -/
def Step (gui : Screen) (mouse : Mouse) (p : MousePacket) (mouse' : Mouse) : Prop :=
  mouse' = p.handle gui mouse

/-- The cursor is on the screen. -/
def OnScreen (gui : Screen) (mouse : Mouse) : Prop :=
  (0 ≤ mouse.x ∧ mouse.x < gui.horizontalResolution) ∧
    0 ≤ mouse.y ∧ mouse.y < gui.verticalResolution

/-- A packet moves the cursor by its deltas, within the screen; y counts from the top. A packet with
an overflow moves nothing. -/
def Law (gui : Screen) (mouse : Mouse) (p : MousePacket) : Prop :=
  OnScreen gui (p.handle gui mouse) ∧
    if p.overflowX ∨ p.overflowY then
      (p.handle gui mouse).x = mouse.x ∧ (p.handle gui mouse).y = mouse.y
    else
      (p.handle gui mouse).x = max 0 (min (mouse.x + p.deltaX) (gui.horizontalResolution - 1)) ∧
        (p.handle gui mouse).y = max 0 (min (mouse.y - p.deltaY) (gui.verticalResolution - 1))

/-- The moved cursor stays left of the right and above the lower border; with an overflow in y the
move has no effect. -/
def InBounds (gui : Screen) (mouse : Mouse) (p : MousePacket) : Prop :=
  if p.overflowY then
    (p.deltaX = 0 ∨ mouse.x = 0 ∧ p.deltaX < 0) ∧ (p.deltaY = 0 ∨ mouse.y = 0 ∧ 0 < p.deltaY)
  else
    p.overflowX ∨
      mouse.x + p.deltaX < gui.horizontalResolution ∧
        mouse.y - p.deltaY < gui.verticalResolution

end MousePacket

variable {gui : Screen} {mouse mouse' : Mouse} {p : MousePacket}

/-! ### The bytes of a packet -/

theorem sign_flags (flags : BitVec 8) :
    decide (flags &&& 0x10#8 ≠ 0#8) = flags.getLsbD 4 ∧
      decide (flags &&& 0x20#8 ≠ 0#8) = flags.getLsbD 5 := by
  revert flags
  decide

theorem overflow_flags (flags : BitVec 8) :
    (flags &&& 0x80#8 ≠ 0#8 ∨ flags &&& 0x40#8 = 0#8) ↔
      (flags.getLsbD 7 ∨ ¬ flags.getLsbD 6) := by
  revert flags
  decide

theorem delta_eq (negative : Bool) (val : BitVec 8) :
    delta negative val = if negative then (val.toNat : Int) - 256 else val.toNat := by
  revert negative val
  decide

/-- What a packet does to the cursor. -/
theorem packet_handle (hcount : mouse.countMouse = 0) :
    (p.handle gui mouse).countMouse = 0 ∧
      ((p.handle gui mouse).x, (p.handle gui mouse).y) =
        if p.overflowY ∨ ¬ p.overflowX then
          (clampTo gui.horizontalResolution (mouse.x + p.deltaX),
            clampTo gui.verticalResolution (mouse.y - p.deltaY))
        else (mouse.x, mouse.y) := by
  obtain ⟨count, buttons, mouseX, mouseY, x, y, b⟩ := mouse
  obtain rfl : count = 0 := hcount
  obtain ⟨hsignX, hsignY⟩ := sign_flags p.flags
  have htest : (p.flags &&& 0x80#8 ≠ 0#8 ∨ p.flags &&& 0x40#8 = 0#8) ↔
      (p.overflowY ∨ ¬ p.overflowX) := overflow_flags p.flags
  have hdeltaX : delta (p.flags &&& 0x10#8 ≠ 0#8) p.dx = p.deltaX := by
    rw [delta_eq, hsignX]
    rfl
  have hdeltaY : delta (p.flags &&& 0x20#8 ≠ 0#8) p.dy = p.deltaY := by
    rw [delta_eq, hsignY]
    rfl
  unfold MousePacket.handle mouseHandler
  simp only [hdeltaX, hdeltaY, htest]
  by_cases hrefresh : p.overflowY ∨ ¬ p.overflowX
  · rw [if_pos hrefresh, if_pos hrefresh]
    exact ⟨trivial, rfl⟩
  · rw [if_neg hrefresh, if_neg hrefresh]
    exact ⟨trivial, rfl⟩

theorem clamp_to_eq (limit : Nat) (v : Int) : clampTo limit v = max 0 (min v limit) := by
  unfold clampTo
  split_ifs <;> omega

/-- A packet keeps the law exactly when it stays in bounds. -/
theorem packet_law_iff (hcount : mouse.countMouse = 0) (hscreen : MousePacket.OnScreen gui mouse) :
    p.Law gui mouse ↔ p.InBounds gui mouse := by
  have hmoved := (@packet_handle gui mouse p hcount).2
  rw [clamp_to_eq, clamp_to_eq] at hmoved
  unfold MousePacket.OnScreen at hscreen
  unfold MousePacket.Law MousePacket.InBounds MousePacket.OnScreen
  by_cases hoverY : p.overflowY
  · rw [if_pos (.inl hoverY), Prod.mk.injEq] at hmoved
    rw [if_pos (.inr hoverY), if_pos hoverY, hmoved.1, hmoved.2]
    omega
  · by_cases hoverX : p.overflowX
    · rw [if_neg (by simp [hoverX, hoverY]), Prod.mk.injEq] at hmoved
      rw [if_pos (.inl hoverX), if_neg hoverY, hmoved.1, hmoved.2]
      exact iff_of_true ⟨hscreen, rfl, rfl⟩ (.inl hoverX)
    · rw [if_pos (.inr hoverX), Prod.mk.injEq] at hmoved
      rw [if_neg (not_or.mpr ⟨hoverX, hoverY⟩), if_neg hoverY, hmoved.1, hmoved.2,
        or_iff_right hoverX]
      omega

/-! ### Runs -/

/-- Between two packets on the screen. -/
structure Ready (gui : Screen) (mouse : Mouse) : Prop where
  atPacket : mouse.countMouse = 0
  onScreen : MousePacket.OnScreen gui mouse

/-- The byte that the handler drops after the installation. -/
theorem ready_after_install (ack : BitVec 8) (hx : 0 < gui.horizontalResolution)
    (hy : 0 < gui.verticalResolution) : Ready gui (mouseHandler gui ack (mouseInstall gui)) := by
  refine ⟨rfl, ?_⟩
  show (0 ≤ ((gui.horizontalResolution : Int) / 2) ∧
    ((gui.horizontalResolution : Int) / 2) < gui.horizontalResolution) ∧
    0 ≤ ((gui.verticalResolution : Int) / 2) ∧
    ((gui.verticalResolution : Int) / 2) < gui.verticalResolution
  omega

/-- The first two bytes of a packet do not move the cursor. -/
theorem Ready.between (h : Ready gui mouse) (p : MousePacket) :
    MousePacket.OnScreen gui (mouseHandler gui p.flags mouse) ∧
      MousePacket.OnScreen gui (mouseHandler gui p.dx (mouseHandler gui p.flags mouse)) := by
  obtain ⟨hcount, hscreen⟩ := h
  obtain ⟨count, buttons, mouseX, mouseY, x, y, b⟩ := mouse
  obtain rfl : count = 0 := hcount
  exact ⟨hscreen, hscreen⟩

/-- After packets in bounds the cursor is on the screen, also between the bytes of the next packet,
and that packet keeps the law exactly when it is in bounds. -/
theorem mouse_packets_iff {ack : BitVec 8} (hx : 0 < gui.horizontalResolution)
    (hy : 0 < gui.verticalResolution)
    (hrun : Run (MousePacket.Step gui) (fun mouse p => p.InBounds gui mouse)
      (mouseHandler gui ack (mouseInstall gui)) mouse) :
    MousePacket.OnScreen gui mouse ∧ ∀ p : MousePacket,
      (MousePacket.OnScreen gui (mouseHandler gui p.flags mouse) ∧
        MousePacket.OnScreen gui (mouseHandler gui p.dx (mouseHandler gui p.flags mouse))) ∧
      (p.Law gui mouse ↔ p.InBounds gui mouse) := by
  have hready : Ready gui mouse := by
    refine hrun.invariant (Ready gui) (ready_after_install ack hx hy)
      fun mouse p mouse' hready hin hstep => ?_
    rw [hstep]
    exact ⟨(packet_handle hready.atPacket).1,
      ((packet_law_iff hready.atPacket hready.onScreen).mpr hin).1⟩
  exact ⟨hready.onScreen, fun p =>
    ⟨hready.between p, packet_law_iff hready.atPacket hready.onScreen⟩⟩

/-- From the middle of the screen, a move to the left and a move down. -/
theorem mouse_packets_iff_two :
    MousePacket.Law ⟨1024, 768⟩
      (MousePacket.handle ⟨1024, 768⟩ ⟨0x18#8, 0xfb#8, 0#8⟩
        (mouseHandler ⟨1024, 768⟩ 0xfa#8 (mouseInstall ⟨1024, 768⟩))) ⟨0x28#8, 0#8, 0xf0#8⟩ := by
  have hin : MousePacket.InBounds ⟨1024, 768⟩
      (mouseHandler ⟨1024, 768⟩ 0xfa#8 (mouseInstall ⟨1024, 768⟩)) ⟨0x18#8, 0xfb#8, 0#8⟩ := by
    unfold MousePacket.InBounds
    decide
  refine ((mouse_packets_iff (by decide) (by decide) (Run.refl.snoc _ hin rfl)).2 _).2.mpr ?_
  unfold MousePacket.InBounds
  decide

/-- A packet with an overflow in y moves the cursor; a packet moves it onto the right border. -/
theorem overflow_moves_cursor :
    ¬ MousePacket.Law ⟨1024, 768⟩ (mouseHandler ⟨1024, 768⟩ 0xfa#8 (mouseInstall ⟨1024, 768⟩))
        ⟨0x88#8, 5#8, 0#8⟩ ∧
      ¬ MousePacket.Law ⟨100, 768⟩ (mouseHandler ⟨100, 768⟩ 0xfa#8 (mouseInstall ⟨100, 768⟩))
        ⟨0x08#8, 60#8, 0#8⟩ := by
  constructor
  · intro h
    have hin := (packet_law_iff rfl (ready_after_install 0xfa#8 (by decide) (by decide)).2).mp h
    unfold MousePacket.InBounds at hin
    exact absurd hin (by decide)
  · intro h
    have hin := (packet_law_iff rfl (ready_after_install 0xfa#8 (by decide) (by decide)).2).mp h
    unfold MousePacket.InBounds at hin
    exact absurd hin (by decide)

end Sirius.Driver
