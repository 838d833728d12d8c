import Mathlib.Logic.Relation
import Mathlib.Tactic

/-!
# Outcomes and machines that reach them

An `Outcome` is what a definition of a language gives: a result, an error of the program, or
nothing that is known (the fuel is used up, or the language leaves the result open). A machine
takes steps until it halts, fails or overflows. `Leads step s o` says that the machine started in
`s` comes to what `o` tells, unless it overflows on the way. `Leads.bind` follows a computation
that is the composition of two, so a simulation proof never splits on errors.
-/

namespace Sirius.Library

universe u

/-- What a computation comes to. -/
inductive Outcome (α : Type*)
  | ok (a : α)
  | error
  | unknown
  deriving DecidableEq

namespace Outcome

variable {α β γ : Type*}

/-- The second computation goes on with the result of the first one. -/
def bind : (o : Outcome α) → (f : α → Outcome β) → Outcome β
  | .ok a, f => f a
  | .error, _ => .error
  | .unknown, _ => .unknown

/-- The outcome with another result. -/
def map (f : α → β) : Outcome α → Outcome β
  | .ok a => .ok (f a)
  | .error => .error
  | .unknown => .unknown

instance : Monad Outcome where
  pure := .ok
  bind := bind

@[simp] theorem bind_eq {α β : Type u} (o : Outcome α) (f : α → Outcome β) :
    (o >>= f) = o.bind f := rfl

@[simp] theorem pure_eq {α : Type u} (a : α) : (pure a : Outcome α) = .ok a := rfl

@[simp] theorem ok_bind (a : α) (f : α → Outcome β) : (Outcome.ok a).bind f = f a := rfl

@[simp] theorem error_bind (f : α → Outcome β) : (Outcome.error).bind f = .error := rfl

@[simp] theorem unknown_bind (f : α → Outcome β) : (Outcome.unknown).bind f = .unknown := rfl

@[simp] theorem map_ok (f : α → β) (a : α) : (Outcome.ok a).map f = .ok (f a) := rfl

@[simp] theorem map_error (f : α → β) : (Outcome.error).map f = .error := rfl

@[simp] theorem map_unknown (f : α → β) : (Outcome.unknown).map f = .unknown := rfl

theorem bind_assoc (o : Outcome α) (f : α → Outcome β) (g : β → Outcome γ) :
    (o.bind f).bind g = o.bind fun a => (f a).bind g := by
  cases o <;> rfl

theorem map_bind (o : Outcome α) (f : α → Outcome β) (g : β → γ) :
    (o.bind f).map g = o.bind fun a => (f a).map g := by
  cases o <;> rfl

theorem bind_map (o : Outcome α) (f : α → β) (g : β → Outcome γ) :
    (o.map f).bind g = o.bind fun a => g (f a) := by
  cases o <;> rfl

theorem map_map (o : Outcome α) (f : α → β) (g : β → γ) :
    (o.map f).map g = o.map fun a => g (f a) := by
  cases o <;> rfl

/-- What a composition gives, both parts gave. -/
theorem bind_eq_ok {o : Outcome α} {f : α → Outcome β} {b : β} (h : o.bind f = .ok b) :
    ∃ a, o = .ok a ∧ f a = .ok b := by
  cases o with
  | ok a => exact ⟨a, rfl, h⟩
  | error => cases h
  | unknown => cases h

theorem map_eq_ok {o : Outcome α} {f : α → β} {b : β} (h : o.map f = .ok b) :
    ∃ a, o = .ok a ∧ f a = b := by
  cases o with
  | ok a => exact ⟨a, rfl, Outcome.ok.inj h⟩
  | error => cases h
  | unknown => cases h

end Outcome

/-- What a machine does next. -/
inductive Next (σ : Type*)
  | go (s : σ)
  | halt
  | fail
  | overflow
  | unknown
  deriving DecidableEq

/-- The next step of a machine whose operation has an outcome. -/
def Next.ofOutcome {σ : Type*} : Outcome σ → Next σ
  | .ok s => .go s
  | .error => .fail
  | .unknown => .unknown

section Machine

variable {σ α : Type*} {step : σ → Next σ} {s t u : σ} {o : Outcome σ}

/-- The machine comes from `s` to `t`. -/
def Reaches (step : σ → Next σ) : σ → σ → Prop :=
  Relation.ReflTransGen fun s t => step s = .go t

/-- The machine comes to a state whose next step is `n`. -/
def Ends (step : σ → Next σ) (s : σ) (n : Next σ) : Prop := ∃ t, Reaches step s t ∧ step t = n

/-- The machine comes to what the outcome tells, unless it overflows. -/
def Leads (step : σ → Next σ) (s : σ) : Outcome σ → Prop
  | .ok t => Reaches step s t ∨ Ends step s .overflow
  | .error => Ends step s .fail ∨ Ends step s .overflow
  | .unknown => True

theorem Reaches.refl : Reaches step s s := Relation.ReflTransGen.refl

theorem Reaches.trans (h : Reaches step s t) (h' : Reaches step t u) : Reaches step s u :=
  Relation.ReflTransGen.trans h h'

theorem Reaches.single (h : step s = .go t) : Reaches step s t := Relation.ReflTransGen.single h

theorem Reaches.ends {n : Next σ} (h : Reaches step s t) (h' : Ends step t n) : Ends step s n :=
  let ⟨u, hu, hn⟩ := h'
  ⟨u, h.trans hu, hn⟩

/-- A run that overflows leads to everything. -/
theorem Leads.of_overflow (h : Ends step s .overflow) : ∀ o, Leads step s o
  | .ok _ => .inr h
  | .error => .inr h
  | .unknown => trivial

theorem Leads.refl : Leads step s (.ok s) := .inl .refl

/-- What happens after some steps, happens. -/
theorem Reaches.leads (h : Reaches step s t) (h' : Leads step t o) : Leads step s o := by
  cases o with
  | ok u => exact h'.imp h.trans h.ends
  | error => exact h'.imp h.ends h.ends
  | unknown => trivial

theorem Leads.of_go (h : step s = .go t) (h' : Leads step t o) : Leads step s o :=
  (Reaches.single h).leads h'

/-- One step whose operation has the outcome. -/
theorem Leads.of_step (h : step s = .ofOutcome o) : Leads step s o := by
  cases o with
  | ok t => exact .inl (.single h)
  | error => exact .inl ⟨s, .refl, h⟩
  | unknown => trivial

/-- A step that overflows. -/
theorem Leads.overflow (h : step s = .overflow) : Leads step s o :=
  .of_overflow ⟨s, .refl, h⟩ o

/-- Two computations after each other: the machine that follows the first one to a state which
leads to the second one follows the composition. -/
theorem Leads.bind {x : Outcome α} {f : α → σ} {g : α → Outcome σ} (h : Leads step s (x.map f))
    (hnext : ∀ a, x = .ok a → Leads step (f a) (g a)) : Leads step s (x.bind g) := by
  cases x with
  | ok a =>
      rcases h with h | h
      · exact h.leads (hnext a rfl)
      · exact .of_overflow h _
  | error => exact h
  | unknown => trivial

/-- What comes after a result. -/
theorem Leads.trans (h : Leads step s (.ok t)) (h' : Leads step t o) : Leads step s o :=
  h.elim (fun hreach => hreach.leads h') fun hover => .of_overflow hover o

/-- A computation and some more steps. -/
theorem Leads.reaches {x : Outcome α} {f g : α → σ} (h : Leads step s (x.map f))
    (hnext : ∀ a, x = .ok a → Reaches step (f a) (g a)) : Leads step s (x.map g) := by
  have hbind := h.bind fun a ha => (hnext a ha).leads Leads.refl
  cases x <;> exact hbind

/-- As `Leads.bind`, for an outcome that names the states. -/
theorem Leads.bind_ok {x : Outcome α} {f g : α → Outcome σ} (h : Leads step s (x.bind f))
    (hnext : ∀ a t, x = .ok a → f a = .ok t → Leads step t (g a))
    (hopen : ∀ a, x = .ok a → (∃ t, f a = .ok t) ∨ g a = .unknown) :
    Leads step s (x.bind g) := by
  cases x with
  | ok a =>
      rcases hopen a rfl with ⟨t, ht⟩ | hg
      · rw [Outcome.ok_bind, ht] at h
        rcases h with h | h
        · exact h.leads (hnext a t rfl ht)
        · exact .of_overflow h _
      · rw [Outcome.ok_bind, hg]
        trivial
  | error => exact h
  | unknown => trivial

end Machine

end Sirius.Library
