import Resumable.Proofs.Execution

/-!
# Runs of functions

A run is a number of steps, one after the other.

* `Program.Steps.trans`: runs can be put together.
* `Program.steps_of_after`, `Program.finishes_of_outcome`: runs that were computed are runs.
-/

namespace Resumable

open Job

variable {L : Language} {c : Config L} {n : Nat} {r : List (Called L.Value) × Option L.Value}

namespace Program

/-! ## Runs -/

/-- A number of steps leads from one state to another. -/
inductive Steps (p : Program) (env : Environment L) : Nat → Config L → Config L → Prop
  | refl (c : Config L) : Steps p env 0 c c
  | step {n : Nat} {c c₁ c₂ : Config L} (h : p.step env c = some (.goes c₁))
      (hs : Steps p env n c₁ c₂) : Steps p env (n + 1) c c₂

/-- A function comes to its end with some calls and some result. -/
def Finishes (p : Program) (env : Environment L) (c : Config L)
    (r : List (Called L.Value) × Option L.Value) : Prop :=
  ∃ n d, p.Steps env n c d ∧ p.step env d = some (.ends r.1 r.2)

variable {p : Program} {env : Environment L}

theorem Steps.one {c' : Config L} (h : p.step env c = some (.goes c')) : p.Steps env 1 c c' :=
  .step h (.refl c')

theorem Steps.trans {m : Nat} {c₁ c₂ : Config L} (h : p.Steps env m c c₁)
    (h' : p.Steps env n c₁ c₂) :
    p.Steps env (n + m) c c₂ := by
  induction h with
  | refl => exact h'
  | step hs _ ih => exact .step hs (ih h')

/-- What a run ends with is not changed by the steps before it. -/
theorem Finishes.of_steps {d : Config L} (h : p.Steps env n c d) (hr : p.Finishes env d r) :
    p.Finishes env c r := by
  obtain ⟨m, e, hm, he⟩ := hr
  exact ⟨m + n, e, h.trans hm, he⟩

/-! ## Runs that can be computed -/

/-- The state after a number of steps. -/
def after (p : Program) (env : Environment L) : Nat → Config L → Option (Config L)
  | 0, c => some c
  | n + 1, c =>
    match p.step env c with
    | some (.goes d) => after p env n d
    | _ => none

theorem steps_of_after {d : Config L} (h : p.after env n c = some d) : p.Steps env n c d := by
  induction n generalizing c with
  | zero =>
    cases h
    exact .refl _
  | succ n ih =>
    rw [after] at h
    split at h
    · next e he => exact .step he (ih h)
    · cases h

/-- What the function has called and returned, if it ends after so many steps. -/
def outcome (p : Program) (env : Environment L) :
    Nat → Config L → Option (List (Called L.Value) × Option L.Value)
  | 0, _ => none
  | n + 1, c =>
    match p.step env c with
    | some (.goes d) => outcome p env n d
    | some (.ends calls x) => some (calls, x)
    | none => none

theorem finishes_of_outcome (h : p.outcome env n c = some r) : p.Finishes env c r := by
  induction n generalizing c with
  | zero => cases h
  | succ n ih =>
    rw [outcome] at h
    split at h
    · next d hd => exact (ih h).of_steps (.one hd)
    · next calls x hend =>
      cases h
      exact ⟨0, c, .refl c, hend⟩
    · cases h

end Program

/-- Numbers as values, a memory that holds nothing, and functions that do nothing. -/
def Sample.numbers : Language where
  Value := Int
  World := Unit
  literal s := if s = "0" then some 0 else none
  truth x := x ≠ 0
  apply _ _ _ := none
  convert _ x := some x
  field _ _ := none
  setField _ _ _ := none
  member _ _ := none
  element _ _ := none
  home v := (v : Int)
  load _ _ := none
  store _ _ _ := none
  call _ _ _ := some ((0 : Int), ())

instance : DecidableEq Sample.numbers.Value := inferInstanceAs (DecidableEq Int)

/-- All arguments are seven, all variables are five at the beginning, and no wait is long. -/
def Sample.environment : Environment Sample.numbers where
  outside _ := (7 : Int)
  garbage _ _ := (5 : Int)
  waiting _ := false

end Resumable
