import Resumable.Log
import Resumable.Tree

/-!
# Steps that end well

A step that does not fail is taken apart into the steps that it consists of. A step that fails in no
state is put together from such steps.

* `Step.bind_inv`: what two steps have done that end well together.
* `Step.Gives`: steps that never fail, with what they give.
-/

namespace Resumable.Step

variable {σ α β : Type} {s : Step σ α} {f : α → Step σ β} {P : α → Prop} {Q : β → Prop}

/-- Two steps that end well together do so one after the other. -/
theorem bind_inv {x : Step σ α} {f : α → Step σ β} {b : β} {s s' : σ}
    (h : (x >>= f) s = .ok b s') : ∃ a s₁, x s = .ok a s₁ ∧ f a s₁ = .ok b s' := by
  change EStateM.bind x f s = .ok b s' at h
  unfold EStateM.bind at h
  cases hx : x s with
  | ok a s₁ =>
    rw [hx] at h
    exact ⟨a, s₁, rfl, h⟩
  | error e s₁ =>
    rw [hx] at h
    cases h

theorem lift_inv {x : Except Fault α} {a : α} {s s' : σ} (h : (liftM x : Step σ α) s = .ok a s') :
    x = .ok a ∧ s' = s := by
  cases x with
  | ok b =>
    cases h
    exact ⟨rfl, rfl⟩
  | error e => cases h

def ended : EStateM.Result Fault σ α → Bool
  | .ok _ _ => true
  | .error _ _ => false

theorem exists_of_ended {r : EStateM.Result Fault σ α} (h : ended r = true) :
    ∃ a x, r = .ok a x := by
  cases r with
  | ok a x => exact ⟨a, x, rfl⟩
  | error e x => cases h

/-- A step ends well in every state, and gives something with a property. -/
def Gives (s : Step σ α) (P : α → Prop) : Prop := ∀ x, ∃ a x', s x = .ok a x' ∧ P a

theorem Gives.pure {a : α} (h : P a) : Gives (pure a : Step σ α) P := fun x => ⟨a, x, rfl, h⟩

theorem Gives.bind (h : Gives s P) (hf : ∀ a, P a → Gives (f a) Q) : Gives (s >>= f) Q := by
  intro x
  obtain ⟨a, x', hs, ha⟩ := h x
  obtain ⟨b, x'', hb, hQ⟩ := hf a ha x'
  refine ⟨b, x'', ?_, hQ⟩
  change EStateM.bind s f x = _
  rw [EStateM.bind, hs]
  exact hb

theorem newNode_gives [HasLog σ] (k : Kind) (o : Origin) :
    Gives (newNode k o : Step σ Node) fun n => ∃ id, n = .blank id k o :=
  fun _ => ⟨_, _, rfl, _, rfl⟩

end Resumable.Step
