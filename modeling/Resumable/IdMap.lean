/-!
# Maps keyed by node numbers

Nodes are numbered from zero without gaps, so a map from nodes is an array with room for every
number.
-/

namespace Resumable

abbrev NodeId := Nat

/-- A finite map from node numbers. -/
structure IdMap (α : Type) where
  slots : Array (Option α) := #[]
deriving Inhabited, Repr

namespace IdMap

variable {α : Type}

def empty : IdMap α := {}

def get? (m : IdMap α) (id : NodeId) : Option α := (m.slots[id]?).join

def reserve (m : IdMap α) (id : NodeId) : IdMap α :=
  if id < m.slots.size then m
  else ⟨m.slots ++ Array.replicate (id + 1 - m.slots.size) none⟩

def insert (m : IdMap α) (id : NodeId) (a : α) : IdMap α :=
  ⟨(m.reserve id).slots.setIfInBounds id (some a)⟩

def erase (m : IdMap α) (id : NodeId) : IdMap α := ⟨m.slots.setIfInBounds id none⟩

def toList (m : IdMap α) : List (NodeId × α) :=
  m.slots.toList.zipIdx.filterMap fun (a, id) => a.map (id, ·)

def contains (m : IdMap α) (id : NodeId) : Bool := (m.get? id).isSome

/-! ## Laws -/

theorem get?_reserve (m : IdMap α) (i j : NodeId) : (m.reserve i).get? j = m.get? j := by
  unfold reserve get?
  split
  · rfl
  · by_cases h : j < m.slots.size
    · rw [Array.getElem?_append_left h]
    · rw [Array.getElem?_append_right (Nat.le_of_not_lt h)]
      rw [Array.getElem?_eq_none (Nat.le_of_not_lt h)]
      rw [Array.getElem?_replicate]
      split <;> rfl

theorem lt_size_reserve (m : IdMap α) (i : Nat) : i < (m.reserve i).slots.size := by
  unfold reserve
  split
  · assumption
  · rw [Array.size_append, Array.size_replicate]
    omega

/-- A new entry is found, and the other ones stay. -/
theorem get?_insert (m : IdMap α) (i j : NodeId) (a : α) :
    (m.insert i a).get? j = if i = j then some a else m.get? j := by
  rw [← get?_reserve m i j]
  unfold insert get?
  rw [Array.getElem?_setIfInBounds]
  by_cases h : i = j
  · subst h
    rw [if_pos rfl, if_pos (lt_size_reserve m i), if_pos rfl]
    rfl
  · rw [if_neg h, if_neg h]

end IdMap

end Resumable
