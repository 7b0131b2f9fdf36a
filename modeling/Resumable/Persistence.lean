import Resumable.Fault
import Resumable.IdMap

/-!
# Variables that outlive a state

A function that is cut into states loses its local variables between two states. While the
function is walked, this module finds the variables whose value is needed again in a later state:
those that are used in another state than the one they are declared in, and those that are used in
a loop in which the state changes.
-/

namespace Resumable

/-- What is known about the local variables of a function at some point of the walk. -/
structure Persistence where
  declared : List (NodeId × Int) := []
  /-- The variables that outlive a state, in the order in which they were found. -/
  kept : List NodeId := []
  /-- The loops around the current point, innermost first: the state in which each began and the
  variables used in it. -/
  loops : List (Int × List NodeId) := []
deriving Repr, DecidableEq, Inhabited

namespace Persistence

def adjoin (xs : List NodeId) (x : NodeId) : List NodeId := if x ∈ xs then xs else xs ++ [x]

def declare (p : Persistence) (v : NodeId) (state : Int) : Except Fault Persistence :=
  if (p.declared.lookup v).isSome then .error .declaredTwice
  else .ok { p with declared := p.declared ++ [(v, state)] }

def use (p : Persistence) (v : Option NodeId) (state : Int) : Persistence :=
  match v with
  | none => p
  | some v =>
    match p.declared.lookup v with
    | none => p
    | some start =>
      if v ∈ p.kept then p
      else if start ≠ state then { p with kept := p.kept ++ [v] }
      else
        match p.loops with
        | [] => p
        | (s, used) :: outer => { p with loops := (s, adjoin used v) :: outer }

def beginLoop (p : Persistence) (state : Int) : Persistence :=
  { p with loops := (state, []) :: p.loops }

/-- A loop ends. If the state changed in it, what was used in it or in a loop around it is kept. -/
def endLoop (p : Persistence) (state : Int) : Except Fault Persistence :=
  match p.loops with
  | [] => .error .outOfRange
  | (start, _) :: outer =>
    let used := if start = state then [] else p.loops.reverse.flatMap (·.2)
    .ok { p with kept := used.foldl adjoin p.kept, loops := outer }

/-! ## Names -/

/-- The first name out of `base` followed by `i + 1`, `i + 2` and so on that is not taken, with
its number. With more steps than taken names, one is found. -/
def freeName (taken : List (Option String)) (base : String) : (steps i : Nat) → String × Nat
  | 0, i => (base ++ toString i, i)
  | steps + 1, i =>
    let name := base ++ toString (i + 1)
    if some name ∈ taken then freeName taken base steps (i + 1) else (name, i + 1)

/-- Gives the kept variables different names: a name that is taken already gets a number. Names
that were chosen before a fault stay in force, so they come with it. -/
def distinct (names : List (NodeId × Option String)) :
    List (NodeId × Option String) × Option Fault :=
  go [] 0 names
where
  /-- Walks the variables, with the names taken so far and the last number used. -/
  go (taken : List (Option String)) (i : Nat) :
      List (NodeId × Option String) → List (NodeId × Option String) × Option Fault
    | [] => ([], none)
    | (v, name) :: rest =>
      if name ∈ taken then
        match name with
        | none => ((v, name) :: rest, some .notText)
        | some base =>
          let (fresh, i) := freeName taken base (taken.length + 1) i
          let (later, fault) := go (taken ++ [some fresh]) i rest
          ((v, some fresh) :: later, fault)
      else
        let (later, fault) := go (taken ++ [name]) i rest
        ((v, name) :: later, fault)

end Persistence

end Resumable
