import Resumable.Resolution.Settle

/-!
# Questions about a resolved program

Once a program is resolved, one can ask which type a name stands for, which types can be cast to
each other, and which declaration a call with arguments of some types means. Types are given by
name; stars behind the name make pointer types, which come into being when they are asked for.
-/

namespace Resumable.Query

def splitStars (name : String) : String × Nat :=
  let cs := name.toList.reverse
  (String.ofList (cs.dropWhile (· == '*')).reverse, (cs.takeWhile (· == '*')).length)

def pointerLevels : Nat → NodeId → Resolve NodeId
  | 0, type => return type
  | n + 1, type => do
    let p ← Resolve.pointerTo type
    let steps := 2 * (← get).index.slots.size + 2
    pointerLevels n (← Resolve.demand (Resolve.visitLater steps) p)

def typeNamed (root : NodeId) (name : String) : Resolve (Option NodeId) := do
  let (base, stars) := splitStars name
  match ← Resolve.lookupType { root := some root } (some base), stars with
  | none, 0 => return none
  | none, _ + 1 => throw .noMember
  | some t, stars => return some (← pointerLevels stars t)

/-- A number that no node has. It stands for a type that is not known. -/
def nowhere : Resolve NodeId := return (← get).log.nextId

def typesNamed (root : NodeId) (names : List String) : Resolve (List NodeId) := do
  let types ← names.mapM (typeNamed root)
  let missing ← nowhere
  return types.map (·.getD missing)

def typeShown (root : NodeId) (name : String) : Resolve (Option String) := do
  match ← typeNamed root name with
  | none => return none
  | some t => return some (← Resolve.typeName t)

def pointed (root : NodeId) (name : String) : Resolve String := do
  let types ← typesNamed root [name]
  let target ← types.mapM (Resolve.pointedBy .none)
  match target with
  | [t] => Resolve.typeName t
  | _ => throw .noMember

/-- The declarations of a function or an operator of the program, if the name is known. -/
def declared (root : NodeId) (table : Table) (name : String) : Resolve (Option (List NodeId)) := do
  match (← Resolve.scope root).all table (some name) with
  | [] => return none
  | ds => return some ds

def members (type : NodeId) (name : String) : Resolve (Option (List NodeId)) := do
  match (← Resolve.typeScope type).all .operators (some name) with
  | [] => return none
  | ds => return some ds

def scores (candidates args : List NodeId) : Resolve (List (Option Nat)) :=
  candidates.mapM fun c => do Resolve.score (← Resolve.tree c) args

/-- The declaration that is meant, by its position, and the type of its value. -/
def meant (candidates args : List NodeId) : Resolve (Nat × String) := do
  let d ← Resolve.choose .none args candidates
  let type ← Resolve.typeOf (← Resolve.tree d).node
  return (candidates.findIdx (· == d), ← Resolve.typeName type)

end Resumable.Query
