import Resumable.Log
import Resumable.Tree.Schema

/-!
# Syntax trees

A tree is a node together with its children, each under the role that it plays. Nodes have
numbers; links between nodes that are not parent and child go by these numbers, so a tree is a
plain inductive type even where the program that it stands for has cycles.
-/

namespace Resumable

/-! ## Nodes -/

/-- A field of a message that is described by a manifest. -/
structure Field where
  name : Option String
  type : String
deriving Repr, DecidableEq, Inhabited

/-- A node without its children. -/
structure Node where
  id : NodeId
  kind : Kind
  origin : Origin := .none
  texts : List (TextKey × Option String) := []
  links : List (LinkKey × Option NodeId) := []
  flags : List (FlagKey × Bool) := []
  numbers : List (NumberKey × Option Int) := []
  fields : List Field := []
  nameSpot : Option Spot := none
  barred : Bool := false
deriving Repr, DecidableEq, Inhabited

namespace Node

/-- Sets an entry of an association list; a new key goes to the end. -/
def assign {κ α : Type} [DecidableEq κ] (k : κ) (a : α) : List (κ × α) → List (κ × α)
  | [] => [(k, a)]
  | (k', a') :: rest => if k' = k then (k, a) :: rest else (k', a') :: assign k a rest

/-- A new node with the attributes that its kind gives it. -/
def blank (id : NodeId) (kind : Kind) (origin : Origin) : Node where
  id := id
  kind := kind
  origin := origin
  texts := kind.texts.map (·, none)
  links := kind.links.map (·, none)
  flags := kind.flags.map (·, false)
  numbers := kind.numbers

def setText (n : Node) (k : TextKey) (s : Option String) : Node :=
  { n with texts := assign k s n.texts }

def setLink (n : Node) (k : LinkKey) (target : Option NodeId) : Node :=
  { n with links := assign k target n.links }

def setFlag (n : Node) (k : FlagKey) (b : Bool) : Node := { n with flags := assign k b n.flags }

def setNumber (n : Node) (k : NumberKey) (i : Option Int) : Node :=
  { n with numbers := assign k i n.numbers }

def named (n : Node) (s : String) : Node := n.setText .name (some s)

/-- A text attribute. It may be unset, and a node may lack it. -/
def text (n : Node) (k : TextKey) : Except Fault (Option String) :=
  match n.texts.lookup k with
  | some s => .ok s
  | none => .error .noMember

def name? (n : Node) : Option String := (n.texts.lookup .name).join

def link? (n : Node) (k : LinkKey) : Option NodeId := (n.links.lookup k).join

def flag (n : Node) (k : FlagKey) : Bool := (n.flags.lookup k).getD false

def number? (n : Node) (k : NumberKey) : Option Int := (n.numbers.lookup k).join

end Node

/-! ## Trees -/

/-- A syntax tree: a node and its children, each with its role. -/
inductive Tree where
  | mk (node : Node) (children : List (Role × Tree))
deriving Repr, Inhabited

abbrev Children := List (Role × Tree)

namespace Tree

def node : Tree → Node
  | mk n _ => n

def children : Tree → List (Role × Tree)
  | mk _ cs => cs

def id (t : Tree) : NodeId := t.node.id

def kind (t : Tree) : Kind := t.node.kind

def origin (t : Tree) : Origin := t.node.origin

def inRole (t : Tree) (r : Role) : List Tree :=
  t.children.filterMap fun (r', c) => if r' = r then some c else none

def child? (t : Tree) (r : Role) : Option Tree := t.children.lookup r

def child (t : Tree) (r : Role) : Except Fault Tree :=
  match t.child? r with
  | some c => .ok c
  | none => .error .emptySlot

def mapNode (f : Node → Node) : Tree → Tree
  | mk n cs => mk (f n) cs

def ids : Tree → List NodeId
  | mk n cs => n.id :: go cs
where
  go : List (Role × Tree) → List NodeId
    | [] => []
    | (_, t) :: rest => t.ids ++ go rest

def subtrees : Tree → List Tree
  | mk n cs => mk n cs :: go cs
where
  go : List (Role × Tree) → List Tree
    | [] => []
    | (_, t) :: rest => t.subtrees ++ go rest

mutual

/-- The numbers of all nodes are those of all subtrees. -/
theorem map_id_subtrees : (t : Tree) → t.subtrees.map id = t.ids
  | mk n cs => by
    rw [subtrees, ids, List.map_cons, map_id_subtrees_go cs]
    rfl

theorem map_id_subtrees_go : (cs : List (Role × Tree)) → (subtrees.go cs).map id = ids.go cs
  | [] => rfl
  | (_, t) :: rest => by
    rw [subtrees.go, ids.go, List.map_append, map_id_subtrees t, map_id_subtrees_go rest]

end

def depth : Tree → Nat
  | mk _ cs => go cs + 1
where
  go : List (Role × Tree) → Nat
    | [] => 0
    | (_, t) :: rest => max t.depth (go rest)

def mapNodes (f : Node → Node) : Tree → Tree
  | mk n cs => mk (f n) (go cs)
where
  go : List (Role × Tree) → List (Role × Tree)
    | [] => []
    | (r, t) :: rest => (r, t.mapNodes f) :: go rest

/-! ## Text form -/

def shown : Option String → String
  | some s => s
  | none => "None"

/-- One line for a node: its title, its links and its texts, each in the order of their names. -/
def outlineOf (n : Node) : String :=
  let links := (n.links.map fun (k, target) => (k.title, target)).mergeSort
    fun a b => decide (a.1 ≤ b.1)
  let texts := (n.texts.map fun (k, s) => (k.title, s)).mergeSort fun a b => decide (a.1 ≤ b.1)
  let linkText := links.map fun (k, target) =>
    match target with
    | some id => s!" {k}>#{id}"
    | none => s!" <{k}>"
  let textText := texts.map fun (k, s) =>
    let s := shown s
    s!" {k}='{s}'"
  n.kind.title ++ String.join linkText ++ String.join textText

def dump (t : Tree) : Except Fault (List String) := go "" t
where
  go (indent : String) : Tree → Except Fault (List String)
    | mk n cs => do
      if n.barred then throw .forbiddenAttribute
      let rest ← goAll (indent ++ "+-") cs
      return (indent ++ outlineOf n) :: rest
  goAll (indent : String) : List (Role × Tree) → Except Fault (List String)
    | [] => return []
    | (_, t) :: rest => do
      let here ← go indent t
      let there ← goAll indent rest
      return here ++ there

/-! ## Flow of control -/

/-- Whether control never reaches the end of a statement: it is a `return`, or a list with such a
statement, or both branches of an `if` are such lists. -/
def closed : Tree → Except Fault Bool
  | mk n cs =>
    let parts := go cs
    match n.kind with
    | .returnStatement => .ok true
    | .statementList => some? parts
    | .ifElse =>
      match parts.lookup .elseBranch with
      | none => .ok false
      | some other => do
        match parts.lookup .thenBranch with
        | none => throw .emptySlot
        | some first => if ← first then other else return false
    | _ => .ok false
where
  go : List (Role × Tree) → List (Role × Except Fault Bool)
    | [] => []
    | (r, t) :: rest => (r, t.closed) :: go rest
  /-- Whether some answer is yes; the first fault counts if it comes before. -/
  some? : List (Role × Except Fault Bool) → Except Fault Bool
    | [] => .ok false
    | (_, a) :: rest => do if ← a then return true else some? rest

/-! ## Changing children -/

def mapRole (r : Role) (f : Tree → Tree) : Tree → Tree
  | mk n cs => mk n (cs.map fun (r', c) => if r' = r then (r', f c) else (r', c))

/-- Puts a child before the one at a position, or behind all of them. -/
def insertAt (t : Tree) (i : Nat) (r : Role) (c : Tree) : Tree :=
  mk t.node (t.children.take i ++ (r, c) :: t.children.drop i)

end Tree

def IdMap.addTree (m : IdMap Tree) (t : Tree) : IdMap Tree :=
  t.subtrees.foldl (fun m s => m.insert s.id s) m

/-! ## Making nodes -/

instance {σ : Type} : MonadLift (Except Fault) (Step σ) where
  monadLift
    | .ok a => pure a
    | .error e => throw e

section

variable {σ : Type} [HasLog σ]

def newNode (kind : Kind) (origin : Origin) : Step σ Node :=
  return .blank (← freshId) kind origin

/-- Notes that no visitor of some name can treat a kind of node. -/
def unsupportedKind {α : Type} (visitor : String) (kind : Kind) : Step σ α := do
  print s!"Node   : {kind.title}"
  print s!"Visitor: {visitor}"
  throw .unsupported

end

end Resumable
