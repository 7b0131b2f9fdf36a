import Resumable.Machine
import Resumable.Resolution

/-!
# Trees under construction

While a tree is put together by hand, nodes exist before they have a place, places are filled and
emptied again, and a node may stand in several places or below itself. A graph holds such nodes by
their numbers. Each node knows the one that it was put under last, and each place knows what it
holds.
-/

namespace Resumable

/-- A value that is known before the program runs. -/
inductive StaticValue where
  | whole (i : Int)
  | truth (b : Bool)
deriving Repr, DecidableEq, Inhabited

/-- A node with its surroundings in a graph. -/
structure Vertex where
  node : Node
  parent : Option NodeId := none
  slots : List (Role × List NodeId) := []
deriving Repr, Inhabited

/-- Nodes under construction, with what is known about them. -/
structure Graph where
  log : Log := {}
  vertices : IdMap Vertex := .empty
  scopes : IdMap Scope := .empty
  status : IdMap Status := .empty
  types : IdMap NodeId := .empty
  values : IdMap StaticValue := .empty
  machines : IdMap Machines := .empty
deriving Inhabited

instance : HasLog Graph := ⟨(·.log), fun g l => { g with log := l }⟩

abbrev Build := Step Graph

namespace Vertex

def held (c : Vertex) (r : Role) : List NodeId := (c.slots.lookup r).getD []

def setHeld (c : Vertex) (r : Role) (ids : List NodeId) : Vertex :=
  { c with slots := Node.assign r ids c.slots }

def children (c : Vertex) : List (Role × NodeId) :=
  c.node.kind.slots.flatMap fun s => (c.held s.role).map (s.role, ·)

end Vertex

namespace Graph

/-! ## Cells -/

def vertex (id : NodeId) : Build Vertex := do
  match (← get).vertices.get? id with
  | some c => return c
  | none => throw .noMember

def node (id : NodeId) : Build Node := return (← vertex id).node

def setVertex (id : NodeId) (c : Vertex) : Build Unit :=
  modify fun g => { g with vertices := g.vertices.insert id c }

def change (id : NodeId) (f : Node → Node) : Build Unit := do
  let c ← vertex id
  setVertex id { c with node := f c.node }

def setParent (id parent : NodeId) : Build Unit := do
  setVertex id { ← vertex id with parent := some parent }

def make (kind : Kind) (origin : Origin) (f : Node → Node) : Build NodeId := do
  let n ← newNode kind origin
  setVertex n.id { node := f n }
  return n.id

/-- Makes a type without a place. The names of structures and pointers tell what they are. -/
def makeType (kind : Kind) (origin : Origin) (name : Option String) : Build NodeId := do
  match kind, name with
  | .structDecl, none | .pointerDecl, none => throw .notText
  | .structDecl, some s => make kind origin (·.named ("struct " ++ s))
  | .pointerDecl, some s => make kind origin (·.named (s ++ "*"))
  | _, name => make kind origin (·.setText .name name)

def parent (id : NodeId) : Build NodeId := do
  match (← vertex id).parent with
  | some p => return p
  | none => throw .orphan

/-! ## Places -/

def single (id : NodeId) (r : Role) : Build Slot := do
  match (← node id).kind.slot? r with
  | some s => if s.arity = .many then throw .noMember else return s
  | none => throw .noMember

def several (id : NodeId) (r : Role) : Build Slot := do
  match (← node id).kind.slot? r with
  | some s => if s.arity = .many then return s else throw .noMember
  | none => throw .noMember

def held (id : NodeId) (r : Role) : Build (List NodeId) := return (← vertex id).held r

def setHeld (id : NodeId) (r : Role) (ids : List NodeId) : Build Unit := do
  setVertex id ((← vertex id).setHeld r ids)

def checkFit (s : Slot) (x : Option NodeId) : Build NodeId := do
  match x with
  | none => throw .wrongKind
  | some x => if (← node x).kind.isA s.allowed then return x else throw .wrongKind

/-! ### One node -/

def fill (id : NodeId) (r : Role) (x : Option NodeId) : Build Unit := do
  let x ← checkFit (← single id r) x
  unless (← held id r).isEmpty do throw .filledSlot
  setParent x id
  setHeld id r [x]

def clear (id : NodeId) (r : Role) : Build (Option NodeId) := do
  let _ ← single id r
  let before ← held id r
  setHeld id r []
  return before.head?

/-- Empties a place and fills it again; gives what it held. -/
def refill (id : NodeId) (r : Role) (x : Option NodeId) : Build (Option NodeId) := do
  let before ← clear id r
  fill id r x
  return before

def content (id : NodeId) (r : Role) : Build (Option NodeId) := do
  let s ← single id r
  match (← held id r).head?, s.arity with
  | none, .optional => return none
  | none, _ => throw .emptySlot
  | some x, _ => return some x

def isEmpty (id : NodeId) (r : Role) : Build Bool := do
  let s ← single id r
  if s.arity = .optional then return (← held id r).isEmpty else throw .requiredSlot

/-- Whether a place takes nodes of exactly a kind and those that refine it. -/
def takes (id : NodeId) (r : Role) (k : Kind) : Build Bool :=
  return (← single id r).allowed == k

/-! ### Any number of nodes -/

/-- The position that an index means; negative ones count from the end. -/
def position (size : Nat) (i : Int) : Option Nat :=
  let k := if i < 0 then i + size else i
  if 0 ≤ k ∧ k < size then some k.toNat else none

/-- The position at which something is inserted; indexes beyond the ends mean the ends. -/
def insertPosition (size : Nat) (i : Int) : Nat :=
  let k := if i < 0 then max (i + size) 0 else i
  min k.toNat size

def all (id : NodeId) (r : Role) : Build (List NodeId) := do
  let _ ← several id r
  held id r

def listed (id : NodeId) (r : Role) : Build (List NodeId) := do
  match (← node id).kind.slot? r with
  | none => throw .noMember
  | some s => if s.arity = .many then held id r else throw .notText

def insert (id : NodeId) (r : Role) (i : Int) (x : Option NodeId) : Build Unit := do
  let x ← checkFit (← several id r) x
  setParent x id
  let xs ← held id r
  let k := insertPosition xs.length i
  setHeld id r (xs.take k ++ x :: xs.drop k)

def push (id : NodeId) (r : Role) (x : Option NodeId) : Build Unit := do
  insert id r (← held id r).length x

/-- Puts nodes at the end of a list, up to the first that does not fit. -/
def pushAll (id : NodeId) (r : Role) (xs : List (Option NodeId)) : Build Unit := do
  let _ ← several id r
  for x in xs do push id r x

def nodeAt (id : NodeId) (r : Role) (i : Int) : Build NodeId := do
  let xs ← all id r
  match (position xs.length i).bind (xs[·]?) with
  | some x => return x
  | none => throw .outOfRange

def remove (id : NodeId) (r : Role) (i : Int) : Build NodeId := do
  let xs ← all id r
  match position xs.length i with
  | none => throw .outOfRange
  | some k =>
    let x ← nodeAt id r i
    setHeld id r (xs.eraseIdx k)
    return x

/-- Takes a node out of a list and inserts another one at the same index. -/
def replace (id : NodeId) (r : Role) (i : Int) (x : Option NodeId) : Build NodeId := do
  let _ ← checkFit (← several id r) x
  let before ← remove id r i
  insert id r i x
  return before

def split (id : NodeId) (r : Role) (i : Int) : Build (List NodeId) := do
  let xs ← all id r
  unless 0 ≤ i ∧ i ≤ xs.length do throw .badSplit
  setHeld id r (xs.take i.toNat)
  return xs.drop i.toNat

end Graph

end Resumable
