import Resumable.Graph

/-!
# Trees of a graph

A node of a graph with what is below it is a tree, unless it stands below itself. Steps that work
on trees load them from the graph and store the result: nodes that were put into a new place get
a new parent, and all other ones keep theirs.
-/

namespace Resumable.Graph

/-! ## Loading -/

def treeWithin (g : Graph) : (levels : Nat) → NodeId → Option Tree
  | 0, _ => none
  | levels + 1, id => do
    let c ← g.vertices.get? id
    let children ← c.children.mapM fun (r, x) => do return (r, ← g.treeWithin levels x)
    return .mk c.node children

/-- Whether a node stands below itself, seen from a node with the path to it. -/
def cyclic (g : Graph) : (levels : Nat) → (path : List NodeId) → NodeId → Bool
  | 0, _, _ => true
  | levels + 1, path, id =>
    if id ∈ path then true
    else
      match g.vertices.get? id with
      | none => false
      | some c => c.children.any fun (_, x) => g.cyclic levels (id :: path) x

/-- The tree below a node. There is none if a node stands below itself. -/
def tree? (g : Graph) (id : NodeId) : Option Tree :=
  let levels := g.log.nextId + 1
  if g.cyclic levels [] id then none else g.treeWithin levels id

/-- The tree below a node, which must not stand below itself. -/
def tree (id : NodeId) : Build Tree := do
  match (← get).tree? id with
  | some t => return t
  | none => throw .tooDeep

def trees (g : Graph) : IdMap Tree :=
  (List.range g.log.nextId).foldl (fun m id =>
    match g.tree? id with
    | some t => m.insert id t
    | none => m) .empty

/-! ## Looking up -/

/-- The nodes above a node, nearest first, as far as some number of steps. -/
def ancestors (g : Graph) : (steps : Nat) → NodeId → List Node
  | 0, _ => []
  | steps + 1, id =>
    match (g.vertices.get? id).bind fun c => c.parent with
    | none => []
    | some p =>
      match g.vertices.get? p with
      | none => []
      | some c => c.node :: g.ancestors steps p

def surroundings (g : Graph) (id : NodeId) : Surroundings :=
  (g.ancestors g.log.nextId id).foldr (fun n e => e.enter n) {}

def inside (g : Graph) (id : NodeId) : Surroundings :=
  match g.vertices.get? id with
  | some c => (g.surroundings id).enter c.node
  | none => g.surroundings id

def rooted (g : Graph) (id : NodeId) : Bool :=
  (g.ancestors (g.log.nextId + 1) id).length ≤ g.log.nextId

def scopeOwner (id : NodeId) (k : ScopeKind) : Build (Option NodeId) := do
  let g ← get
  match (g.inside id).owner? k with
  | some owner => return some owner
  | none => if g.rooted id then return none else throw .tooDeep

/-! ## Storing -/

def slotsOf (t : Tree) : List (Role × List NodeId) :=
  t.kind.slots.map fun s => (s.role, (t.inRole s.role).map (·.id))

def storeNode (g : Graph) (t : Tree) : Graph :=
  let parent := (g.vertices.get? t.id).bind fun c => c.parent
  { g with vertices := g.vertices.insert t.id ⟨t.node, parent, slotsOf t⟩ }

/-- Gives the children of a tree that are new in their places their parent. -/
def adoptChildren (before g : Graph) (t : Tree) : Graph :=
  t.children.foldl (fun g (r, c) =>
    let old := ((before.vertices.get? t.id).map fun vertex => vertex.held r).getD []
    if c.id ∈ old then g
    else
      match g.vertices.get? c.id with
      | none => g
      | some v => { g with vertices := g.vertices.insert c.id { v with parent := some t.id } }) g

def store (g : Graph) (t : Tree) : Graph :=
  let stored := t.subtrees.foldl storeNode g
  t.subtrees.foldl (adoptChildren g) stored

/-- Empties the places of a node that hold what was put under another one. -/
def disown (g : Graph) (id : NodeId) : Graph :=
  match g.vertices.get? id with
  | none => g
  | some c =>
    let own (x : NodeId) : Bool := ((g.vertices.get? x).bind fun c => c.parent) == some id
    let slots := c.slots.map fun (r, xs) => (r, xs.filter own)
    { g with vertices := g.vertices.insert id { c with slots := slots } }

end Resumable.Graph
