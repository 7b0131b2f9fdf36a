import Resumable.Construction.Types
import Resumable.Cutting.Program
import Resumable.Graph.Trees
import Resumable.Printing.Program
import Resumable.Resolution.Settle
import Resumable.Tree.Accounting

/-!
# Steps of the compiler on a graph

Resolution, cutting and printing work on trees. Here they are applied to the trees of a graph, and
their results are stored in it, also when they fail on the way.
-/

namespace Resumable.Graph

/-! ## Resolution -/

/-- Sets how far the resolution of a declaration has come. A type that it had is kept. -/
def setStatus (id : NodeId) (s : Status) : Build Unit :=
  modify fun g =>
    let s := match s, g.status.get? id with
      | .done none, some (.done type) => .done type
      | s, _ => s
    { g with status := g.status.insert id s }

def resolution (g : Graph) : Resolution where
  log := g.log
  index := g.trees
  scopes := g.scopes
  places := (List.range g.log.nextId).foldl (fun m id => m.insert id (g.surroundings id)) .empty
  status := g.status
  types := g.types

def mapVertex (g : Graph) (id : NodeId) (f : Vertex → Vertex) : Graph :=
  match g.vertices.get? id with
  | some c => { g with vertices := g.vertices.insert id (f c) }
  | none => g

def addPointer (g : Graph) (type : NodeId) (p : Tree) : Graph :=
  let g := g.store p
  let g := g.mapVertex p.id fun c => { c with parent := some type }
  g.mapVertex type fun c => c.setHeld .pointer [p.id]

def addCast (g : Graph) (expression : NodeId) (c : Cast) : Graph :=
  match g.vertices.get? expression with
  | none => g
  | some e =>
    let n := (Node.blank c.id .trivialCast e.node.origin).setLink .castType (some c.type)
    let around : Vertex := ⟨n, e.parent, [(.expression, [expression])]⟩
    let g := { g with vertices := g.vertices.insert c.id around }
    let g := g.mapVertex expression fun e => { e with parent := some c.id }
    match e.parent with
    | none => g
    | some p => g.mapVertex p fun holder =>
        { holder with
          slots := holder.slots.map fun (r, xs) =>
            (r, xs.map fun x => if x = expression then c.id else x) }

def absorb (g : Graph) (r : Resolution) : Graph :=
  let g :=
    { g with log := r.log, scopes := r.scopes, status := r.status, types := r.types }
  let g := r.pointers.foldl (fun g (type, p) => g.addPointer type p) g
  let g := r.links.toList.foldl (fun g (id, target) =>
    g.mapVertex id fun c =>
      { c with node := c.node.setLink c.node.kind.mainLink (some target) }) g
  r.casts.toList.foldl (fun g (id, c) => g.addCast id c) g

def resolving {α : Type} (s : Resolve α) : Build α := fun g =>
  match s g.resolution with
  | .ok a r => .ok a (g.absorb r)
  | .error f r => .error f (g.absorb r)

def resolve (id : NodeId) : Build Unit := do
  let t ← tree id
  let env := (← get).surroundings id
  let _ ← resolving (Resolve.run env t)

def typeOf (id : NodeId) : Build (Option NodeId) := do
  let n ← node id
  resolving (Resolve.typeOf? n)

def setType (id : NodeId) (type : Option NodeId) : Build Unit := do
  let n ← node id
  unless n.kind.declares || n.kind.isA .expression || n.kind.isA .typeRef do throw .noMember
  match type with
  | none => throw .badType
  | some type =>
    resolving do
      if n.kind.declares then Resolve.finish id type
      else if n.kind.isA .expression then Resolve.setType id type
      else Resolve.setReference n type

/-- Begins the resolution of a declaration, unless it has begun before. -/
def beginResolution (id : NodeId) : Build Bool := do
  if (← node id).kind.declares then resolving (Resolve.begin id) else throw .noMember

/-- The type that a `return` gives, where one without a value gives nothing. -/
def returnedType (id : NodeId) (nothing : Option NodeId) : Build (Option NodeId) := do
  unless (← node id).kind = .returnStatement do throw .noMember
  match ← content id .expression with
  | some e => typeOf e
  | none => return nothing

/-! ## Casts and overloads -/

/-- Whether a type, or the rule of a type, casts from another one. -/
def canCast (target source : NodeId) : Build Bool := do
  if (← node target).kind = .castRule then
    match ← content target .sourceType with
    | some s => return (← typeOf s) == some source
    | none => throw .emptySlot
  else resolving (Resolve.canCast target source)

def insertCast (target source args : NodeId) (i : Int) : Build Unit := do
  let t ← node target
  unless t.kind = .castRule || t.kind.isA .typeDecl do throw .noMember
  let e ← nodeAt args .arguments i
  if t.kind = .castRule then
    unless ← canCast target source do throw .noCast
    match ← content target .targetType with
    | none => throw .emptySlot
    | some ref =>
      match ← typeOf ref with
      | none => throw .badType
      | some type =>
        let id ← freshId
        modify fun g => g.addCast e ⟨id, type⟩
  else
    let e ← tree e
    resolving (Resolve.insertCast target source e)

/-- The number of casts that a call needs, if it accepts the arguments. -/
def score (callable : NodeId) (args : List NodeId) : Build (Option Nat) := do
  unless (← node callable).kind.isA .callableDecl do throw .noMember
  resolving do Resolve.score (← Resolve.tree callable) args

/-- Makes the arguments of a call fit a declaration, and gives the number of casts. -/
def matchArguments (callable : NodeId) (types : List NodeId) (args : NodeId) :
    Build (Option Nat) := do
  unless (← node callable).kind.isA .callableDecl do throw .noMember
  let expressions ← (← all args .arguments).mapM tree
  resolving do
    Resolve.matchArguments callable .none types expressions
    Resolve.score (← Resolve.tree callable) types

/-! ## Scopes -/

def scopeWith (id : NodeId) (k : ScopeKind) (table : Table) : Build NodeId := do
  match ← scopeOwner id k with
  | none => throw .noMember
  | some owner => if table ∈ k.tables then return owner else throw .noMember

def declare (id : NodeId) (k : ScopeKind) (table : Table) (name : Option String) (x : NodeId) :
    Build Unit := do
  let owner ← scopeWith id k table
  let n ← node x
  resolving (Resolve.declare owner table name n)

def lookup (id : NodeId) (k : ScopeKind) (table : Table) (name : Option String) :
    Build (List NodeId) := do
  let owner ← scopeWith id k table
  return (((← get).scopes.get? owner).getD {}).all table name

def lookupVariable (id : NodeId) (name : Option String) : Build (Option NodeId) := do
  let env := (← get).inside id
  resolving (Resolve.lookupVariable env.blocks name)

def lookupType (id : NodeId) (name : Option String) : Build (Option NodeId) := do
  let env := (← get).inside id
  resolving (Resolve.lookupType env name)

/-! ## Cutting and printing -/

def machinesOf (g : Graph) (root : NodeId) : Machines := (g.machines.get? root).getD {}

def cut (id : NodeId) (pluginPrefix : String) (splitAll : Bool) : Build Unit := do
  let some root ← scopeOwner id .root | throw .noMember
  let t ← tree id
  let g ← get
  let start : Cutter :=
    { log := g.log, machines := g.machinesOf root, index := g.trees, splitAll := splitAll }
  let (t, done) := (Cutting.program pluginPrefix t).run start
  let g := { g with log := done.log, machines := g.machines.insert root done.machines }
  let gone := done.log.removed.drop start.log.removed.length
  set (gone.foldl disown (g.store t))
  match done.fault with
  | some f => throw f
  | none => return

def print (id : NodeId) (product : Product) (fileName : String) : Build String := do
  let t ← tree id
  let g ← get
  let above := (g.ancestors 1 id).head?.map (·.kind)
  let start : Printer :=
    { log := g.log, listing := { file := fileName }, product := product, index := g.trees,
      machines := g.machinesOf id }
  match Print.text above t start with
  | .ok text p =>
    set { g with log := p.log }
    return text
  | .error f p =>
    set { g with log := p.log }
    throw f

/-! ## Other steps -/

/-- Checks that every node below a node has the one that holds it as its parent, and reports the
nodes that are lost or occur again. -/
def account (id : NodeId) : Build Unit := do
  let t ← tree id
  for s in t.subtrees do
    for c in s.children do
      unless (← parent c.2.id) = s.id do throw .strayNode
  reportReached t.ids

def forget (id : NodeId) : Build Unit := do
  let t ← tree id
  modifyLog fun l => { l with removed := l.removed ++ t.ids }

def closed (id : NodeId) : Build Bool := do
  unless (← node id).kind.isA .statement do throw .noMember
  (← tree id).closed

def dump (id : NodeId) : Build (List String) := do (← tree id).dump

def asList (id : NodeId) : Build NodeId := do
  let n ← node id
  unless n.kind.isA .statement do throw .wrongKind
  if n.kind = .statementList then return id
  let l ← make .statementList n.origin fun n => n
  push l .statements (some id)
  return l

/-- Cuts a list of statements off at an index; the rest has no place to go to. -/
def splitList (id : NodeId) (i : Int) (other : NodeId) : Build Unit := do
  unless (← node id).kind = .statementList do throw .noMember
  unless (← node other).kind = .statementList do throw .wrongKind
  let _ ← split id .statements i
  throw .noMember

def qualify (id : NodeId) (origin : Origin) (qualifier : String) : Build Unit := do
  let n ← Construction.addQualifier (← node id) origin qualifier
  change id fun _ => n

def typeName (id : NodeId) : Build (Option String) := do
  let n ← node id
  if n.kind.isA .typeDecl then return n.name? else throw .noMember

/-! ## Values -/

/-- The value of a node, as far as it is known before the program runs. Names stand for what they
are declared as, so the way can be long; it is cut off after some steps. -/
def valueWithin : (steps : Nat) → NodeId → Build (Option StaticValue)
  | 0, _ => throw .tooDeep
  | steps + 1, id => do
    let n ← node id
    match n.kind with
    | .integerLiteral => return (n.number? .value).map .whole
    | .booleanLiteral => return (n.flags.lookup .value).map .truth
    | .staticValue => return (← get).values.get? id
    | .trivialCast | .constantDefine =>
      match ← content id .expression with
      | some e => valueWithin steps e
      | none => return none
    | .variableDeclaration =>
      match ← content id .initializer with
      | some e => valueWithin steps e
      | none => return none
    | .variableUse =>
      match n.link? .declaration with
      | some d => valueWithin steps d
      | none => return none
    | k => if k.isA .expression then return none else throw .noMember

/-- The value of a node, as far as it is known before the program runs. -/
def value (id : NodeId) : Build (Option StaticValue) := do
  valueWithin ((← get).log.nextId + 1) id

def setValue (id : NodeId) (v : Option StaticValue) : Build Unit := do
  unless (← node id).kind = .staticValue do throw .noMember
  modify fun g =>
    { g with
      values := match v with
        | some v => g.values.insert id v
        | none => g.values.erase id }

end Resumable.Graph
