import Resumable.Builtins
import Resumable.Scope

/-!
# Resolution

What resolution finds out about a program: the types of its declarations and expressions, the
declarations that names refer to, the pointer types that the program needs, and the implicit casts
that it contains. All of it is kept in tables beside the tree; `Resolution.settle` puts it into the
tree afterwards.
-/

namespace Resumable

/-- How far the resolution of a declaration has come. -/
inductive Status where
  | untouched
  | running
  | done (type : Option NodeId)
  | failed
  | unknown
deriving Repr, DecidableEq, Inhabited

/-- An implicit cast of an expression. -/
structure Cast where
  id : NodeId
  type : NodeId
deriving Repr, DecidableEq, Inhabited

/-- The tables of a resolution. -/
structure Resolution where
  log : Log := {}
  index : IdMap Tree := .empty
  scopes : IdMap Scope := .empty
  /-- The surroundings of declarations that are resolved when they are needed. -/
  places : IdMap Surroundings := .empty
  status : IdMap Status := .empty
  types : IdMap NodeId := .empty
  links : IdMap NodeId := .empty
  /-- The new pointer types with the types that they belong to, in order. -/
  pointers : List (NodeId × Tree) := []
  /-- The implicit casts, by the expressions that they are put around. -/
  casts : IdMap Cast := .empty
deriving Inhabited

instance : HasLog Resolution := ⟨(·.log), fun s l => { s with log := l }⟩

abbrev Resolve := Step Resolution

namespace Resolve

/-! ## Looking things up -/

def tree (id : NodeId) : Resolve Tree := do
  match (← get).index.get? id with
  | some t => return t
  | none => throw .noMember

def statusOf (id : NodeId) : Resolve Status := do
  return ((← get).status.get? id).getD .untouched

def setStatus (id : NodeId) (s : Status) : Resolve Unit :=
  modify fun r => { r with status := r.status.insert id s }

def declaredType? (id : NodeId) : Resolve (Option NodeId) := do
  match ← statusOf id with
  | .untouched => throw .unresolved
  | .running => throw .cycle
  | .done t => return t
  | .failed => throw .failedBefore
  | .unknown => throw .badStatus

/-- The type of a node: of a declaration, of an expression, or that a type reference stands for. -/
def typeOf? (n : Node) : Resolve (Option NodeId) := do
  if n.kind.declares then declaredType? n.id
  else if n.kind.isA .expression then
    match (← get).types.get? n.id with
    | some t => return some t
    | none => throw .noMember
  else if n.kind.isA .typeRef then
    match ((← get).links.get? n.id).orElse fun _ => n.link? .typeDeclaration with
    | some t => return some t
    | none => throw .badType
  else throw .noMember

def typeOf (n : Node) : Resolve NodeId := do
  match ← typeOf? n with
  | some t => return t
  | none => throw .noMember

def typeIn (t : Tree) (r : Role) : Resolve NodeId := do typeOf (← t.child r).node

def typeName (type : NodeId) : Resolve String := do
  let t ← tree type
  unless t.kind.isA .typeDecl do throw .noMember
  match t.node.name? with
  | some name => return name
  | none => throw .notText

/-! ## Setting things -/

/-- Begins the resolution of a declaration, unless it has begun before. -/
def begin (id : NodeId) : Resolve Bool := do
  match ← statusOf id with
  | .untouched =>
    setStatus id .running
    return true
  | _ => return false

def finish (id type : NodeId) : Resolve Unit := do
  match ← statusOf id with
  | .running => setStatus id (.done (some type))
  | _ => throw .badStatus

def setType (id type : NodeId) : Resolve Unit := do
  if ((← get).types.get? id).isSome then throw .badType
  modify fun r => { r with types := r.types.insert id type }

def setLink (id target : NodeId) : Resolve Unit :=
  modify fun r => { r with links := r.links.insert id target }

def setReference (n : Node) (type : NodeId) : Resolve Unit := do
  if (((← get).links.get? n.id).orElse fun _ => n.link? .typeDeclaration).isSome then
    throw .badType
  setLink n.id type

/-! ## Scopes -/

def scope (owner : NodeId) : Resolve Scope := do
  return ((← get).scopes.get? owner).getD {}

def setScope (owner : NodeId) (s : Scope) : Resolve Unit :=
  modify fun r => { r with scopes := r.scopes.insert owner s }

def declare (owner : NodeId) (table : Table) (name : Option String) (n : Node) :
    Resolve Unit := do
  let s ← scope owner
  let shown := Tree.shown name
  if s.taken table name then
    reportError n.origin s!"Redeclaration of '{shown}'"
    throw .noMember
  let s := s.claim table name
  setScope owner s
  match table.overloadable, s.find? table name with
  | false, some before =>
    reportError n.origin s!"Redeclaration of '{shown}'"
    reportError (← tree before).origin "Previous was here"
  | _, _ => setScope owner (s.push table name n.id)

def lookup (owner : NodeId) (table : Table) (name : Option String) : Resolve (Option NodeId) :=
  return (← scope owner).find? table name

/-- Looks a variable up in the lists of statements around a place. -/
def lookupVariable (blocks : List NodeId) (name : Option String) : Resolve (Option NodeId) :=
  match blocks with
  | [] => throw .noScope
  | blocks => blocks.findSomeM? fun b => lookup b .locals name

/-- Looks a type up: type definitions in the lists of statements around a place, then those of the
whole program, then types. -/
def lookupType (env : Surroundings) (name : Option String) : Resolve (Option NodeId) := do
  match ← env.blocks.findSomeM? fun b => lookup b .typedefs name with
  | some d => typeOf? (← tree d).node
  | none =>
    match env.root with
    | none => throw .noScope
    | some root =>
      match ← lookup root .typedefs name with
      | some d => typeOf? (← tree d).node
      | none => lookup root .types name

def internalType (env : Surroundings) (name : String) : Resolve NodeId := do
  match env.root with
  | none => throw .noMember
  | some root =>
    match ← lookup root .types (some name) with
    | some t => return t
    | none => throw .badType

/-! ## Pointers -/

def pointerOf? (type : Tree) : Resolve (Option NodeId) := do
  match (← get).pointers.find? (·.1 == type.id) with
  | some (_, p) => return some p.id
  | none => return (type.child? .pointer).map (·.id)

/-- The pointer type for a type. It is made when it is asked for first. -/
def pointerTo (type : NodeId) : Resolve NodeId := do
  let t ← tree type
  unless t.kind.isA .addressableDecl do throw .noMember
  match ← pointerOf? t with
  | some p => return p
  | none =>
    match t.node.name? with
    | none => throw .notText
    | some name =>
      let p ← Builtins.pointerTo type name
      modify fun r =>
        let place := ((r.places.get? type).getD {}).enter t.node
        { r with
          pointers := r.pointers ++ [(type, p)]
          index := r.index.addTree p
          places := r.places.insert p.id place }
      return p.id

def pointedBy (origin : Origin) (type : NodeId) : Resolve NodeId := do
  let t ← tree type
  if t.kind = .pointerDecl then
    match t.node.link? .pointerOf with
    | some target => return target
    | none => throw .noMember
  else
    unless t.kind.isA .typeDecl do throw .noMember
    let name := Tree.shown t.node.name?
    reportError origin s!"Invalid pointer dereference on expression of type '{name}'"
    reject

end Resolve

end Resumable
