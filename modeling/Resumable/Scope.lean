import Resumable.Tree

/-!
# Scopes

Lists of statements, functions, types and the whole program each have a scope in which names are
declared. A scope has several tables. A name belongs to one table of a scope only; in a table for
functions and operators it can have several declarations.
-/

namespace Resumable

/-- The tables of scopes. -/
inductive Table where
  | locals | typedefs | arguments | types | functions | operators | attributes | constants
deriving Repr, DecidableEq, Inhabited

def Table.names : List (String × Table) :=
  [("variables", locals), ("typedefs", typedefs), ("arguments", arguments), ("types", types),
    ("functions", functions), ("operators", operators), ("attributes", attributes),
    ("constants", constants)]

/-- Whether a name can have several declarations in a table. -/
def Table.overloadable : Table → Bool
  | functions | operators => true
  | _ => false

/-- The kinds of scopes. -/
inductive ScopeKind where
  | statements | function | type | root
deriving Repr, DecidableEq, Inhabited

def ScopeKind.names : List (String × ScopeKind) :=
  [("statements", statements), ("function", function), ("type", type), ("root", root)]

def ScopeKind.tables : ScopeKind → List Table
  | statements => [.locals, .typedefs]
  | function => [.arguments]
  | type => [.types, .typedefs, .functions, .operators, .attributes]
  | root => [.types, .typedefs, .functions, .operators, .attributes, .constants]

def Kind.scope? (k : Kind) : Option ScopeKind :=
  if k = .statementList then some .statements
  else if k = .functionDefinition then some .function
  else if k.isA .typeDecl then some .type
  else if k = .root then some .root
  else none

/-- The names of a scope. -/
structure Scope where
  owners : List (Option String × Table) := []
  entries : List ((Table × Option String) × NodeId) := []
deriving Repr, DecidableEq, Inhabited

namespace Scope

def all (s : Scope) (table : Table) (name : Option String) : List NodeId :=
  s.entries.filterMap fun (k, id) => if k = (table, name) then some id else none

def find? (s : Scope) (table : Table) (name : Option String) : Option NodeId :=
  s.entries.lookup (table, name)

def taken (s : Scope) (table : Table) (name : Option String) : Bool :=
  match s.owners.lookup name with
  | some owner => owner ≠ table
  | none => false

def claim (s : Scope) (table : Table) (name : Option String) : Scope :=
  if (s.owners.lookup name).isSome then s else { s with owners := s.owners ++ [(name, table)] }

def push (s : Scope) (table : Table) (name : Option String) (id : NodeId) : Scope :=
  { s with entries := s.entries ++ [((table, name), id)] }

end Scope

/-- The scopes around a node, by the nodes that open them. -/
structure Surroundings where
  root : Option NodeId := none
  type : Option NodeId := none
  function : Option NodeId := none
  /-- The lists of statements, innermost first, up to the function around them. -/
  blocks : List NodeId := []
deriving Repr, DecidableEq, Inhabited

namespace Surroundings

def enter (e : Surroundings) (n : Node) : Surroundings :=
  match n.kind.scope? with
  | some .statements => { e with blocks := n.id :: e.blocks }
  | some .function => { e with function := some n.id, blocks := [] }
  | some .type => { e with type := some n.id }
  | some .root => { e with root := some n.id }
  | none => e

def owner? (e : Surroundings) : ScopeKind → Option NodeId
  | .statements => e.blocks.head?
  | .function => e.function
  | .type => e.type
  | .root => e.root

end Surroundings

end Resumable
