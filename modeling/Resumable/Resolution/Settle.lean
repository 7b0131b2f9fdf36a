import Resumable.Resolution.Visit

/-!
# Putting a resolution into the tree

After resolution the tree shows what was found: names and type references are linked to what they
refer to, implicit casts stand around their expressions, and pointer types hang below the types
that they point to. A last walk checks that every node has a type.
-/

namespace Resumable

def Kind.mainLink (k : Kind) : LinkKey :=
  if k.isA .typeRef then .typeDeclaration else .declaration

namespace Resolution

def linked (r : Resolution) (n : Node) : Node :=
  match r.links.get? n.id with
  | some target => n.setLink n.kind.mainLink (some target)
  | none => n

/-- Puts an implicit cast around an expression that needs one. -/
def wrapped (r : Resolution) (t : Tree) : Tree :=
  match r.casts.get? t.id with
  | none => t
  | some c =>
    let n := Node.blank c.id .trivialCast t.origin
    .mk (n.setLink .castType (some c.type)) [(.expression, t)]

/-- Puts what was found into a tree, with the finished pointer types at hand. -/
def apply (r : Resolution) (pointers : List (NodeId × Tree)) : Tree → Tree
  | .mk n cs =>
    let pointer := ((pointers.lookup n.id).map (Role.pointer, ·)).toList
    .mk (r.linked n) (pointer ++ go cs)
where
  go : List (Role × Tree) → List (Role × Tree)
    | [] => []
    | (role, t) :: rest => (role, r.wrapped (r.apply pointers t)) :: go rest

/-- The finished pointer types, with the types that they belong to. A pointer to a pointer is made
after it, so the last ones are finished first. -/
def finishedPointers (r : Resolution) : List (NodeId × Tree) :=
  r.pointers.foldr (fun (type, p) done => (type, r.apply done p) :: done) []

def settle (r : Resolution) (t : Tree) : Tree := r.apply r.finishedPointers t

end Resolution

namespace Resolve

/-- Whether a fault stops the last check; the other ones are only printed, or passed over. -/
def checkNode (n : Node) : Resolve Unit := do
  let note (word : String) : Resolve Unit := do
    print word
    print s!"Node   : {n.kind.title}"
  tryCatch (do
    match ← typeOf? n with
    | some _ => pure ()
    | none =>
      print s!"<class '{n.kind.title}'>"
      throw .badType)
    fun
    | .noMember => pure ()
    | .cycle => note "ResolutionCycleError"
    | .unresolved => note "UnresolvedError"
    | .failedBefore => note "PreviousResolutionError"
    | fault => throw fault

/-- Checks that every node of a tree has the type that it should have. -/
def check (t : Tree) : Resolve Unit := t.subtrees.forM fun s => checkNode s.node

def run (env : Surroundings) (t : Tree) : Resolve Tree := do
  modify fun r => { r with index := r.index.addTree t }
  all env t
  checkStage "resolve"
  let t := (← get).settle t
  check t
  return t

end Resolve

end Resumable
