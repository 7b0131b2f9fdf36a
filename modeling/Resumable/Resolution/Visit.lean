import Resumable.Resolution.Overload

/-!
# Walking a program to resolve it

Declarations are entered into their scopes in the order in which they stand, so a name refers to a
declaration before its use. The rule for a node runs the steps of its children where it needs
them; the rules themselves are not recursive, only `Resolve.visit` is.
-/

namespace Resumable

/-- A child of a node with the step that resolves it. -/
structure Visitable where
  role : Role
  tree : Tree
  visit : Resolve Unit

namespace Resolve

def visitAll (parts : List Visitable) : Resolve Unit := parts.forM (·.visit)

def visitRole (parts : List Visitable) (r : Role) : Resolve Unit :=
  visitAll (parts.filter (·.role == r))

/-- Resolves a declaration that was looked up, if it is not resolved yet, and gives its type. -/
def demand (onDemand : NodeId → Resolve Unit) (id : NodeId) : Resolve NodeId := do
  let t ← tree id
  unless t.kind.declares do throw .wrongKind
  onDemand id
  typeOf t.node

def owner (env : Surroundings) (k : ScopeKind) : Resolve NodeId :=
  match env.owner? k with
  | some id => return id
  | none => throw .noMember

/-! ## Declarations -/

/-- Resolves a declaration once: enters its name, resolves its children, and takes its type from
what they are resolved to. -/
def declaration (n : Node) (enterName : Resolve Unit) (parts : List Visitable)
    (type : Resolve NodeId) : Resolve Unit := do
  if ← begin n.id then
    enterName
    visitAll parts
    finish n.id (← type)

/-- The scope of the type around a declaration, or else of the program. -/
def typeOrRoot (env : Surroundings) : Resolve NodeId :=
  match env.type.orElse fun _ => env.root with
  | some id => return id
  | none => throw .noScope

/-- Enters a type definition, into the list of statements around it or else into the program. -/
def enterTypedef (env : Surroundings) (n : Node) : Resolve Unit := do
  match env.blocks with
  | b :: _ => declare b .typedefs n.name? n
  | [] => declare (← owner env .root) .typedefs n.name? n

/-- Enters a parameter. Those of a declaration without a body are not visible anywhere. -/
def enterParameter (env : Surroundings) (n : Node) : Resolve Unit :=
  match n.name?, env.function with
  | some name, some f => declare f .arguments (some name) n
  | _, _ => return

/-! ## Types -/

def simpleType (env : Surroundings) (n : Node) : Resolve Unit := do
  match ← lookupType env n.name? with
  | some t => setReference n t
  | none =>
    let name := Tree.shown n.name?
    reportError n.origin s!"Unresolved type '{name}'"
    reject

def pointerType (onDemand : NodeId → Resolve Unit) (t : Tree) (parts : List Visitable) :
    Resolve Unit := do
  visitAll parts
  let p ← pointerTo (← typeIn t .pointedType)
  setReference t.node (← demand onDemand p)

/-! ## Expressions -/

def argumentTypes (t : Tree) : Resolve (List NodeId × List Tree) := do
  let args := (← t.child .argumentList).inRole .arguments
  return (← args.mapM fun a => typeOf a.node, args)

/-- Resolves a call or an operator with the declarations that it may mean. -/
def overloaded (onDemand : NodeId → Resolve Unit) (t : Tree) (candidates : List NodeId)
    (unknown : String) : Resolve Unit := do
  if candidates.isEmpty then
    reportError t.origin unknown
    reject
  let (types, args) ← argumentTypes t
  let d ← choose t.origin types candidates
  matchArguments d t.origin types args
  setLink t.id d
  setType t.id (← demand onDemand d)

def call (onDemand : NodeId → Resolve Unit) (env : Surroundings) (t : Tree)
    (parts : List Visitable) : Resolve Unit := do
  visitAll parts
  let root ← owner env .root
  let name := Tree.shown t.node.name?
  overloaded onDemand t ((← scope root).all .functions t.node.name?) s!"Unresolved call '{name}'"

def operatorOf (n : Node) : Option String := (n.texts.lookup .operator).join

/-- Resolves an operator that is declared outside of types. -/
def operator (onDemand : NodeId → Resolve Unit) (env : Surroundings) (t : Tree)
    (parts : List Visitable) : Resolve Unit := do
  visitAll parts
  let root ← owner env .root
  let name := Tree.shown (operatorOf t.node)
  overloaded onDemand t ((← scope root).all .operators (operatorOf t.node))
    s!"Unresolved operator '{name}'"

def typeScope (type : NodeId) : Resolve Scope := do
  if (← tree type).kind.isA .typeDecl then scope type else throw .noMember

/-- Resolves an operator that belongs to the type of its first operand. -/
def memberOperator (onDemand : NodeId → Resolve Unit) (t : Tree) (parts : List Visitable) :
    Resolve Unit := do
  visitAll parts
  let type ← typeIn t .expression
  let name := Tree.shown (operatorOf t.node)
  overloaded onDemand t ((← typeScope type).all .operators (operatorOf t.node))
    s!"Unresolved operator '{name}'"

/-- The declaration of a variable: in the lists of statements around its use, among the
parameters of the function, or among the constants of the program. -/
def variableDeclaration (env : Surroundings) (n : Node) : Resolve NodeId := do
  match ← lookupVariable env.blocks n.name? with
  | some d => return d
  | none =>
    match ← lookup (← owner env .function) .arguments n.name? with
    | some d => return d
    | none =>
      match ← lookup (← owner env .root) .constants n.name? with
      | some d => return d
      | none =>
        let name := Tree.shown n.name?
        reportError n.origin s!"Unresolved variable '{name}'"
        reject

def variableUse (onDemand : NodeId → Resolve Unit) (env : Surroundings) (n : Node) :
    Resolve Unit := do
  let d ← variableDeclaration env n
  setLink n.id d
  setType n.id (← demand onDemand d)

/-- Resolves an assignment. The value may need a cast to the type of what is assigned to. -/
def assignment (t : Tree) (parts : List Visitable) : Resolve Unit := do
  visitAll parts
  let left ← typeIn t .left
  let right ← typeIn t .right
  if right = left then pure ()
  else if ← canCast left right then insertCast left right (← t.child .right)
  else reportError t.origin "Type mismatch on assignment"
  setType t.id left

def memberAccess (onDemand : NodeId → Resolve Unit) (t : Tree) (parts : List Visitable) :
    Resolve Unit := do
  visitAll parts
  let left ← typeIn t .expression
  let left ← if t.node.flag .arrow then pointedBy t.origin left else pure left
  match (← typeScope left).find? .attributes t.node.name? with
  | some d =>
    setLink t.id d
    setType t.id (← demand onDemand d)
  | none =>
    let name := Tree.shown t.node.name?
    let type := Tree.shown (← tree left).node.name?
    reportError t.origin s!"Member '{name}' not found on '{type}'"
    reject

/-! ## Statements -/

def statementList (t : Tree) (parts : List Visitable) : Resolve Unit := do
  visitAll parts
  go false (t.inRole .statements)
where
  /-- Goes through the statements; the flag says whether control has stopped. -/
  go (stopped : Bool) : List Tree → Resolve Unit
    | [] => return
    | s :: rest => do
      if stopped then throw .noMember
      go (stopped || (← s.closed)) rest

/-! ## All nodes -/

def rule (onDemand : NodeId → Resolve Unit) (env : Surroundings) (t : Tree)
    (parts : List Visitable) : Resolve Unit :=
  let n := t.node
  match n.kind with
  | .root => do
    visitRole parts .builtins
    visitRole parts .papi
    visitRole parts .manifest
    visitRole parts .source
  | .typeDecl | .addressableDecl | .basicDecl | .voidDecl | .intDecl | .structDecl
  | .pointerDecl =>
    declaration n
      (do
        declare (← typeOrRoot env) .types n.name? n
        modify fun r => { r with places := r.places.insert n.id env })
      parts (return n.id)
  | .operatorDecl =>
    declaration n (do declare (← typeOrRoot env) .operators n.name? n) parts
      (typeIn t .returnType)
  | .functionDecl | .papiFunctionDecl =>
    declaration n (do declare (← owner env .root) .functions n.name? n) parts
      (typeIn t .returnType)
  | .constantDefine =>
    declaration n (do declare (← owner env .root) .constants n.name? n) parts
      (typeIn t .expression)
  | .argumentDecl => declaration n (enterParameter env n) parts (typeIn t .parameterType)
  | .variableDeclaration =>
    declaration n (do declare (← owner env .statements) .locals n.name? n) parts
      (typeIn t .declaredType)
  | .attributeDecl =>
    declaration n (do declare (← owner env .type) .attributes n.name? n) parts
      (typeIn t .declaredType)
  | .typedefStatement => declaration n (enterTypedef env n) parts (typeIn t .aliasedType)
  | .statementList => statementList t parts
  | .pluginSource | .pluginManifest | .castRule | .declarationList | .argumentDeclList
  | .staticAssert | .functionDefinition | .returnStatement | .expressionStatement | .ifElse
  | .callStatement | .whileLoop | .doWhileLoop | .forLoop | .readFields | .writeFields
  | .argumentList => visitAll parts
  | .directive | .includeFile | .nop => return
  | .errorStatement | .invalidType => throw .wrongKind
  | .refType => do let _ ← typeOf? n
  | .simpleType => simpleType env n
  | .pointerType => pointerType onDemand t parts
  | .call => call onDemand env t parts
  | .integerLiteral => do setType n.id (← internalType env "sa_int_literal")
  | .booleanLiteral => do setType n.id (← internalType env "sa_bool_literal")
  | .variableUse => variableUse onDemand env n
  | .assignment => assignment t parts
  | .conditional => do
    visitAll parts
    reportError n.origin "Conditional expression not supported"
    setType n.id (← internalType env "_zc_dont_care")
  | .operator | .binaryOperator => operator onDemand env t parts
  | .memberOperator | .memberBinary | .unary | .postUnary | .index =>
    memberOperator onDemand t parts
  | .dereference => do
    visitAll parts
    setType n.id (← pointedBy n.origin (← typeIn t .expression))
  | .addressOf => do
    visitAll parts
    setType n.id (← pointerTo (← typeIn t .expression))
  | .memberAccess => memberAccess onDemand t parts
  | .cast => do
    visitAll parts
    setType n.id (← typeIn t .castType)
  | .node | .statement | .loop | .machine | .mainFirst | .initFirst | .subFirst | .debugState
  | .beforeSub | .afterSub | .callSub | .beforeReturn | .papiWait | .papiSleep | .expression
  | .errorExpression | .literal | .staticValue | .trivialCast | .callSubResult
  | .machineArgument | .typeRef | .callableDecl => unsupportedKind "_ResolveVisitor" n.kind

def visit (onDemand : NodeId → Resolve Unit) (env : Surroundings) : Tree → Resolve Unit
  | .mk n cs => rule onDemand env (.mk n cs) (go (env.enter n) cs)
where
  go (env : Surroundings) : List (Role × Tree) → List Visitable
    | [] => []
    | (r, t) :: rest => ⟨r, t, visit onDemand env t⟩ :: go env rest

/-- Resolves a declaration that was looked up. Only declarations that have not begun their
resolution do anything, so the steps run out only if there are more of them than nodes. -/
def visitLater : Nat → NodeId → Resolve Unit
  | 0, _ => throw .tooDeep
  | steps + 1, id => do
    let env := ((← get).places.get? id).getD {}
    visit (visitLater steps) env (← tree id)

def all (env : Surroundings) (t : Tree) : Resolve Unit := do
  let steps := 2 * (← get).index.slots.size + 2
  visit (visitLater steps) env t

end Resolve

end Resumable
