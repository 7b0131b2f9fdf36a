import Resumable.Cutting

/-!
# Cutting statements

The rule for each kind of statement and expression inside a function. The rules are not
recursive: they run the steps of the children, which `Cutting.visit` hands to them.
-/

namespace Resumable

/-- How much of a tree is visited. -/
inductive Reach where
  | whole
  /-- Only the arguments of a call, because the call itself stands where it can be cut. -/
  | arguments
deriving Repr, DecidableEq, Inhabited

/-- A child of a node with the step that cuts it, which is given the place of the statement around
it. -/
structure Cuttable where
  role : Role
  tree : Tree
  cut : Origin → Reach → Cutting Tree

namespace Cutting

def children (stmt : Origin) : List Cuttable → Cutting (List (Role × Tree))
  | [] => return []
  | p :: ps => do
    let t ← p.cut stmt .whole
    return (p.role, t) :: (← children stmt ps)

def argumentsOnly (stmt : Origin) : List Cuttable → Cutting (List (Role × Tree))
  | [] => return []
  | p :: ps => do
    let t ← if p.role = .argumentList then p.cut stmt .whole else pure p.tree
    return (p.role, t) :: (← argumentsOnly stmt ps)

def callIn (r : Role) (stmt : Origin) : List Cuttable → Cutting (List (Role × Tree))
  | [] => return []
  | p :: ps => do
    let t ← if p.role = r then p.cut stmt .arguments else pure p.tree
    return (p.role, t) :: (← callIn r stmt ps)

/-- Visits a statement of a list, with room for what is put next to it. -/
def statement (p : Cuttable) : Cutting (List (Role × Tree)) := do
  let outer ← get
  set { outer with before := [], after := [] }
  let t ← p.cut p.tree.origin .whole
  let inner ← get
  set { inner with before := outer.before, after := outer.after }
  return (inner.before ++ t :: inner.after).map (Role.statements, ·)

def statements : List Cuttable → Cutting (List (Role × Tree))
  | [] => return []
  | p :: ps => do
    let here ← statement p
    return here ++ (← statements ps)

/-! ## Rules -/

/-- Ends a state behind the statement if every statement does. -/
def pauseIfSplit (origin : Origin) : Cutting Unit := do
  if (← get).splitAll then
    let _ ← attempt (pauseAfter origin)

/-- Puts a call with the machine in the place of a call of a function with states, and ends a
state before the statement. -/
def enterMachine (t : Tree) (r : Role) : Step Cutter Tree := do
  let call ← passMachine (← t.child r)
  surround t.origin
  return t.mapRole r fun _ => call

def callsMachine (n : Node) : Cutting Bool :=
  return (← get).machines.hasStates (n.link? .declaration)

def machineInitializer (t : Tree) : Cutting Bool := do
  match t.child? .initializer with
  | some e => if e.kind = .call then callsMachine e.node else return false
  | none => return false

def variableDeclaration (stmt : Origin) (t : Tree) (parts : List Cuttable) : Cutting Tree := do
  let declared ← attempt do
    let c ← get
    set { c with persistence := ← c.persistence.declare t.id c.states }
  if declared.isNone then return t
  if ← machineInitializer t then
    let t := Tree.mk t.node (← callIn .initializer stmt parts)
    return (← attempt (enterMachine t .initializer)).getD t
  else
    let t := Tree.mk t.node (← children stmt parts)
    pauseIfSplit t.origin
    return t

def callStatement (stmt : Origin) (t : Tree) (parts : List Cuttable) : Cutting Tree := do
  let fits ← attempt do
    let call ← t.child .expression
    if (call.kind.slot? .argumentList).isNone then throw .noMember
  if fits.isNone then return t
  let t := Tree.mk t.node (← callIn .expression stmt parts)
  match t.child? .expression with
  | none => return t
  | some call =>
    if ← callsMachine call.node then
      return (← attempt (enterMachine t .expression)).getD t
    else
      let blocking ← attempt do
        match call.node.flags.lookup .blocking with
        | some b => return b
        | none => throw .noMember
      match blocking with
      | none => return t
      | some true => return (← attempt (waitFor t.node call)).getD t
      | some false =>
        pauseIfSplit t.origin
        return t

def loop (stmt : Origin) (t : Tree) (parts : List Cuttable) : Cutting Tree := do
  modify fun c => { c with persistence := c.persistence.beginLoop c.states }
  let t := Tree.mk t.node (← children stmt parts)
  let _ ← attempt do
    let c ← get
    set { c with persistence := ← c.persistence.endLoop c.states }
  return t

/-- A `return`. The machine is reset if there is a state already. -/
def returnStatement (stmt : Origin) (t : Tree) (parts : List Cuttable) : Cutting Tree := do
  let t := Tree.mk t.node (← children stmt parts)
  if (← get).states ≠ 0 then
    let _ ← attempt (resetBefore t.origin)
  return t

/-- Takes a call of a function with states out of an expression: it becomes a statement of its own
that keeps the result, and the result takes its place. -/
def takeOut (stmt : Origin) (call : Tree) : Step Cutter Tree := do
  let o := call.origin
  let call ← passMachine call
  let s ← newCut .callSub stmt
  let number := Tree.shown ((s.number? .nextState).map toString)
  putBefore (.mk (s.named s!"zc_tmp{number}") [(.expression, call)])
  let result ← newNode .callSubResult o
  return .mk (result.setLink .declaration (some s.id)) []

def call (stmt : Origin) (t : Tree) (parts : List Cuttable) : Cutting Tree := do
  let t := Tree.mk t.node (← children stmt parts)
  if ← callsMachine t.node then
    return (← attempt (takeOut stmt t)).getD t
  else return t

def rule (stmt : Origin) (t : Tree) (parts : List Cuttable) : Cutting Tree := do
  let n := t.node
  match n.kind with
  | .statementList => return .mk n (← statements parts)
  | .nop | .typeRef | .refType | .simpleType | .invalidType | .pointerType | .literal
  | .integerLiteral | .booleanLiteral | .callSubResult => return t
  | .variableDeclaration => variableDeclaration stmt t parts
  | .expressionStatement =>
    let t := Tree.mk n (← children stmt parts)
    pauseIfSplit t.origin
    return t
  | .callStatement => callStatement stmt t parts
  | .loop | .whileLoop | .doWhileLoop | .forLoop => loop stmt t parts
  | .returnStatement => returnStatement stmt t parts
  | .ifElse | .memberAccess | .assignment | .conditional | .operator | .binaryOperator
  | .memberOperator | .memberBinary | .unary | .postUnary | .index | .dereference | .addressOf
  | .cast | .trivialCast | .argumentList => return .mk n (← children stmt parts)
  | .variableUse =>
    modify fun c => { c with persistence := c.persistence.use (n.link? .declaration) c.states }
    return t
  | .call => call stmt t parts
  | k =>
    let _ ← attempt (unsupportedKind (α := Unit) "_StatementsVisitor" k)
    return t

def visit (stmt : Origin) (reach : Reach) : Tree → Cutting Tree
  | .mk n cs => do
    if ← stopped then return .mk n cs
    match reach with
    | .whole => rule stmt (.mk n cs) (go cs)
    | .arguments => return .mk n (← argumentsOnly stmt (go cs))
where
  go : List (Role × Tree) → List Cuttable
    | [] => []
    | (r, t) :: rest => ⟨r, t, fun o reach => visit o reach t⟩ :: go rest

end Cutting

end Resumable
