import Resumable.Machine
import Resumable.Tree

/-!
# Printing types and expressions

Types and expressions are printed as a sequence of pieces, which are put next to each other. What
is printed for a name depends on the machine of the function around it: a variable that outlives a
state is printed as a field of the machine's structure.
-/

namespace Resumable

/-- What a name is printed with. -/
structure Printing where
  index : IdMap Tree
  machine : Option Machine
deriving Inhabited

/-- Why a tree cannot be printed. -/
inductive Unprintable where
  | unsupported (k : Kind)
  | fault (f : Fault)
deriving Repr, DecidableEq, Inhabited

namespace Printing

abbrev Pieces := Except Unprintable (List String)

def piece : Option String → Pieces
  | some s => .ok [s]
  | none => .error (.fault .notText)

def lift {α : Type} : Except Fault α → Except Unprintable α
  | .ok a => .ok a
  | .error f => .error (.fault f)

def textOf (n : Node) (k : TextKey) : Pieces := do piece (← lift (n.text k))

def target (p : Printing) (n : Node) (k : LinkKey) : Option Tree :=
  (n.link? k).bind p.index.get?

/-! ## Types -/

def resolvedName (p : Printing) (n : Node) : Pieces :=
  match p.target n .typeDeclaration with
  | none => .error (.fault .badType)
  | some d => if d.kind.isA .typeDecl then piece d.node.name? else .error (.fault .noMember)

def type (p : Printing) : Tree → Pieces
  | .mk n cs =>
    match n.kind with
    | .refType => p.resolvedName n
    | .simpleType => do
      let name ← textOf n .name
      return (if n.flag .constant then ["const "] else []) ++ name
    | .pointerType => do
      let pointed ← go cs
      return pointed ++ ["*"] ++ (if n.flag .constant then [" const"] else [])
    | k => .error (.unsupported k)
where
  go : List (Role × Tree) → Pieces
    | [] => .ok []
    | (_, t) :: _ => p.type t

def typeIn (p : Printing) (t : Tree) (r : Role) : Pieces :=
  match t.child? r with
  | some c => p.type c
  | none => .ok []

/-! ## Expressions -/

def outlives (p : Printing) (id : NodeId) : Bool := p.machine.any (·.kept.contains id)

def referredName (p : Printing) (n : Node) : Pieces :=
  match p.target n .declaration with
  | some d => textOf d.node .name
  | none => textOf n .name

def variableUse (p : Printing) (n : Node) : Pieces :=
  match p.target n .declaration with
  | some d =>
    if p.outlives d.id then do
      let name := Tree.shown (← lift (d.node.text .name))
      return [s!"(sa_state->{name})"]
    else textOf d.node .name
  | none => textOf n .name

/-- The extra arguments of a call of a function with states. -/
def machineArguments : String := "(void*)(sa_state + 1), sa_wf, sa_result"

def parenthesized (n : Node) (ps : Pieces) : Pieces := do
  let ps ← ps
  return if n.flag .parenthesis then ["("] ++ ps ++ [")"] else ps

/-- The arguments of a call in parentheses, with commas between them. -/
def argumentPieces (args : List (List String)) : List String :=
  ["("] ++ [", "].intercalate args ++ [")"]

/-- The operator of a postfix expression; its name begins with a word that is not printed. -/
def postfixOperator (n : Node) : Pieces := do
  return (← textOf n .operator).map fun s => String.ofList (s.toList.drop 4)

/-- The arguments of an operator, of which there must be a certain number. -/
def exactly (count : Nat) (args : Except Unprintable (List Pieces)) :
    Except Unprintable (List Pieces) := do
  let args ← args
  if args.length = count then return args else throw (.fault .argumentCount)

def argumentAt (args : List Pieces) (i : Nat) : Pieces :=
  match args[i]? with
  | some ps => ps
  | none => .error (.fault .outOfRange)

/-- The pieces of an expression without the parentheses around it. -/
def bare (p : Printing) : Tree → Pieces
  | .mk n cs =>
    match n.kind with
    | .assignment => do
      let left ← inRole .left cs
      let right ← inRole .right cs
      return left ++ ["="] ++ right
    | .conditional => do
      let condition ← inRole .condition cs
      let yes ← inRole .whenTrue cs
      let no ← inRole .whenFalse cs
      return condition ++ ["?"] ++ yes ++ [":"] ++ no
    | .binaryOperator => do
      let args ← exactly 2 (arguments cs)
      let left ← argumentAt args 0
      let op ← textOf n .operator
      let right ← argumentAt args 1
      return left ++ op ++ right
    | .memberBinary => do
      let args ← exactly 1 (arguments cs)
      let left ← inRole .expression cs
      let op ← textOf n .operator
      let right ← argumentAt args 0
      return left ++ op ++ right
    | .unary => do
      let _ ← exactly 0 (arguments cs)
      let op ← textOf n .operator
      let operand ← inRole .expression cs
      return op ++ operand
    | .postUnary => do
      let _ ← exactly 0 (arguments cs)
      let operand ← inRole .expression cs
      let op ← postfixOperator n
      return operand ++ op
    | .dereference => do
      let operand ← inRole .expression cs
      return "*" :: operand
    | .addressOf => do
      let operand ← inRole .expression cs
      return "&" :: operand
    | .literal | .integerLiteral | .booleanLiteral => textOf n .literal
    | .memberAccess => do
      let object ← inRole .expression cs
      let name ← textOf n .name
      return object ++ [if n.flag .arrow then "->" else "."] ++ name
    | .cast => do
      let t ← p.typeIn (.mk n cs) .castType
      let e ← inRole .expression cs
      return ["("] ++ t ++ [")"] ++ e
    | .trivialCast => inRole .expression cs
    | .variableUse => p.variableUse n
    | .call => do
      let name ← p.referredName n
      let args ← (← arguments cs).mapM id
      return name ++ argumentPieces args
    | .callSubResult =>
      match p.target n .declaration with
      | some d => textOf d.node .name
      | none => .error (.fault .noMember)
    | .machineArgument => .ok [machineArguments]
    | .refType | .simpleType | .pointerType => p.type (.mk n cs)
    | k => .error (.unsupported k)
where
  inRole (r : Role) : List (Role × Tree) → Pieces
    | [] => .error (.fault .emptySlot)
    | (r', t) :: rest => if r' = r then parenthesized t.node (p.bare t) else inRole r rest
  arguments : List (Role × Tree) → Except Unprintable (List Pieces)
    | [] => .error (.fault .emptySlot)
    | (r, .mk _ as) :: rest => if r = .argumentList then .ok (each as) else arguments rest
  each : List (Role × Tree) → List Pieces
    | [] => []
    | (_, t) :: rest => parenthesized t.node (p.bare t) :: each rest

def expression (p : Printing) (t : Tree) : Pieces := parenthesized t.node (p.bare t)

def expressionIn (p : Printing) (t : Tree) (r : Role) : Pieces :=
  match t.child? r with
  | some e => p.expression e
  | none => .error (.fault .emptySlot)

def argumentsOf (p : Printing) (t : Tree) : Except Unprintable (List Pieces) :=
  match t.child? .argumentList with
  | some args => .ok ((args.inRole .arguments).map p.expression)
  | none => .error (.fault .emptySlot)

end Printing

end Resumable
