import Resumable.Construction.Expressions

/-!
# Statements

The syntax trees of statements. The body of a loop or of a branch is always a list of statements;
a body without braces is an error, but it is put into a list of its own so that the construction
can go on.
-/

namespace Resumable

namespace Construction

def asList (s : Tree) : Step Log Tree := do
  if s.kind.isA .statement then
    if s.kind = .statementList then return s
    let n ← newNode .statementList s.origin
    return .mk n [(.statements, s)]
  else throw .wrongKind

def body (message : String) (p : Option Constituent) : Step Log Tree := do
  match p with
  | none => throw .noMember
  | some p =>
    let s ← p.one
    unless s.kind = .statementList do reportError p.parse.origin message
    asList s

def bareLoopBody : String := "Single statement without curly braces \x7b\x7d not allowed"

def bareBranch : String := "Single stmt without curly braces \x7b\x7d not allowed"

def optional (role : Role) (p : Option Constituent) : Step Log (List (Role × Tree)) :=
  match p with
  | none => return []
  | some p => do return [(role, ← p.one)]

def asStatements (ts : List Tree) : Step Log (List (Role × Tree)) :=
  ts.mapM fun t =>
    if t.kind.isA .statement then return (Role.statements, t) else throw .wrongKind

def expressionStatement (t : ParseTree) (parts : List Constituent) : Step Log Tree :=
  match Constituent.first? parts .expression with
  | none => return .mk (← newNode .nop t.origin) []
  | some p => do
    let e ← p.one
    let kind := if e.kind = .call then Kind.callStatement else .expressionStatement
    return .mk (← newNode kind t.origin) [(.expression, e)]

def ifStatement (t : ParseTree) (parts : List Constituent) : Step Log Tree := do
  let n ← newNode .ifElse t.origin
  let c ← Constituent.need (Constituent.first? parts .expression)
  match Constituent.ofRule parts .statement with
  | [] => throw .noMember
  | first :: rest => do
    let a ← body bareBranch (some first)
    let b ←
      match rest with
      | [] => pure []
      | second :: _ => do pure [(Role.elseBranch, ← body bareBranch (some second))]
    return .mk n ([(.expression, c), (.thenBranch, a)] ++ b)

def whileStatement (kind : Kind) (t : ParseTree) (parts : List Constituent) : Step Log Tree := do
  let n ← newNode kind t.origin
  let c ← Constituent.need (Constituent.first? parts .expression)
  let b ← body bareLoopBody (Constituent.first? parts .statement)
  return .mk n [(.expression, c), (.body, b)]

def forLoop (n : Node) (start : List (Role × Tree)) (parts : List Constituent) : Step Log Tree := do
  let c ← optional .condition (Constituent.first? parts .expression)
  let i ← optional .iteration (Constituent.first? parts .iterationExpression)
  let b ← body bareLoopBody (Constituent.first? parts .statement)
  return .mk n (start ++ c ++ i ++ [(.body, b)])

def statementForm (f : Form) (t : ParseTree) (parts : List Constituent) : Step Log Tree :=
  match f with
  | .of .compoundStatement => do
    let n ← newNode .statementList t.origin
    let items ← (Constituent.ofRule parts .blockItem).mapM fun p => do asStatements (← p.build)
    return .mk n items.flatten
  | .of .expressionStatement => expressionStatement t parts
  | .ifStatement => ifStatement t parts
  | .whileStatement => whileStatement .whileLoop t parts
  | .doWhileStatement => whileStatement .doWhileLoop t parts
  | .forStatement => do
    let n ← newNode .forLoop t.origin
    let s ← optional .start (Constituent.first? parts .initExpression)
    forLoop n s parts
  | .declForStatement => do
    -- the declaration stands in a block around the loop
    let l ← newNode .statementList t.origin
    let d ←
      match Constituent.first? parts .declaration with
      | some p => asStatements (← p.build)
      | none => throw .noMember
    let n ← newNode .forLoop t.origin
    let loop ← forLoop n [] parts
    return .mk l (d ++ [(.statements, loop)])
  | .returnStatement => do
    let n ← newNode .returnStatement t.origin
    return .mk n (← optional .expression (Constituent.first? parts .expression))
  | _ => unsupportedForm t

end Construction

end Resumable
