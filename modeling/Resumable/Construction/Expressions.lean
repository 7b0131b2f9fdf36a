import Resumable.Construction.Types

/-!
# Expressions

The syntax trees of expressions.
-/

namespace Resumable

namespace Construction

def blockingFunctions : List String :=
  ["papi_sleep", "papi_wait_for_spi_send", "papi_wait_for_i2c_send", "papi_wait_for_spi_receive",
    "papi_wait_for_i2c_receive"]

def binaryOperators : List String :=
  ["&&", "||", "*", "/", "%", "+", "-", "<", ">", "<=", ">=", "==", "!="]

def textAt (t : ParseTree) (i : Nat) : String := ((t.children[i]?).map (·.text)).getD ""

def originAt (t : ParseTree) (i : Nat) : Origin := ((t.children[i]?).map (·.origin)).getD .unknown

def argumentList (origin : Origin) (parts : List Constituent) : Step Log Tree := do
  let n ← newNode .argumentList origin
  let args ← parts.mapM fun p => do return (Role.arguments, ← p.one)
  return .mk n args

def errorExpression (t : ParseTree) (message : String) : Step Log Tree := do
  reportError t.origin message
  return .mk (← newNode .errorExpression t.origin) []

def memberOperator (kind : Kind) (operator : String) (t : ParseTree) (operand : Option Constituent)
    (arguments : List Constituent) : Step Log Tree := do
  let n ← newNode kind t.origin
  let e ← Constituent.need operand
  let args ← argumentList t.origin arguments
  return .mk (n.setText .operator (some operator)) [(.expression, e), (.argumentList, args)]

def calledName (callee : Option ParseTree) : Option Token :=
  callee.bind fun t =>
    match t.form? with
    | some .identifierExpression | some .dotExpression | some .arrowExpression =>
      t.token? .identifier
    | _ => none

def call (t : ParseTree) (parts : List Constituent) : Step Log Tree := do
  let callee := t.child? .unaryExpression
  if callee.bind (·.form?) ≠ some .identifierExpression then
    reportError t.origin "Unsupported function call syntax"
  let n ← newNode .call t.origin
  let nameToken := calledName callee
  let name ← identifierText nameToken
  let n := (n.named name).setFlag .blocking (blockingFunctions.contains name)
  let n := { n with nameSpot := nameToken.map (·.spot) }
  -- the arguments stand one level further down, below a list
  let args ←
    match Constituent.first? parts .argumentExpressionList with
    | some list =>
      let l ← newNode .argumentList (originAt t 1)
      let es ← list.build
      pure (Tree.mk l (es.map (Role.arguments, ·)))
    | none => argumentList (originAt t 1) []
  return .mk n [(.argumentList, args)]

def memberAccess (arrow : Bool) (t : ParseTree) (parts : List Constituent) : Step Log Tree := do
  let n ← newNode .memberAccess t.origin
  let e ← Constituent.need (Constituent.first? parts .unaryExpression)
  let name ← identifierText (t.token? .identifier)
  return .mk ((n.named name).setFlag .arrow arrow) [(.expression, e)]

def prefixed (t : ParseTree) (parts : List Constituent) : Step Log Tree := do
  let operand := Constituent.first? parts .castExpression
  match textAt t 0 with
  | "*" => do
    let n ← newNode .dereference t.origin
    return .mk n [(.expression, ← Constituent.need operand)]
  | "&" => do
    let n ← newNode .addressOf t.origin
    return .mk n [(.expression, ← Constituent.need operand)]
  | op => memberOperator .unary op t operand []

def unaryForm (f : Form) (t : ParseTree) (parts : List Constituent) : Step Log Tree :=
  let operand := Constituent.first? parts .unaryExpression
  match f with
  | .identifierExpression => do
    match t.token? .identifier with
    | none => throw .noMember
    | some tok =>
      let n ← newNode .variableUse (.leaf tok.spot)
      return .mk (n.named (← identifierText (some tok))) []
  | .integerLiteralExpression => do
    let n ← newNode .integerLiteral t.origin
    return .mk (n.setText .literal (some t.text)) []
  | .floatingLiteralExpression => errorExpression t "Floating literals not supported"
  | .characterLiteralExpression => errorExpression t "Character literals not supported"
  | .stringLiteralExpression => errorExpression t "string literal not supported"
  | .sizeOfTypeExpression => errorExpression t "sizeof not supported"
  | .parenthesizedExpression => do
    let e ← Constituent.need (Constituent.first? parts .expression)
    return e.mapNode (·.setFlag .parenthesis true)
  | .indexExpression => memberOperator .index "[]" t operand (Constituent.ofRule parts .expression)
  | .functionExpression => call t parts
  | .dotExpression => memberAccess false t parts
  | .arrowExpression => memberAccess true t parts
  | .postIncrementExpression => memberOperator .postUnary ("post" ++ textAt t 1) t operand []
  | .preIncrementExpression => memberOperator .unary (textAt t 0) t operand []
  | .unaryOperatorExpression => prefixed t parts
  | _ => unsupportedForm t

def operatorForm (r : Rule) (t : ParseTree) (parts : List Constituent) : Step Log Tree :=
  match r with
  | .castExpression =>
    match Constituent.first? parts .unaryExpression with
    | some p => p.one
    | none => do
      let n ← newNode .cast t.origin
      let type ←
        match t.child? .typeName with
        | some name => typeName name
        | none => throw .noMember
      let e ← Constituent.need (Constituent.first? parts .castExpression)
      return .mk n [(.castType, type), (.expression, e)]
  | .logicalOrExpression =>
    match Constituent.first? parts .castExpression with
    | some p => p.one
    | none => do
      let op := textAt t 1
      unless binaryOperators.contains op do
        reportError t.origin s!"Operator '{op}' not supported"
      let n ← newNode .binaryOperator t.origin
      let args ← argumentList t.origin (Constituent.ofRule parts .logicalOrExpression)
      return .mk (n.setText .operator (some op)) [(.argumentList, args)]
  | .conditionalExpression =>
    match Constituent.first? parts .expression with
    | none => Constituent.need (Constituent.first? parts .logicalOrExpression)
    | some whenTrue => do
      let n ← newNode .conditional t.origin
      let c ← Constituent.need (Constituent.first? parts .logicalOrExpression)
      let a ← whenTrue.one
      let b ← Constituent.need (Constituent.first? parts .conditionalExpression)
      return .mk n [(.condition, c), (.whenTrue, a), (.whenFalse, b)]
  | .assignmentExpression =>
    match Constituent.first? parts .conditionalExpression with
    | some p => p.one
    | none => do
      let left := Constituent.first? parts .unaryExpression
      let right := Constituent.first? parts .assignmentExpression
      let op := textAt t 1
      if op = "=" then
        let n ← newNode .assignment t.origin
        let l ← Constituent.need left
        let r ← Constituent.need right
        return .mk n [(.left, l), (.right, r)]
      else memberOperator .memberBinary op t left right.toList
  | .expression =>
    match Constituent.ofRule parts .assignmentExpression with
    | [p] => p.one
    -- expressions in a row have no meaning
    | _ => throw .noMember
  | .constantExpression => Constituent.need (Constituent.first? parts .conditionalExpression)
  | _ => unsupportedForm t

end Construction

end Resumable
