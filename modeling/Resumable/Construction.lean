import Resumable.Construction.Declarations

/-!
# Construction of syntax trees

The syntax tree of a whole parse tree. Every form of the grammar stands for a list of trees: an
expression or a statement for one, a declaration for one or, when it is rejected, for none.
-/

namespace Resumable

namespace Construction

/-- What a node stands for, from what its parts stand for. -/
def form (f : Form) (t : ParseTree) (parts : List Constituent) : Step Log (List Tree) :=
  let one (s : Step Log Tree) : Step Log (List Tree) := do return [← s]
  match f with
  | .of .argumentExpressionList =>
    -- a list of arguments stands for all of them
    return (← (Constituent.ofRule parts .assignmentExpression).mapM Constituent.build).flatten
  | .of .castExpression | .of .logicalOrExpression | .of .conditionalExpression
  | .of .assignmentExpression | .of .expression | .of .constantExpression =>
    one (operatorForm f.rule t parts)
  | .of .initExpression | .of .iterationExpression | .of .defineConstantDirective =>
    one (Constituent.need (Constituent.first? parts .expression))
  | .of .initializer =>
    match Constituent.first? parts .assignmentExpression with
    | some p => one p.one
    | none => unsupportedForm t
  | .of .initDeclarator => do
    match Constituent.first? parts .initializer with
    | some p => p.build
    | none => return []
  | .of .initDeclaratorList =>
    return (← (Constituent.ofRule parts .initDeclarator).mapM Constituent.build).flatten
  | .of .statement | .of .blockItem => do
    match parts with
    | p :: _ => p.build
    | [] => return []
  | .of .declaration => declaration t parts
  | .of .functionDefinition => functionDefinition t parts
  | .of .preprocessorDirective => directive t parts
  | .of .externalDeclaration => do
    match parts with
    | p :: _ => p.build
    | [] => return []
  | .of .compilationUnit =>
    return (← (Constituent.ofRule parts .externalDeclaration).mapM Constituent.build).flatten
  | .of .compoundStatement | .of .expressionStatement => one (statementForm f t parts)
  | .of _ => unsupportedForm t
  | f =>
    if f.rule = .unaryExpression then one (unaryForm f t parts)
    else one (statementForm f t parts)

def build : ParseTree → Step Log (List Tree)
  | .leaf _ => return []
  | .node f cs => form f (.node f cs) (go cs)
where
  go : List ParseTree → List Constituent
    | [] => []
    | c :: cs => ⟨c, build c⟩ :: go cs

/-- The syntax tree of a text. Errors that were found on the way end the stage. -/
def unit (pluginPrefix : String) (t : ParseTree) : Step Log Tree := do
  let s ← newNode .pluginSource t.origin
  let l ← newNode .declarationList t.origin
  let ds ← build t
  checkStage "syntax"
  let s := s.setText .pluginPrefix (some pluginPrefix)
  return .mk s [(.declarationList, .mk l (ds.map (Role.declarations, ·)))]

end Construction

end Resumable
