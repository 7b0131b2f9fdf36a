import Resumable.Token

/-!
# Grammar rules and forms

The rules of the grammar by name, and the forms that a node of a parse tree can have: the rule
itself, or, for the four rules whose alternatives have names, the alternative.

A rule only begins with rules that stand before it in `Rule.all`; this is what makes the table of
the parser fill up in one pass.
-/

namespace Resumable

/-- The rules of the grammar. -/
inductive Rule where
  | storageClassSpecifier | structOrUnion | typeQualifier | functionSpecifier | typedefName
  | structOrUnionSpecifier | enumSpecifier | typeSpecifier | declarationSpecifier | pointer
  | directDeclarator | declarator | specifierQualifierList | directAbstractDeclarator
  | abstractDeclarator | typeName | unaryExpression | castExpression | logicalOrExpression
  | conditionalExpression | assignmentExpression | argumentExpressionList | expression
  | constantExpression | designator | designation | initializer | initializerList
  | initDeclarator | initDeclaratorList | staticAssertDeclaration | declaration
  | structDeclarator | structDeclaratorList | structDeclaration | enumerator | enumeratorList
  | parameterDeclaration | parameterTypeList | labeledStatement | compoundStatement
  | expressionStatement | selectionStatement | initExpression | iterationExpression
  | iterationStatement | jumpStatement | statement | blockItem | functionDefinition
  | includeDirective | defineConstantDirective | defineFunctionArgs | defineFunctionDirective
  | preprocessorDirective | externalDeclaration | compilationUnit
deriving Repr, DecidableEq, Hashable, Inhabited

namespace Rule

def all : List Rule :=
  [.storageClassSpecifier, .structOrUnion, .typeQualifier, .functionSpecifier, .typedefName,
   .structOrUnionSpecifier, .enumSpecifier, .typeSpecifier, .declarationSpecifier, .pointer,
   .directDeclarator, .declarator, .specifierQualifierList, .directAbstractDeclarator,
   .abstractDeclarator, .typeName, .unaryExpression, .castExpression, .logicalOrExpression,
   .conditionalExpression, .assignmentExpression, .argumentExpressionList, .expression,
   .constantExpression, .designator, .designation, .initializer, .initializerList,
   .initDeclarator, .initDeclaratorList, .staticAssertDeclaration, .declaration,
   .structDeclarator, .structDeclaratorList, .structDeclaration, .enumerator, .enumeratorList,
   .parameterDeclaration, .parameterTypeList, .labeledStatement, .compoundStatement,
   .expressionStatement, .selectionStatement, .initExpression, .iterationExpression,
   .iterationStatement, .jumpStatement, .statement, .blockItem, .functionDefinition,
   .includeDirective, .defineConstantDirective, .defineFunctionArgs, .defineFunctionDirective,
   .preprocessorDirective, .externalDeclaration, .compilationUnit]

def name : Rule → String
  | .storageClassSpecifier => "storageClassSpecifier"
  | .structOrUnion => "structOrUnion"
  | .typeQualifier => "typeQualifier"
  | .functionSpecifier => "functionSpecifier"
  | .typedefName => "typedefName"
  | .structOrUnionSpecifier => "structOrUnionSpecifier"
  | .enumSpecifier => "enumSpecifier"
  | .typeSpecifier => "typeSpecifier"
  | .declarationSpecifier => "declarationSpecifier"
  | .pointer => "pointer"
  | .directDeclarator => "directDeclarator"
  | .declarator => "declarator"
  | .specifierQualifierList => "specifierQualifierList"
  | .directAbstractDeclarator => "directAbstractDeclarator"
  | .abstractDeclarator => "abstractDeclarator"
  | .typeName => "typeName"
  | .unaryExpression => "unaryExpression"
  | .castExpression => "castExpression"
  | .logicalOrExpression => "logicalOrExpression"
  | .conditionalExpression => "conditionalExpression"
  | .assignmentExpression => "assignmentExpression"
  | .argumentExpressionList => "argumentExpressionList"
  | .expression => "expression"
  | .constantExpression => "constantExpression"
  | .designator => "designator"
  | .designation => "designation"
  | .initializer => "initializer"
  | .initializerList => "initializerList"
  | .initDeclarator => "initDeclarator"
  | .initDeclaratorList => "initDeclaratorList"
  | .staticAssertDeclaration => "staticAssertDeclaration"
  | .declaration => "declaration"
  | .structDeclarator => "structDeclarator"
  | .structDeclaratorList => "structDeclaratorList"
  | .structDeclaration => "structDeclaration"
  | .enumerator => "enumerator"
  | .enumeratorList => "enumeratorList"
  | .parameterDeclaration => "parameterDeclaration"
  | .parameterTypeList => "parameterTypeList"
  | .labeledStatement => "labeledStatement"
  | .compoundStatement => "compoundStatement"
  | .expressionStatement => "expressionStatement"
  | .selectionStatement => "selectionStatement"
  | .initExpression => "initExpression"
  | .iterationExpression => "iterationExpression"
  | .iterationStatement => "iterationStatement"
  | .jumpStatement => "jumpStatement"
  | .statement => "statement"
  | .blockItem => "blockItem"
  | .functionDefinition => "functionDefinition"
  | .includeDirective => "includeDirective"
  | .defineConstantDirective => "defineConstantDirective"
  | .defineFunctionArgs => "defineFunctionArgs"
  | .defineFunctionDirective => "defineFunctionDirective"
  | .preprocessorDirective => "preprocessorDirective"
  | .externalDeclaration => "externalDeclaration"
  | .compilationUnit => "compilationUnit"

def ofName? (s : String) : Option Rule := all.find? fun r => r.name == s

end Rule

/-- The forms of the nodes of a parse tree. -/
inductive Form where
  | of (r : Rule)
  | identifierExpression | integerLiteralExpression | floatingLiteralExpression
  | characterLiteralExpression | stringLiteralExpression | parenthesizedExpression
  | indexExpression | functionExpression | dotExpression | arrowExpression
  | postIncrementExpression | preIncrementExpression | unaryOperatorExpression
  | sizeOfTypeExpression | ifStatement | switchStatement | whileStatement | doWhileStatement
  | forStatement | declForStatement | gotoStatement | continueStatement | breakStatement
  | returnStatement
deriving Repr, DecidableEq, Hashable, Inhabited

namespace Form

def rule : Form → Rule
  | of r => r
  | identifierExpression | integerLiteralExpression | floatingLiteralExpression
  | characterLiteralExpression | stringLiteralExpression | parenthesizedExpression
  | indexExpression | functionExpression | dotExpression | arrowExpression
  | postIncrementExpression | preIncrementExpression | unaryOperatorExpression
  | sizeOfTypeExpression => .unaryExpression
  | ifStatement | switchStatement => .selectionStatement
  | whileStatement | doWhileStatement | forStatement | declForStatement => .iterationStatement
  | gotoStatement | continueStatement | breakStatement | returnStatement => .jumpStatement

def name : Form → String
  | of r => r.name
  | identifierExpression => "identifierExpression"
  | integerLiteralExpression => "integerLiteralExpression"
  | floatingLiteralExpression => "floatingLiteralExpression"
  | characterLiteralExpression => "characterLiteralExpression"
  | stringLiteralExpression => "stringLiteralExpression"
  | parenthesizedExpression => "parenthesizedExpression"
  | indexExpression => "indexExpression"
  | functionExpression => "functionExpression"
  | dotExpression => "dotExpression"
  | arrowExpression => "arrowExpression"
  | postIncrementExpression => "postIncrementExpression"
  | preIncrementExpression => "preIncrementExpression"
  | unaryOperatorExpression => "unaryOperatorExpression"
  | sizeOfTypeExpression => "sizeOfTypeExpression"
  | ifStatement => "ifStatement"
  | switchStatement => "switchStatement"
  | whileStatement => "whileStatement"
  | doWhileStatement => "doWhileStatement"
  | forStatement => "forStatement"
  | declForStatement => "declForStatement"
  | gotoStatement => "gotoStatement"
  | continueStatement => "continueStatement"
  | breakStatement => "breakStatement"
  | returnStatement => "returnStatement"

/-- The name under which trees are shown: capitalised, and marked as a context. -/
def title (f : Form) : String :=
  match f.name.toList with
  | [] => "Context"
  | c :: cs => String.ofList (c.toUpper :: cs) ++ "Context"

end Form

end Resumable
