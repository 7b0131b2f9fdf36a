/-!
# Kinds of nodes

The syntax tree is uniform: every node has a kind, and the kind says what the node means. Kinds
refine each other (a `do` loop is a `while` loop, which is a loop, which is a statement), so a
rule that is stated for a kind holds for all its refinements.
-/

namespace Resumable

/-- The kinds of nodes of the syntax tree. -/
inductive Kind where
  | node
  -- statements
  | statement
  | statementList | nop | errorStatement | returnStatement | variableDeclaration
  | expressionStatement | ifElse | callStatement
  | loop
  | whileLoop | doWhileLoop | forLoop | typedefStatement
  -- statements that cutting a function into states brings in
  | machine
  | mainFirst | initFirst | subFirst | debugState | beforeSub | afterSub
  | callSub
  | beforeReturn
  | papiWait
  | papiSleep
  -- bodies of the functions generated from a manifest
  | readFields | writeFields
  -- expressions
  | expression
  | errorExpression | call | memberAccess
  | literal
  | integerLiteral | booleanLiteral | staticValue
  | trivialCast
  | variableUse | assignment | conditional
  | operator
  | binaryOperator
  | memberOperator
  | memberBinary | unary | postUnary | index
  | dereference | addressOf | cast
  | callSubResult
  /-- The extra arguments that are passed to a function with states. -/
  | machineArgument
  -- type references
  | typeRef
  | refType | simpleType | invalidType | pointerType
  -- type declarations
  | typeDecl
  | addressableDecl
  | basicDecl | voidDecl | intDecl | structDecl | pointerDecl
  -- other declarations
  | declarationList | argumentDeclList | argumentList
  | callableDecl
  | functionDecl | papiFunctionDecl | operatorDecl | functionDefinition | argumentDecl
  | attributeDecl | castRule
  -- top level
  | directive | includeFile | constantDefine | staticAssert
  | pluginSource | pluginManifest | root
deriving Repr, DecidableEq, Inhabited

namespace Kind

def all : List Kind :=
  [node, statement, statementList, nop, errorStatement, returnStatement, variableDeclaration,
    expressionStatement, ifElse, callStatement, loop, whileLoop, doWhileLoop, forLoop,
    typedefStatement, machine, mainFirst, initFirst, subFirst, debugState, beforeSub, afterSub,
    callSub, beforeReturn, papiWait, papiSleep, readFields, writeFields, expression,
    errorExpression, call, memberAccess, literal, integerLiteral, booleanLiteral, staticValue,
    trivialCast, variableUse, assignment, conditional, operator, binaryOperator, memberOperator,
    memberBinary, unary, postUnary, index, dereference, addressOf, cast, callSubResult,
    machineArgument, typeRef, refType, simpleType, invalidType, pointerType, typeDecl,
    addressableDecl, basicDecl, voidDecl, intDecl, structDecl, pointerDecl, declarationList,
    argumentDeclList, argumentList, callableDecl, functionDecl, papiFunctionDecl, operatorDecl,
    functionDefinition, argumentDecl, attributeDecl, castRule, directive, includeFile,
    constantDefine, staticAssert, pluginSource, pluginManifest, root]

def title : Kind → String
  | node => "Node"
  | statement => "StatementNode"
  | statementList => "StmtListNode"
  | nop => "NopStmtNode"
  | errorStatement => "ErrorStmtNode"
  | returnStatement => "ReturnStmtNode"
  | variableDeclaration => "VariableDeclarationStmtNode"
  | expressionStatement => "ExpressionStmtNode"
  | ifElse => "IfElseStmtNode"
  | callStatement => "FunctionCallStmtNode"
  | loop => "LoopStmtNode"
  | whileLoop => "WhileStmtNode"
  | doWhileLoop => "DoWhileStmtNode"
  | forLoop => "ForStmtNode"
  | typedefStatement => "TypedefStmtNode"
  | machine => "StateMachineStmtNode"
  | mainFirst => "MainFirstStmtNode"
  | initFirst => "InitFirstStmtNode"
  | subFirst => "SubFirstStmtNode"
  | debugState => "DebugStateStmtNode"
  | beforeSub => "BeforeSubStmtNode"
  | afterSub => "AfterSubStmtNode"
  | callSub => "FunctionCallSubStmtNode"
  | beforeReturn => "BeforeReturnStmtNode"
  | papiWait => "PapiWaitStmtNode"
  | papiSleep => "PapiSleepStmtNode"
  | readFields => "ParserStmtNode"
  | writeFields => "ComposerStmtNode"
  | expression => "ExpressionNode"
  | errorExpression => "ErrorExprNode"
  | call => "FunctionCallExprNode"
  | memberAccess => "MemberAccessExprNode"
  | literal => "LiteralExprNode"
  | integerLiteral => "IntegerLiteralExprNode"
  | booleanLiteral => "BooleanLiteralExprNode"
  | staticValue => "StaticEvaluatedExprNode"
  | trivialCast => "TrivialCastExprNode"
  | variableUse => "VariableExprNode"
  | assignment => "AssignmentExprNode"
  | conditional => "ConditionalExprNode"
  | operator => "OperatorExprNode"
  | binaryOperator => "BinaryOpExprNode"
  | memberOperator => "MemberOperatorExprNode"
  | memberBinary => "MemberBinaryOpExprNode"
  | unary => "UnaryOpExprNode"
  | postUnary => "PostUnaryOpExprNode"
  | index => "IndexOpExprNode"
  | dereference => "PointerExprNode"
  | addressOf => "AddressOfExprNode"
  | cast => "CastExprNode"
  | callSubResult => "FunctionCallSubExprNode"
  | machineArgument => "StatefullCallArgumentExprNode"
  | typeRef => "TypeNode"
  | refType => "RefTypeNode"
  | simpleType => "SimpleTypeNode"
  | invalidType => "InvalidTypeNode"
  | pointerType => "PointerTypeNode"
  | typeDecl => "TypeDeclNode"
  | addressableDecl => "CTypeDeclNode"
  | basicDecl => "BasicTypeDeclNode"
  | voidDecl => "VoidTypeDeclNode"
  | intDecl => "IntTypeDeclNode"
  | structDecl => "StructTypeDeclNode"
  | pointerDecl => "PointerTypeDeclNode"
  | declarationList => "DeclarationListNode"
  | argumentDeclList => "ArgumentDeclListNode"
  | argumentList => "ArgumentListNode"
  | callableDecl => "CallableDeclNode"
  | functionDecl => "FunctionDeclNode"
  | papiFunctionDecl => "PapiFunctionDeclNode"
  | operatorDecl => "OperatorDeclNode"
  | functionDefinition => "FunctionDefinitionNode"
  | argumentDecl => "ArgumentDeclNode"
  | attributeDecl => "AttributeDeclarationNode"
  | castRule => "TrivialCastRuleNode"
  | directive => "PreprocessorDirectiveNode"
  | includeFile => "IncludeFileNode"
  | constantDefine => "ConstantDefineNode"
  | staticAssert => "StaticAssertStmtNode"
  | pluginSource => "PluginSourceNode"
  | pluginManifest => "PluginManifestNode"
  | root => "RootNode"

def ofTitle? (s : String) : Option Kind := all.find? (·.title == s)

def base : Kind → Kind
  | whileLoop | forLoop => loop
  | doWhileLoop => whileLoop
  | statementList | nop | errorStatement | returnStatement | variableDeclaration
  | expressionStatement | ifElse | callStatement | loop | typedefStatement | machine | mainFirst
  | initFirst | subFirst | debugState | beforeSub | afterSub | callSub | beforeReturn | papiWait
  | papiSleep | readFields | writeFields => statement
  | integerLiteral | booleanLiteral => literal
  | binaryOperator => operator
  | memberBinary | unary | postUnary | index => memberOperator
  | errorExpression | call | memberAccess | literal | staticValue | trivialCast | variableUse
  | assignment | conditional | operator | memberOperator | dereference | addressOf | cast
  | callSubResult | machineArgument => expression
  | refType | simpleType | invalidType | pointerType => typeRef
  | addressableDecl => typeDecl
  | basicDecl | voidDecl | intDecl | structDecl | pointerDecl => addressableDecl
  | argumentDeclList => declarationList
  | functionDecl => callableDecl
  | papiFunctionDecl | operatorDecl => functionDecl
  | node | statement | expression | typeRef | typeDecl | declarationList | argumentList
  | callableDecl | functionDefinition | argumentDecl | attributeDecl | castRule | directive
  | includeFile | constantDefine | staticAssert | pluginSource | pluginManifest | root => node

/-- A kind and the kinds that it refines, nearest first. A chain has at most four steps. -/
def lineage (k : Kind) : List Kind := go 4 k
where
  go : Nat → Kind → List Kind
    | 0, k => [k]
    | n + 1, k => if k = node then [node] else k :: go n k.base

def isA (k other : Kind) : Bool := k.lineage.contains other

/-- Declarations with a type of their own that is found by resolution. -/
def declares (k : Kind) : Bool :=
  k.isA typeDecl || k.isA functionDecl || k == argumentDecl || k == variableDeclaration ||
    k == typedefStatement || k == attributeDecl || k == constantDefine

end Kind

end Resumable
