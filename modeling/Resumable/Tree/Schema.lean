import Resumable.Tree.Kind

/-!
# What nodes hold

For each kind, the schema gives the places for children, in the order in which they are visited,
and the attributes that a new node has.
-/

namespace Resumable

/-! ## Places for children -/

/-- The parts that a child can play for its parent. -/
inductive Role where
  | statements | expression | declaredType | initializer | thenBranch | elseBranch | body
  | start | condition | iteration | aliasedType | arguments | argumentList | structType
  | whenTrue | whenFalse | left | right | replaced | castType | pointedType
  | pointer | operators | castRules | members | declarations | declaration | returnType
  | parameters | parameterType | sourceType | targetType | declarationList
  | elements | builtins | manifest | papi | source
deriving Repr, DecidableEq, Inhabited

/-- How many children a place takes. -/
inductive Arity where
  | one
  | optional
  | many
deriving Repr, DecidableEq, Inhabited

/-- A place for children. -/
structure Slot where
  role : Role
  allowed : Kind
  arity : Arity
deriving Repr, DecidableEq, Inhabited

namespace Kind

/-- The places of a kind, in the order in which they are visited. -/
def slots : Kind → List Slot
  | statementList => [⟨.statements, statement, .many⟩]
  | returnStatement => [⟨.expression, expression, .optional⟩]
  | variableDeclaration =>
    [⟨.declaredType, typeRef, .one⟩, ⟨.initializer, expression, .optional⟩]
  | expressionStatement | callStatement | callSub | constantDefine | staticAssert =>
    [⟨.expression, expression, .one⟩]
  | ifElse =>
    [⟨.expression, expression, .one⟩, ⟨.thenBranch, statementList, .one⟩,
      ⟨.elseBranch, statementList, .optional⟩]
  | whileLoop | doWhileLoop =>
    [⟨.expression, expression, .one⟩, ⟨.body, statementList, .one⟩]
  | forLoop =>
    [⟨.start, expression, .optional⟩, ⟨.condition, expression, .optional⟩,
      ⟨.iteration, expression, .optional⟩, ⟨.body, statementList, .one⟩]
  | typedefStatement => [⟨.aliasedType, typeRef, .one⟩]
  | papiWait | papiSleep => [⟨.argumentList, argumentList, .one⟩]
  | readFields => [⟨.structType, typeRef, .one⟩]
  | call | operator | binaryOperator => [⟨.argumentList, argumentList, .one⟩]
  | memberAccess | trivialCast | dereference | addressOf => [⟨.expression, expression, .one⟩]
  | staticValue => [⟨.replaced, expression, .optional⟩]
  | assignment => [⟨.left, expression, .one⟩, ⟨.right, expression, .one⟩]
  | conditional =>
    [⟨.condition, expression, .one⟩, ⟨.whenTrue, expression, .one⟩,
      ⟨.whenFalse, expression, .one⟩]
  | memberOperator | memberBinary | unary | postUnary | index =>
    [⟨.expression, expression, .one⟩, ⟨.argumentList, argumentList, .one⟩]
  | cast => [⟨.castType, typeRef, .one⟩, ⟨.expression, expression, .one⟩]
  | pointerType => [⟨.pointedType, typeRef, .one⟩]
  | addressableDecl | basicDecl | voidDecl => [⟨.pointer, typeDecl, .optional⟩]
  | intDecl =>
    [⟨.pointer, typeDecl, .optional⟩, ⟨.operators, declarationList, .one⟩,
      ⟨.castRules, declarationList, .one⟩]
  | structDecl | pointerDecl => [⟨.pointer, typeDecl, .optional⟩, ⟨.members, node, .many⟩]
  | declarationList | argumentDeclList => [⟨.declarations, node, .many⟩]
  | argumentList => [⟨.arguments, expression, .many⟩]
  | functionDecl | papiFunctionDecl | operatorDecl =>
    [⟨.returnType, typeRef, .one⟩, ⟨.parameters, argumentDeclList, .one⟩]
  | functionDefinition =>
    [⟨.declaration, functionDecl, .one⟩, ⟨.body, statementList, .one⟩]
  | argumentDecl => [⟨.parameterType, typeRef, .one⟩]
  | attributeDecl => [⟨.declaredType, typeRef, .one⟩]
  | castRule => [⟨.sourceType, typeRef, .one⟩, ⟨.targetType, typeRef, .one⟩]
  | pluginSource => [⟨.declarationList, declarationList, .one⟩]
  | pluginManifest => [⟨.elements, node, .many⟩]
  | root =>
    [⟨.builtins, declarationList, .one⟩, ⟨.manifest, pluginManifest, .one⟩,
      ⟨.papi, pluginSource, .optional⟩, ⟨.source, pluginSource, .optional⟩]
  | node | statement | nop | errorStatement | loop | machine | mainFirst | initFirst | subFirst
  | debugState | beforeSub | afterSub | beforeReturn | writeFields | expression
  | errorExpression | literal | integerLiteral | booleanLiteral | variableUse | callSubResult
  | machineArgument | typeRef | refType | simpleType | invalidType | typeDecl | callableDecl
  | directive | includeFile => []

def slot? (k : Kind) (r : Role) : Option Slot := k.slots.find? (·.role == r)

end Kind

/-! ## Attributes -/

/-- Attributes that hold a text. -/
inductive TextKey where
  | name | literal | operator | handlerState | handlerWait | initState | waitFor
  | body | fileName | description | pluginPrefix | includeGuard
  | other (name : String)
deriving Repr, DecidableEq, Inhabited

def TextKey.title : TextKey → String
  | name => "name"
  | literal => "literal"
  | operator => "operator"
  | initState => "arg1"
  | handlerState => "arg2"
  | handlerWait => "arg5"
  | waitFor => "wait_for"
  | body => "body"
  | fileName => "file_name"
  | description => "description"
  | pluginPrefix => "prefix"
  | includeGuard => "include_guard"
  | other s => s

def TextKey.ofTitle (s : String) : TextKey :=
  ([name, literal, operator, initState, handlerState, handlerWait, waitFor, body, fileName,
    description, pluginPrefix, includeGuard].find? (·.title == s)).getD (other s)

/-- Attributes that point to another node. -/
inductive LinkKey where
  | declaration | typeDeclaration | castType | pointerOf
  | other (name : String)
deriving Repr, DecidableEq, Inhabited

def LinkKey.title : LinkKey → String
  | declaration => "declaration"
  | typeDeclaration => "type_declaration"
  | castType => "cast_type"
  | pointerOf => "pointer_of"
  | other s => s

def LinkKey.ofTitle (s : String) : LinkKey :=
  ([declaration, typeDeclaration, castType, pointerOf].find? (·.title == s)).getD (other s)

/-- Attributes that hold a yes or no. -/
inductive FlagKey where
  | parenthesis | arrow | value | constant | static | inlined | blocking | mainMachine
  | other (name : String)
deriving Repr, DecidableEq, Inhabited

/-- Attributes that hold a number. -/
inductive NumberKey where
  | value | lastState | nextState | least | greatest
  | other (name : String)
deriving Repr, DecidableEq, Inhabited

namespace Kind

/-- The text attributes of a new node. They hold nothing yet. -/
def texts : Kind → List TextKey
  | variableDeclaration | typedefStatement | call | memberAccess | variableUse | simpleType
  | invalidType | typeDecl | addressableDecl | basicDecl | voidDecl | intDecl | structDecl
  | pointerDecl | functionDecl | papiFunctionDecl | operatorDecl | argumentDecl | attributeDecl
  | constantDefine | callSub => [.name]
  | mainFirst => [.handlerState, .handlerWait]
  | initFirst => [.initState]
  | papiWait => [.name, .waitFor]
  | literal | integerLiteral | booleanLiteral => [.literal]
  | operator | binaryOperator | memberOperator | memberBinary | unary | postUnary | index =>
    [.operator]
  | directive => [.body]
  | includeFile => [.fileName]
  | staticAssert => [.description]
  | pluginManifest => [.pluginPrefix, .includeGuard]
  | _ => []

def links : Kind → List LinkKey
  | call | memberAccess | variableUse | assignment | operator | binaryOperator | memberOperator
  | memberBinary | unary | postUnary | index | callSubResult => [.declaration]
  | trivialCast => [.castType]
  | typeRef | refType | simpleType | invalidType | pointerType => [.typeDeclaration]
  | pointerDecl => [.pointerOf]
  | _ => []

def flags (k : Kind) : List FlagKey :=
  (if k.isA expression then [.parenthesis] else []) ++
  match k with
  | memberAccess => [.arrow]
  | booleanLiteral => [.value]
  | simpleType | pointerType => [.constant]
  | functionDecl | papiFunctionDecl | operatorDecl => [.static, .inlined]
  | machine => [.mainMachine]
  | _ => []

def numbers : Kind → List (NumberKey × Option Int)
  | integerLiteral => [(.value, some 0)]
  | castRule => [(.least, some 0), (.greatest, some 0)]
  | machine => [(.lastState, some 0)]
  | debugState | beforeSub | callSub | papiWait | papiSleep => [(.nextState, none)]
  | _ => []

end Kind

end Resumable
