import Resumable.Grammar.Rule

/-!
# The grammar

The grammar of the C dialect as data. A rule has plain alternatives, and it may have alternatives
that begin with the rule itself. Those are kept apart as tails: what follows the leading operand,
together with the binding strength of the alternative.
-/

namespace Resumable

/-- The right side of a rule. -/
inductive Body where
  | done
  | token (k : TokenKind)
  /-- A rule, of whose tails only those that bind at least as strongly as `level` may be used. -/
  | rule (r : Rule) (level : Nat)
  | seq (a b : Body)
  | alt (a b : Body)
  | opt (a : Body)
  | many (a : Body)
deriving Repr, DecidableEq, Inhabited

namespace Body

def all : List Body → Body
  | [] => done
  | [b] => b
  | b :: bs => seq b (all bs)

def any : List Body → Body
  | [] => done
  | [b] => b
  | b :: bs => alt b (any bs)

def atLeastOnce (b : Body) : Body := seq b (many b)

def commas (b : Body) : Body := seq b (many (seq (token (.punct .comma)) b))

end Body

/-- An alternative of a rule. -/
structure Alternative where
  form : Form
  body : Body
deriving Repr, DecidableEq, Inhabited

/-- An alternative that begins with its own rule: what follows the leading operand. -/
structure Tail where
  strength : Nat
  form : Form
  body : Body
deriving Repr, DecidableEq, Inhabited

/-- What a rule consists of. -/
structure Definition where
  plain : List Alternative
  tails : List Tail := []
deriving Repr, DecidableEq, Inhabited

namespace Grammar

open Body

def sign (p : Punct) : Body := token (.punct p)

def word (k : Keyword) : Body := token (.keyword k)

def ref (r : Rule) : Body := rule r 0

def oneOf (ps : List Punct) : Body := any (ps.map sign)

def wordOf (ks : List Keyword) : Body := any (ks.map word)

def parens (b : Body) : Body := all [sign .leftParen, b, sign .rightParen]

def unnamed (r : Rule) (bodies : List Body) : Definition :=
  { plain := bodies.map fun b => ⟨.of r, b⟩ }

/-- The levels of the binary operators, from the tightest to the loosest. -/
def binaryLevels : List (List Punct) := [
  [.star, .div, .mod],
  [.plus, .minus],
  [.leftShift, .rightShift],
  [.less, .greater, .lessEqual, .greaterEqual],
  [.equal, .notEqual],
  [.and],
  [.caret],
  [.or],
  [.andAnd],
  [.orOr]]

/-- The tails of the binary operators. The tightest level binds with strength `n`, each further
one with one less; a right operand must bind more strongly than its operator. -/
def binaryTails (n : Nat) : List (List Punct) → List Tail
  | [] => []
  | ops :: rest =>
    ⟨n, .of .logicalOrExpression, seq (oneOf ops) (rule .logicalOrExpression (n + 1))⟩
      :: binaryTails (n - 1) rest

def assignments : List Punct :=
  [.assign, .starAssign, .divAssign, .modAssign, .plusAssign, .minusAssign, .leftShiftAssign,
   .rightShiftAssign, .andAssign, .xorAssign, .orAssign]

def typeWords : List Keyword :=
  [.kwVoid, .kwChar, .kwShort, .kwInt, .kwLong, .kwFloat, .kwDouble, .kwSigned, .kwUnsigned,
   .kwBool, .kwComplex]

/-- Operands with a sign in front or behind, calls, and members. -/
def unaryExpression : Definition :=
  let expression := ref .expression
  let name := token .identifier
  { plain := [
      ⟨.identifierExpression, name⟩,
      ⟨.integerLiteralExpression, token .integerConstant⟩,
      ⟨.floatingLiteralExpression, token .floatingConstant⟩,
      ⟨.characterLiteralExpression, token .characterConstant⟩,
      ⟨.stringLiteralExpression, atLeastOnce (token .stringLiteral)⟩,
      ⟨.parenthesizedExpression, parens expression⟩,
      ⟨.preIncrementExpression,
        seq (oneOf [.plusPlus, .minusMinus]) (rule .unaryExpression 3)⟩,
      ⟨.unaryOperatorExpression,
        seq (oneOf [.and, .star, .plus, .minus, .tilde, .not]) (ref .castExpression)⟩,
      ⟨.sizeOfTypeExpression, seq (word .kwSizeof) (parens (ref .typeName))⟩]
    tails := [
      ⟨8, .indexExpression, all [sign .leftBracket, expression, sign .rightBracket]⟩,
      ⟨7, .functionExpression, parens (opt (ref .argumentExpressionList))⟩,
      ⟨6, .dotExpression, seq (sign .dot) name⟩,
      ⟨5, .arrowExpression, seq (sign .arrow) name⟩,
      ⟨4, .postIncrementExpression, oneOf [.plusPlus, .minusMinus]⟩] }

def declarations : Rule → Option Definition
  | .storageClassSpecifier =>
    unnamed .storageClassSpecifier
      ([.kwTypedef, .kwExtern, .kwStatic, .kwThreadLocal, .kwAuto, .kwRegister].map word)
  | .structOrUnion => unnamed .structOrUnion [word .kwStruct, word .kwUnion]
  | .typeQualifier => unnamed .typeQualifier [word .kwConst]
  | .functionSpecifier => unnamed .functionSpecifier [wordOf [.kwInline, .kwNoreturn]]
  | .typedefName => unnamed .typedefName [token .identifier]
  | .structOrUnionSpecifier =>
    unnamed .structOrUnionSpecifier [
      all [ref .structOrUnion, opt (token .identifier), sign .leftBrace,
        atLeastOnce (ref .structDeclaration), sign .rightBrace],
      seq (ref .structOrUnion) (token .identifier)]
  | .enumSpecifier =>
    let head := seq (word .kwEnum) (opt (token .identifier))
    unnamed .enumSpecifier [
      all [head, sign .leftBrace, ref .enumeratorList, sign .rightBrace],
      all [head, sign .leftBrace, ref .enumeratorList, sign .comma, sign .rightBrace],
      seq (word .kwEnum) (token .identifier)]
  | .typeSpecifier =>
    unnamed .typeSpecifier [
      wordOf typeWords, ref .structOrUnionSpecifier, ref .enumSpecifier, ref .typedefName]
  | .declarationSpecifier =>
    unnamed .declarationSpecifier
      ([.storageClassSpecifier, .typeSpecifier, .typeQualifier, .functionSpecifier].map ref)
  | .pointer =>
    unnamed .pointer [all [sign .star, many (ref .typeQualifier), opt (ref .pointer)]]
  | .directDeclarator =>
    some {
      plain := [⟨.of .directDeclarator, token .identifier⟩]
      tails := [⟨1, .of .directDeclarator, parens (opt (ref .parameterTypeList))⟩] }
  | .declarator => unnamed .declarator [seq (opt (ref .pointer)) (ref .directDeclarator)]
  | .specifierQualifierList =>
    unnamed .specifierQualifierList
      ([.typeSpecifier, .typeQualifier].map fun r =>
        seq (ref r) (opt (ref .specifierQualifierList)))
  | .directAbstractDeclarator =>
    some {
      plain := [
        ⟨.of .directAbstractDeclarator, parens (ref .abstractDeclarator)⟩,
        ⟨.of .directAbstractDeclarator, parens (opt (ref .parameterTypeList))⟩]
      tails := [⟨1, .of .directAbstractDeclarator, parens (opt (ref .parameterTypeList))⟩] }
  | .abstractDeclarator =>
    unnamed .abstractDeclarator [
      ref .pointer, seq (opt (ref .pointer)) (ref .directAbstractDeclarator)]
  | .typeName =>
    unnamed .typeName [seq (ref .specifierQualifierList) (opt (ref .abstractDeclarator))]
  | .designator =>
    unnamed .designator [
      all [sign .leftBracket, ref .constantExpression, sign .rightBracket],
      seq (sign .dot) (token .identifier)]
  | .designation => unnamed .designation [seq (atLeastOnce (ref .designator)) (sign .assign)]
  | .initializer =>
    unnamed .initializer [
      ref .assignmentExpression,
      all [sign .leftBrace, ref .initializerList, opt (sign .comma), sign .rightBrace]]
  | .initializerList =>
    some {
      plain := [⟨.of .initializerList, seq (opt (ref .designation)) (ref .initializer)⟩]
      tails := [⟨1, .of .initializerList,
        all [sign .comma, opt (ref .designation), ref .initializer]⟩] }
  | .initDeclarator =>
    unnamed .initDeclarator [
      ref .declarator, all [ref .declarator, sign .assign, ref .initializer]]
  | .initDeclaratorList => unnamed .initDeclaratorList [commas (ref .initDeclarator)]
  | .staticAssertDeclaration =>
    unnamed .staticAssertDeclaration [
      all [word .kwStaticAssert, sign .leftParen, ref .constantExpression, sign .comma,
        atLeastOnce (token .stringLiteral), sign .rightParen, sign .semi]]
  | .declaration =>
    unnamed .declaration [
      all [atLeastOnce (ref .declarationSpecifier), opt (ref .initDeclaratorList), sign .semi],
      ref .staticAssertDeclaration]
  | .structDeclarator =>
    unnamed .structDeclarator [
      ref .declarator,
      all [opt (ref .declarator), sign .colon, ref .constantExpression]]
  | .structDeclaratorList => unnamed .structDeclaratorList [commas (ref .structDeclarator)]
  | .structDeclaration =>
    unnamed .structDeclaration [
      all [ref .specifierQualifierList, opt (ref .structDeclaratorList), sign .semi],
      ref .staticAssertDeclaration]
  | .enumerator =>
    unnamed .enumerator [
      seq (token .identifier) (opt (seq (sign .assign) (ref .constantExpression)))]
  | .enumeratorList => unnamed .enumeratorList [commas (ref .enumerator)]
  | .parameterDeclaration =>
    unnamed .parameterDeclaration [
      seq (atLeastOnce (ref .declarationSpecifier)) (ref .declarator),
      seq (atLeastOnce (ref .declarationSpecifier)) (opt (ref .abstractDeclarator))]
  | .parameterTypeList =>
    unnamed .parameterTypeList [
      seq (commas (ref .parameterDeclaration)) (opt (seq (sign .comma) (sign .ellipsis)))]
  | _ => none

def expressions : Rule → Option Definition
  | .unaryExpression => unaryExpression
  | .castExpression =>
    unnamed .castExpression [
      ref .unaryExpression, seq (parens (ref .typeName)) (ref .castExpression)]
  | .logicalOrExpression =>
    some {
      plain := [⟨.of .logicalOrExpression, ref .castExpression⟩]
      tails := binaryTails 10 binaryLevels }
  | .conditionalExpression =>
    unnamed .conditionalExpression [
      ref .logicalOrExpression,
      all [ref .logicalOrExpression, sign .question, ref .expression, sign .colon,
        ref .conditionalExpression]]
  | .assignmentExpression =>
    unnamed .assignmentExpression [
      ref .conditionalExpression,
      all [ref .unaryExpression, oneOf assignments, ref .assignmentExpression]]
  | .argumentExpressionList =>
    unnamed .argumentExpressionList [commas (ref .assignmentExpression)]
  | .expression => unnamed .expression [commas (ref .assignmentExpression)]
  | .constantExpression => unnamed .constantExpression [ref .conditionalExpression]
  | _ => none

def statements : Rule → Option Definition
  | .labeledStatement =>
    unnamed .labeledStatement [
      all [token .identifier, sign .colon, ref .statement],
      all [word .kwCase, ref .constantExpression, sign .colon, ref .statement],
      all [word .kwDefault, sign .colon, ref .statement]]
  | .compoundStatement =>
    unnamed .compoundStatement [
      all [sign .leftBrace, many (ref .blockItem), sign .rightBrace]]
  | .expressionStatement =>
    unnamed .expressionStatement [seq (opt (ref .expression)) (sign .semi)]
  | .selectionStatement =>
    some {
      plain := [
        ⟨.ifStatement, all [word .kwIf, parens (ref .expression), ref .statement,
          opt (seq (word .kwElse) (ref .statement))]⟩,
        ⟨.switchStatement, all [word .kwSwitch, parens (ref .expression), ref .statement]⟩] }
  | .initExpression => unnamed .initExpression [ref .expression]
  | .iterationExpression => unnamed .iterationExpression [ref .expression]
  | .iterationStatement =>
    some {
      plain := [
        ⟨.whileStatement, all [word .kwWhile, parens (ref .expression), ref .statement]⟩,
        ⟨.doWhileStatement, all [word .kwDo, ref .statement, word .kwWhile,
          parens (ref .expression), sign .semi]⟩,
        ⟨.forStatement, all [word .kwFor, sign .leftParen, opt (ref .initExpression),
          sign .semi, opt (ref .expression), sign .semi, opt (ref .iterationExpression),
          sign .rightParen, ref .statement]⟩,
        ⟨.declForStatement, all [word .kwFor, sign .leftParen, ref .declaration,
          opt (ref .expression), sign .semi, opt (ref .iterationExpression),
          sign .rightParen, ref .statement]⟩] }
  | .jumpStatement =>
    some {
      plain := [
        ⟨.gotoStatement, all [word .kwGoto, token .identifier, sign .semi]⟩,
        ⟨.continueStatement, seq (word .kwContinue) (sign .semi)⟩,
        ⟨.breakStatement, seq (word .kwBreak) (sign .semi)⟩,
        ⟨.returnStatement, all [word .kwReturn, opt (ref .expression), sign .semi]⟩] }
  | .statement =>
    unnamed .statement
      ([.labeledStatement, .compoundStatement, .expressionStatement, .selectionStatement,
        .iterationStatement, .jumpStatement].map ref)
  | .blockItem => unnamed .blockItem [ref .declaration, ref .statement]
  | _ => none

def units : Rule → Option Definition
  | .functionDefinition =>
    unnamed .functionDefinition [
      all [many (ref .declarationSpecifier), ref .declarator, many (ref .declaration),
        ref .compoundStatement]]
  | .includeDirective =>
    unnamed .includeDirective [seq (token .hashInclude) (token .stringLiteral)]
  | .defineConstantDirective =>
    unnamed .defineConstantDirective [
      all [token .hashDefine, token .identifier, ref .expression]]
  | .defineFunctionArgs =>
    unnamed .defineFunctionArgs [
      parens (seq (token .identifier)
        (atLeastOnce (seq (sign .comma) (token .identifier))))]
  | .defineFunctionDirective =>
    unnamed .defineFunctionDirective [
      all [token .hashDefine, token .identifier, ref .defineFunctionArgs, ref .expression]]
  | .preprocessorDirective =>
    unnamed .preprocessorDirective [
      token .lineDirective, token .pragmaDirective, ref .includeDirective,
      ref .defineConstantDirective, ref .defineFunctionDirective]
  | .externalDeclaration =>
    unnamed .externalDeclaration [
      ref .functionDefinition, ref .declaration, ref .preprocessorDirective, sign .semi]
  | .compilationUnit =>
    unnamed .compilationUnit [seq (many (ref .externalDeclaration)) (token .endOfFile)]
  | _ => none

end Grammar

def Rule.definition (r : Rule) : Definition :=
  (Grammar.expressions r <|> Grammar.statements r <|> Grammar.units r
    <|> Grammar.declarations r).getD { plain := [] }

end Resumable
