/-!
# Tokens

The kinds of token of the C dialect, with the name and the spelling of each, and the tokens that
the lexer produces from a text.
-/

namespace Resumable

/-- The reserved words. -/
inductive Keyword where
  | kwAuto | kwBreak | kwCase | kwChar | kwConst | kwContinue | kwDefault | kwDo | kwDouble
  | kwElse | kwEnum | kwExtern | kwFloat | kwFor | kwGoto | kwIf | kwInline | kwInt | kwLong
  | kwRegister | kwRestrict | kwReturn | kwShort | kwSigned | kwSizeof | kwStatic | kwStruct
  | kwSwitch | kwTypedef | kwUnion | kwUnsigned | kwVoid | kwVolatile | kwWhile | kwAlignas
  | kwAlignof | kwAtomic | kwBool | kwComplex | kwGeneric | kwImaginary | kwNoreturn
  | kwStaticAssert | kwThreadLocal
deriving Repr, DecidableEq, Hashable, Inhabited

namespace Keyword

def all : List Keyword :=
  [.kwAuto, .kwBreak, .kwCase, .kwChar, .kwConst, .kwContinue, .kwDefault, .kwDo, .kwDouble,
   .kwElse, .kwEnum, .kwExtern, .kwFloat, .kwFor, .kwGoto, .kwIf, .kwInline, .kwInt, .kwLong,
   .kwRegister, .kwRestrict, .kwReturn, .kwShort, .kwSigned, .kwSizeof, .kwStatic, .kwStruct,
   .kwSwitch, .kwTypedef, .kwUnion, .kwUnsigned, .kwVoid, .kwVolatile, .kwWhile, .kwAlignas,
   .kwAlignof, .kwAtomic, .kwBool, .kwComplex, .kwGeneric, .kwImaginary, .kwNoreturn,
   .kwStaticAssert, .kwThreadLocal]

def spelling : Keyword → String
  | .kwAuto => "auto"
  | .kwBreak => "break"
  | .kwCase => "case"
  | .kwChar => "char"
  | .kwConst => "const"
  | .kwContinue => "continue"
  | .kwDefault => "default"
  | .kwDo => "do"
  | .kwDouble => "double"
  | .kwElse => "else"
  | .kwEnum => "enum"
  | .kwExtern => "extern"
  | .kwFloat => "float"
  | .kwFor => "for"
  | .kwGoto => "goto"
  | .kwIf => "if"
  | .kwInline => "inline"
  | .kwInt => "int"
  | .kwLong => "long"
  | .kwRegister => "register"
  | .kwRestrict => "restrict"
  | .kwReturn => "return"
  | .kwShort => "short"
  | .kwSigned => "signed"
  | .kwSizeof => "sizeof"
  | .kwStatic => "static"
  | .kwStruct => "struct"
  | .kwSwitch => "switch"
  | .kwTypedef => "typedef"
  | .kwUnion => "union"
  | .kwUnsigned => "unsigned"
  | .kwVoid => "void"
  | .kwVolatile => "volatile"
  | .kwWhile => "while"
  | .kwAlignas => "_Alignas"
  | .kwAlignof => "_Alignof"
  | .kwAtomic => "_Atomic"
  | .kwBool => "_Bool"
  | .kwComplex => "_Complex"
  | .kwGeneric => "_Generic"
  | .kwImaginary => "_Imaginary"
  | .kwNoreturn => "_Noreturn"
  | .kwStaticAssert => "_Static_assert"
  | .kwThreadLocal => "_Thread_local"

def name : Keyword → String
  | .kwAuto => "Auto"
  | .kwBreak => "Break"
  | .kwCase => "Case"
  | .kwChar => "Char"
  | .kwConst => "Const"
  | .kwContinue => "Continue"
  | .kwDefault => "Default"
  | .kwDo => "Do"
  | .kwDouble => "Double"
  | .kwElse => "Else"
  | .kwEnum => "Enum"
  | .kwExtern => "Extern"
  | .kwFloat => "Float"
  | .kwFor => "For"
  | .kwGoto => "Goto"
  | .kwIf => "If"
  | .kwInline => "Inline"
  | .kwInt => "Int"
  | .kwLong => "Long"
  | .kwRegister => "Register"
  | .kwRestrict => "Restrict"
  | .kwReturn => "Return"
  | .kwShort => "Short"
  | .kwSigned => "Signed"
  | .kwSizeof => "Sizeof"
  | .kwStatic => "Static"
  | .kwStruct => "Struct"
  | .kwSwitch => "Switch"
  | .kwTypedef => "Typedef"
  | .kwUnion => "Union"
  | .kwUnsigned => "Unsigned"
  | .kwVoid => "Void"
  | .kwVolatile => "Volatile"
  | .kwWhile => "While"
  | .kwAlignas => "Alignas"
  | .kwAlignof => "Alignof"
  | .kwAtomic => "Atomic"
  | .kwBool => "Bool"
  | .kwComplex => "Complex"
  | .kwGeneric => "Generic"
  | .kwImaginary => "Imaginary"
  | .kwNoreturn => "Noreturn"
  | .kwStaticAssert => "StaticAssert"
  | .kwThreadLocal => "ThreadLocal"

end Keyword

/-- The signs. -/
inductive Punct where
  | leftParen | rightParen | leftBracket | rightBracket | leftBrace | rightBrace | less
  | lessEqual | greater | greaterEqual | leftShift | rightShift | plus | plusPlus | minus
  | minusMinus | star | div | mod | and | or | andAnd | orOr | caret | not | tilde | question
  | colon | semi | comma | assign | starAssign | divAssign | modAssign | plusAssign | minusAssign
  | leftShiftAssign | rightShiftAssign | andAssign | xorAssign | orAssign | equal | notEqual
  | arrow | dot | ellipsis
deriving Repr, DecidableEq, Hashable, Inhabited

namespace Punct

def all : List Punct :=
  [.leftParen, .rightParen, .leftBracket, .rightBracket, .leftBrace, .rightBrace, .less,
   .lessEqual, .greater, .greaterEqual, .leftShift, .rightShift, .plus, .plusPlus, .minus,
   .minusMinus, .star, .div, .mod, .and, .or, .andAnd, .orOr, .caret, .not, .tilde, .question,
   .colon, .semi, .comma, .assign, .starAssign, .divAssign, .modAssign, .plusAssign,
   .minusAssign, .leftShiftAssign, .rightShiftAssign, .andAssign, .xorAssign, .orAssign, .equal,
   .notEqual, .arrow, .dot, .ellipsis]

def spelling : Punct → String
  | .leftParen => "("
  | .rightParen => ")"
  | .leftBracket => "["
  | .rightBracket => "]"
  | .leftBrace => "\x7b"
  | .rightBrace => "\x7d"
  | .less => "<"
  | .lessEqual => "<="
  | .greater => ">"
  | .greaterEqual => ">="
  | .leftShift => "<<"
  | .rightShift => ">>"
  | .plus => "+"
  | .plusPlus => "++"
  | .minus => "-"
  | .minusMinus => "--"
  | .star => "*"
  | .div => "/"
  | .mod => "%"
  | .and => "&"
  | .or => "|"
  | .andAnd => "&&"
  | .orOr => "||"
  | .caret => "^"
  | .not => "!"
  | .tilde => "~"
  | .question => "?"
  | .colon => ":"
  | .semi => ";"
  | .comma => ","
  | .assign => "="
  | .starAssign => "*="
  | .divAssign => "/="
  | .modAssign => "%="
  | .plusAssign => "+="
  | .minusAssign => "-="
  | .leftShiftAssign => "<<="
  | .rightShiftAssign => ">>="
  | .andAssign => "&="
  | .xorAssign => "^="
  | .orAssign => "|="
  | .equal => "=="
  | .notEqual => "!="
  | .arrow => "->"
  | .dot => "."
  | .ellipsis => "..."

def name : Punct → String
  | .leftParen => "LeftParen"
  | .rightParen => "RightParen"
  | .leftBracket => "LeftBracket"
  | .rightBracket => "RightBracket"
  | .leftBrace => "LeftBrace"
  | .rightBrace => "RightBrace"
  | .less => "Less"
  | .lessEqual => "LessEqual"
  | .greater => "Greater"
  | .greaterEqual => "GreaterEqual"
  | .leftShift => "LeftShift"
  | .rightShift => "RightShift"
  | .plus => "Plus"
  | .plusPlus => "PlusPlus"
  | .minus => "Minus"
  | .minusMinus => "MinusMinus"
  | .star => "Star"
  | .div => "Div"
  | .mod => "Mod"
  | .and => "And"
  | .or => "Or"
  | .andAnd => "AndAnd"
  | .orOr => "OrOr"
  | .caret => "Caret"
  | .not => "Not"
  | .tilde => "Tilde"
  | .question => "Question"
  | .colon => "Colon"
  | .semi => "Semi"
  | .comma => "Comma"
  | .assign => "Assign"
  | .starAssign => "StarAssign"
  | .divAssign => "DivAssign"
  | .modAssign => "ModAssign"
  | .plusAssign => "PlusAssign"
  | .minusAssign => "MinusAssign"
  | .leftShiftAssign => "LeftShiftAssign"
  | .rightShiftAssign => "RightShiftAssign"
  | .andAssign => "AndAssign"
  | .xorAssign => "XorAssign"
  | .orAssign => "OrAssign"
  | .equal => "Equal"
  | .notEqual => "NotEqual"
  | .arrow => "Arrow"
  | .dot => "Dot"
  | .ellipsis => "Ellipsis"

end Punct

/-- The kinds of token. -/
inductive TokenKind where
  | hashInclude
  | hashDefine
  | keyword (k : Keyword)
  | punct (p : Punct)
  | identifier
  | integerConstant
  | floatingConstant
  | characterConstant
  | stringLiteral
  | lineDirective
  | pragmaDirective
  | whitespace
  | newline
  | blockComment
  | lineComment
  | endOfFile
deriving Repr, DecidableEq, Hashable, Inhabited

namespace TokenKind

def name : TokenKind → String
  | hashInclude => "'#include'"
  | hashDefine => "'#define'"
  | keyword k => k.name
  | punct p => p.name
  | identifier => "Identifier"
  | integerConstant => "IntegerConstant"
  | floatingConstant => "FloatingConstant"
  | characterConstant => "CharacterConstant"
  | stringLiteral => "StringLiteral"
  | lineDirective => "LineDirective"
  | pragmaDirective => "PragmaDirective"
  | whitespace => "Whitespace"
  | newline => "Newline"
  | blockComment => "BlockComment"
  | lineComment => "LineComment"
  | endOfFile => "EOF"

def hidden : TokenKind → Bool
  | whitespace | newline | blockComment | lineComment => true
  | _ => false

end TokenKind

/-- A token: what it is, its text, and where it stands. Lines count from one, columns from zero;
`index` is its number among all tokens of the text, hidden ones included. -/
structure Token where
  kind : TokenKind
  text : String
  line : Nat
  column : Nat
  index : Nat
deriving Repr, DecidableEq, Inhabited

end Resumable
