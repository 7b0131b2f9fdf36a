import Resumable.Token
import Resumable.Lexer.Pattern

/-!
# Token rules

The lexical rules of the language, as a list of token kinds with their patterns. Where two rules
describe the same text, the one that stands first in `TokenRule.all` wins, so every reserved word
stands before the identifiers.
-/

namespace Resumable

open Pattern

/-- A lexical rule. -/
structure TokenRule where
  kind : TokenKind
  pattern : Pattern

namespace TokenRule

/-! ## Pieces of rules -/

def digit : Pattern := chars (CharSet.range '0' '9')

def digits : Pattern := plus digit

def octalDigit : Pattern := chars (CharSet.range '0' '7')

def hexDigit : Pattern :=
  chars (((CharSet.range '0' '9').union (CharSet.range 'a' 'f')).union (CharSet.range 'A' 'F'))

def nondigit : Pattern :=
  chars (((CharSet.range 'a' 'z').union (CharSet.range 'A' 'Z')).union (CharSet.single '_'))

def hexQuad : Pattern := inOrder [hexDigit, hexDigit, hexDigit, hexDigit]

/-- A character named by the hexadecimal digits of its code. -/
def universalName : Pattern :=
  anyOf [inOrder [text "\\u", hexQuad], inOrder [text "\\U", hexQuad, hexQuad]]

def identifierStart : Pattern := anyOf [nondigit, universalName]

def identifier : Pattern := inOrder [identifierStart, star (anyOf [identifierStart, digit])]

def decimal : Pattern := inOrder [chars (CharSet.range '1' '9'), star digit]

def octal : Pattern := inOrder [text "0", star octalDigit]

def hexMark : Pattern := inOrder [text "0", oneOf "xX"]

def hexadecimal : Pattern := inOrder [hexMark, plus hexDigit]

def unsignedSuffix : Pattern := oneOf "uU"

def longSuffix : Pattern := oneOf "lL"

def longLongSuffix : Pattern := anyOf [text "ll", text "LL"]

def integerSuffix : Pattern :=
  anyOf [
    inOrder [unsignedSuffix, opt longSuffix],
    inOrder [unsignedSuffix, longLongSuffix],
    inOrder [longSuffix, opt unsignedSuffix],
    inOrder [longLongSuffix, opt unsignedSuffix]]

def integer : Pattern :=
  inOrder [anyOf [decimal, octal, hexadecimal], opt integerSuffix]

def sign : Pattern := oneOf "+-"

def exponent : Pattern := inOrder [oneOf "eE", opt sign, digits]

def binaryExponent : Pattern := inOrder [oneOf "pP", opt sign, digits]

def floatingSuffix : Pattern := oneOf "flFL"

def fractional : Pattern :=
  anyOf [inOrder [opt digits, text ".", digits], inOrder [digits, text "."]]

def hexFractional : Pattern :=
  anyOf [
    inOrder [opt (plus hexDigit), text ".", plus hexDigit],
    inOrder [plus hexDigit, text "."]]

def floating : Pattern :=
  anyOf [
    inOrder [fractional, opt exponent, opt floatingSuffix],
    inOrder [digits, exponent, opt floatingSuffix],
    inOrder [hexMark, hexFractional, binaryExponent, opt floatingSuffix],
    inOrder [hexMark, plus hexDigit, binaryExponent, opt floatingSuffix]]

def escape : Pattern :=
  anyOf [
    inOrder [text "\\", oneOf "'\"?abfnrtv\\"],
    inOrder [text "\\", octalDigit, opt octalDigit, opt octalDigit],
    inOrder [text "\\x", plus hexDigit],
    universalName]

def character : Pattern :=
  inOrder [opt (oneOf "LuU"), text "'",
    plus (anyOf [chars (CharSet.noneOf "\n\r'\\"), escape]), text "'"]

def string : Pattern :=
  inOrder [opt (anyOf [text "u8", text "u", text "U", text "L"]), text "\"",
    star (anyOf [chars (CharSet.noneOf "\n\r\"\\"), escape]), text "\""]

def spaces : Pattern := oneOf " \t"

def restOfLine : Pattern := star (chars (CharSet.noneOf "\n\r"))

def lineDirective : Pattern :=
  inOrder [text "#", star spaces, text "line", star spaces, decimal, star spaces, string,
    restOfLine]

def pragmaDirective : Pattern :=
  inOrder [text "#", star spaces, text "pragma", plus spaces, restOfLine]

/-- A block comment runs to the first `*/`: stars inside it are followed by neither a slash nor
the end of the text. -/
def blockComment : Pattern :=
  inOrder [text "/*",
    star (anyOf [chars (CharSet.noneOf "*"),
      inOrder [plus (text "*"), chars (CharSet.noneOf "*/")]]),
    plus (text "*"), text "/"]

/-! ## The rules in order -/

def classes : List TokenRule := [
  ⟨.identifier, identifier⟩,
  ⟨.integerConstant, integer⟩,
  ⟨.floatingConstant, floating⟩,
  ⟨.characterConstant, character⟩,
  ⟨.stringLiteral, string⟩,
  ⟨.lineDirective, lineDirective⟩,
  ⟨.pragmaDirective, pragmaDirective⟩,
  ⟨.whitespace, plus spaces⟩,
  ⟨.newline, anyOf [inOrder [text "\r", opt (text "\n")], text "\n"]⟩,
  ⟨.blockComment, blockComment⟩,
  ⟨.lineComment, inOrder [text "//", restOfLine]⟩]

/-- All rules; an earlier one wins over a later one on the same text. -/
def all : List TokenRule :=
  [⟨.hashInclude, text "#include"⟩, ⟨.hashDefine, text "#define"⟩]
    ++ Keyword.all.map (fun k => ⟨.keyword k, text k.spelling⟩)
    ++ Punct.all.map (fun p => ⟨.punct p, text p.spelling⟩)
    ++ classes

end TokenRule

end Resumable
