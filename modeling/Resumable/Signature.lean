import Resumable.Decimal.Reading
import Resumable.Tree

/-!
# Signatures

Declarations that are given as a line of text, such as `void f( const uint8_t* data );`. The text
is cut into words at blanks, parentheses, commas and semicolons; a base type may have stars at the
end of its word.
-/

namespace Resumable

namespace Signature

/-- Whether a character separates the words of a signature. -/
def separates (c : Char) : Bool :=
  Text.isBlank c || c == '(' || c == ',' || c == ')' || c == ';'

def words (text : String) : List String := Text.wordsBy separates [] text.toList

def splitStars (word : String) : String × Nat :=
  let reversed := word.toList.reverse
  (String.ofList (reversed.dropWhile (· == '*')).reverse, (reversed.takeWhile (· == '*')).length)

section

variable {σ : Type} [HasLog σ]

def pointersTo (origin : Origin) : Nat → Tree → Step σ Tree
  | 0, t => return t
  | n + 1, t => do
    let p ← newNode .pointerType origin
    pointersTo origin n (.mk p [(.pointedType, t)])

def wordAt (ws : List String) (i : Nat) : Step σ String :=
  match ws[i]? with
  | some w => return w
  | none => throw .outOfRange

def parameters (origin : Origin) : List String → Step σ (List (Role × Tree))
  | [] => return []
  | first :: rest => do
    let a ← newNode .argumentDecl origin
    let base ← newNode .simpleType origin
    match first, rest with
    | "const", [] => throw .outOfRange
    | "const", word :: rest =>
      finish a (base.setFlag .constant true) word rest
    | word, rest => finish a base word rest
where
  /-- Reads the rest of a parameter, from its type word on, and the parameters behind it. -/
  finish (a base : Node) (word : String) : List String → Step σ (List (Role × Tree))
    | [] => do
      let (_, stars) := splitStars word
      let _ ← pointersTo origin stars (.mk base [])
      throw .outOfRange
    | name :: rest => do
      let (baseName, stars) := splitStars word
      let t ← pointersTo origin stars (.mk (base.named baseName) [])
      let later ← parameters origin rest
      return (.declarations, .mk (a.named name) [(.parameterType, t)]) :: later

def function (origin : Origin) (text : String) : Step σ Tree := do
  match words text with
  | returnType :: name :: rest => do
    let d ← newNode .functionDecl origin
    let r ← newNode .simpleType origin
    let l ← newNode .argumentDeclList origin
    let ps ← parameters origin rest
    return .mk (d.named name)
      [(.returnType, .mk (r.named returnType) []), (.parameters, .mk l ps)]
  | _ => throw .badText

def define (origin : Origin) (text : String) : Step σ Tree := do
  match words text with
  | ["#define", name, value] => do
    let d ← newNode .constantDefine origin
    let e ← newNode .integerLiteral origin
    match Decimal.readInt value with
    | none => throw .notNumber
    | some i =>
      let e := (e.setText .literal (some value)).setNumber .value (some i)
      return .mk (d.named name) [(.expression, .mk e [])]
  | _ => throw .badText

def typeAlias (origin : Origin) (text : String) : Step σ Tree := do
  match words text with
  | ["typedef", word, name] => do
    let d ← newNode .typedefStatement origin
    let t ← newNode .simpleType origin
    let (baseName, stars) := splitStars word
    let t ← pointersTo origin stars (.mk (t.named baseName) [])
    return .mk (d.named name) [(.aliasedType, t)]
  | _ => throw .badText

/-- A type word of an operator: the type that the operator belongs to, or a named type. Pointers
around a named type are made and then left out. -/
def operandType (origin : Origin) (thisType : NodeId) (word : String) : Step σ Tree := do
  if word = "@this-type" then
    let t ← newNode .refType origin
    return .mk (t.setLink .typeDeclaration (some thisType)) []
  else
    let t ← newNode .simpleType origin
    let (baseName, stars) := splitStars word
    let _ ← pointersTo origin stars (.mk t [])
    return .mk (t.named baseName) []

def operator (origin : Origin) (thisType : NodeId) (text : String) : Step σ Tree := do
  match words text with
  | result :: "@op" :: rest => do
    let d ← newNode .operatorDecl origin
    let r ← operandType origin thisType result
    match rest with
    | [] => throw .outOfRange
    | name :: operands => do
      let l ← newNode .argumentDeclList origin
      let ps ← operands.mapM fun word => do
        let a ← newNode .argumentDecl origin
        let t ← operandType origin thisType word
        return (Role.declarations, Tree.mk a [(.parameterType, t)])
      return .mk (d.named name) [(.returnType, r), (.parameters, .mk l ps)]
  | _ => throw .badText

end

end Signature

end Resumable
