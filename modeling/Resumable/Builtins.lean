import Resumable.Signature

/-!
# Built-in declarations

The types that every program knows, with their operators and casts, and the pointer types that are
made when a program needs them.
-/

namespace Resumable

namespace Builtins

/-- The operators of truth values that are declared outside of the type. -/
def boolOperators : List String := [
  "@this-type @op ==( @this-type, @this-type );",
  "@this-type @op !=( @this-type, @this-type );",
  "@this-type @op &&( @this-type, @this-type );",
  "@this-type @op ||( @this-type, @this-type );"]

/-- The operators that belong to the type of truth values. -/
def boolMembers : List String := ["@this-type @op !( );"]

/-- The operators of numbers that are declared outside of their types. -/
def intOperators : List String := [
  "@this-type @op +( @this-type, @this-type );",
  "@this-type @op -( @this-type, @this-type );",
  "@this-type @op *( @this-type, @this-type );",
  "@this-type @op /( @this-type, @this-type );",
  "@this-type @op %( @this-type, @this-type );",
  "@this-type @op &( @this-type, @this-type );",
  "@this-type @op ^( @this-type, @this-type );",
  "@this-type @op |( @this-type, @this-type );",
  "bool @op ==( @this-type, @this-type );",
  "bool @op !=( @this-type, @this-type );",
  "bool @op <( @this-type, @this-type );",
  "bool @op >( @this-type, @this-type );",
  "bool @op <=( @this-type, @this-type );",
  "bool @op >=( @this-type, @this-type );"]

def intMembers : List String := [
  "@this-type @op +=( @this-type );",
  "@this-type @op -=( @this-type );",
  "@this-type @op *=( @this-type );",
  "@this-type @op /=( @this-type );",
  "@this-type @op %=( @this-type );",
  "@this-type @op &=( @this-type );",
  "@this-type @op ^=( @this-type );",
  "@this-type @op |=( @this-type );",
  "@this-type @op +( );",
  "@this-type @op -( );",
  "@this-type @op ~( );",
  "@this-type @op ++( );",
  "@this-type @op --( );",
  "@this-type @op post++( );",
  "@this-type @op post--( );"]

def pointerMembers : List String := [
  "@this-type @op +( uint32_t );",
  "@this-type @op -( uint32_t );",
  "@this-type @op []( uint32_t );"]

def intTypes : List (String × List String) := [
  ("uint8_t", ["sa_int_literal"]),
  ("uint16_t", ["sa_int_literal", "uint8_t"]),
  ("uint32_t", ["sa_int_literal", "uint8_t", "uint16_t"]),
  ("int8_t", ["sa_int_literal"]),
  ("int16_t", ["sa_int_literal", "int8_t"])]

section

variable {σ : Type} [HasLog σ]

def castRule (origin : Origin) (type : NodeId) (source : String) : Step σ Tree := do
  let c ← newNode .castRule origin
  let s ← newNode .simpleType origin
  let t ← newNode .refType origin
  return .mk c [(.sourceType, .mk (s.named source) []),
    (.targetType, .mk (t.setLink .typeDeclaration (some type)) [])]

/-- A type of numbers or truth values: its declaration, and the operators outside of it. -/
def intType (origin : Origin) (name : String) (operators members casts : List String) :
    Step σ (List Tree) := do
  let t ← newNode .intDecl origin
  let l ← newNode .declarationList origin
  let outer ← operators.mapM (Signature.operator origin t.id)
  let inner ← members.mapM (Signature.operator origin t.id)
  let c ← newNode .declarationList origin
  let rules ← casts.mapM (castRule origin t.id)
  let tree := Tree.mk (t.named name)
    [(.operators, .mk l (inner.map (Role.declarations, ·))),
      (.castRules, .mk c (rules.map (Role.declarations, ·)))]
  return tree :: outer

def basicType (origin : Origin) (name : String) : Step σ Tree := do
  return .mk ((← newNode .basicDecl origin).named name) []

def boolLiteral (origin : Origin) (value : Bool) : Step σ Tree := do
  let name := if value then "true" else "false"
  let d ← newNode .constantDefine origin
  let e ← newNode .booleanLiteral origin
  let e := (e.setText .literal (some name)).setFlag .value value
  return .mk (d.named name) [(.expression, .mk e [])]

def all (origin : Origin) : Step σ Tree := do
  let l ← newNode .declarationList origin
  let void ← newNode .voidDecl origin
  let basics ← ["_zc_dont_care", "sa_int_literal", "sa_bool_literal"].mapM (basicType origin)
  let yes ← boolLiteral origin true
  let no ← boolLiteral origin false
  let bool ← intType origin "bool" boolOperators boolMembers
    ["sa_bool_literal", "sa_int_literal"]
  let ints ← intTypes.mapM fun (name, casts) =>
    intType origin name intOperators intMembers casts
  let trees := .mk (void.named "void") [] :: basics ++ [yes, no] ++ bool ++ ints.flatten
  return .mk l (trees.map (Role.declarations, ·))

def pointerTo (type : NodeId) (name : String) : Step σ Tree := do
  let p ← newNode .pointerDecl .internal
  let members ← pointerMembers.mapM (Signature.operator .internal p.id)
  let p := (p.named (name ++ "*")).setLink .pointerOf (some type)
  return .mk p (members.map (Role.members, ·))

end

end Builtins

end Resumable
