import Resumable.Text.Blank
import Resumable.Text.Digit

/-!
# Reading numbers

Whole numbers and decimal fractions as people write them in a manifest: blanks around the number,
a sign, digits of any script, and single underscores between digits.
-/

namespace Resumable.Decimal

open Text

def padding (c : Char) : Bool :=
  isBlank c && !(0x1c ≤ c.toNat && c.toNat ≤ 0x1f)

/-- The characters of a number without blanks around it, with the digits of other scripts written
as ASCII digits. -/
def normalize (s : String) : List Char :=
  let trimmed := ((s.toList.dropWhile padding).reverse.dropWhile padding).reverse
  trimmed.map fun c =>
    match digitValue? c with
    | some d => Char.ofNat ('0'.toNat + d)
    | none => c

/-- Splits off a sign; the flag says whether it is a minus. -/
def splitSign : List Char → Bool × List Char
  | '-' :: rest => (true, rest)
  | '+' :: rest => (false, rest)
  | cs => (false, cs)

/-- Removes underscores, each of which must stand between two digits. -/
def dropUnderscores : (afterDigit : Bool) → List Char → Option (List Char)
  | _, [] => some []
  | afterDigit, '_' :: c :: rest =>
    if afterDigit && c.isDigit then (dropUnderscores true rest).map (c :: ·) else none
  | _, ['_'] => none
  | _, c :: rest => (dropUnderscores c.isDigit rest).map (c :: ·)

def valueOf (digits : List Char) : Nat :=
  digits.foldl (fun n c => 10 * n + (c.toNat - '0'.toNat)) 0

def maxDigits : Nat := 4300

def readInt (s : String) : Option Int := do
  let (negative, rest) := splitSign (normalize s)
  let digits ← dropUnderscores false rest
  guard (!digits.isEmpty && digits.all Char.isDigit && digits.length ≤ maxDigits)
  let n : Int := valueOf digits
  return if negative then -n else n

/-- A decimal fraction: a whole number of tenths, hundredths and so on, with a sign. -/
structure Fraction where
  negative : Bool
  digits : Nat
  exponent : Int
deriving Repr, DecidableEq

/-- The numbers that a text can stand for. -/
inductive Reading where
  | finite (f : Fraction)
  | infinite (negative : Bool)
  | notANumber (negative : Bool)
deriving Repr, DecidableEq

/-- Reads an exponent: nothing, or the letter e and a whole number. -/
def readExponent : List Char → Option Int
  | [] => some 0
  | c :: rest =>
    if c = 'e' ∨ c = 'E' then
      let (negative, digits) := splitSign rest
      if digits.isEmpty || !digits.all Char.isDigit then none
      else
        let n : Int := valueOf digits
        some (if negative then -n else n)
    else none

/-- Reads a decimal fraction, an infinity or a value that is no number. -/
def readReal (s : String) : Option Reading := do
  let chars ← dropUnderscores false (normalize s)
  let (negative, rest) := splitSign chars
  let word := String.ofList (rest.map Char.toLower)
  if word = "inf" ∨ word = "infinity" then return .infinite negative
  if word = "nan" then return .notANumber negative
  let whole := rest.takeWhile Char.isDigit
  let rest := rest.dropWhile Char.isDigit
  let (part, rest) :=
    match rest with
    | '.' :: rest => (rest.takeWhile Char.isDigit, rest.dropWhile Char.isDigit)
    | _ => ([], rest)
  guard (!(whole.isEmpty && part.isEmpty))
  let exponent ← readExponent rest
  return .finite ⟨negative, valueOf (whole ++ part), exponent - part.length⟩

end Resumable.Decimal
