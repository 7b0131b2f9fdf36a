import Resumable.Xml

/-!
# The characters of a document

Which characters a document may hold, which ones names are made of, and the small pieces that
markup consists of: names, references and quoted values.
-/

namespace Resumable.Xml

/-- Whether a code point lies in one of some ranges with both ends. -/
def inRanges (ranges : List (Nat × Nat)) (c : Char) : Bool :=
  ranges.any fun (lo, hi) => lo ≤ c.toNat && c.toNat ≤ hi

def isLegal : Char → Bool :=
  inRanges [(0x9, 0xa), (0xd, 0xd), (0x20, 0xd7ff), (0xe000, 0xfffd), (0x10000, 0x10ffff)]

def isSpace (c : Char) : Bool := c == ' ' || c == '\t' || c == '\n' || c == '\r'

def startsName (c : Char) : Bool :=
  c.isAlpha || c == '_' ||
    inRanges [(0xc0, 0xd6), (0xd8, 0xf6), (0xf8, 0x2ff), (0x370, 0x37d), (0x37f, 0x1fff),
      (0x200c, 0x200d), (0x2070, 0x218f), (0x2c00, 0x2fef), (0x3001, 0xd7ff), (0xf900, 0xfdcf),
      (0xfdf0, 0xfffd)] c

def inName (c : Char) : Bool :=
  startsName c || c.isDigit || c == '-' || c == '.' ||
    inRanges [(0xb7, 0xb7), (0x300, 0x36f), (0x203f, 0x2040)] c

def unifyLines : List Char → List Char
  | '\r' :: '\n' :: rest => '\n' :: unifyLines rest
  | '\r' :: rest => '\n' :: unifyLines rest
  | c :: rest => c :: unifyLines rest
  | [] => []

def after? : List Char → List Char → Option (List Char)
  | [], rest => some rest
  | c :: cs, d :: rest => if c = d then after? cs rest else none
  | _ :: _, [] => none

def strip? (s : String) (cs : List Char) : Option (List Char) := after? s.toList cs

/-- Splits at the first occurrence of a fixed text, which is dropped. -/
def splitAt? (stop : List Char) : List Char → Option (List Char × List Char)
  | [] => if stop.isEmpty then some ([], []) else none
  | c :: rest =>
    match after? stop (c :: rest) with
    | some rest => some ([], rest)
    | none => (splitAt? stop rest).map fun (a, b) => (c :: a, b)

def skipSpace (cs : List Char) : List Char := cs.dropWhile isSpace

def needSpace : List Char → Option (List Char)
  | c :: rest => if isSpace c then some (skipSpace rest) else none
  | [] => none

def plainName : List Char → Option (List Char × List Char)
  | c :: rest =>
    if startsName c then some (c :: rest.takeWhile inName, rest.dropWhile inName) else none
  | [] => none

/-- A name as it is written: with a namespace in front or without. -/
structure QName where
  space : Option String
  name : String
deriving Repr, DecidableEq, Inhabited

def qualifiedName (cs : List Char) : Option (QName × List Char) := do
  let (first, rest) ← plainName cs
  match rest with
  | ':' :: rest =>
    let (second, rest) ← plainName rest
    return (⟨some (String.ofList first), String.ofList second⟩, rest)
  | _ => return (⟨none, String.ofList first⟩, rest)

def predefined : List (String × Char) :=
  [("lt", '<'), ("gt", '>'), ("amp", '&'), ("apos", '\''), ("quot", '"')]

def hexValue? (c : Char) : Option Nat :=
  if c.isDigit then some (c.toNat - 48)
  else if 'a' ≤ c ∧ c ≤ 'f' then some (c.toNat - 87)
  else if 'A' ≤ c ∧ c ≤ 'F' then some (c.toNat - 55)
  else none

def charOfDigits (base : Nat) (digits : List Char) : Option Char := do
  guard (!digits.isEmpty)
  let n ← digits.foldlM (fun n c => do
    let d ← hexValue? c
    guard (d < base)
    -- numbers beyond all characters are not counted further
    return min (n * base + d) 0x110000) 0
  guard (n < 0xd800 || (0xe000 ≤ n && n < 0x110000))
  let c := Char.ofNat n
  guard (isLegal c)
  return c

/-- A reference: to a character or to an entity. -/
inductive Reference where
  | char (c : Char)
  | entity (name : String)
deriving Repr, DecidableEq, Inhabited

def reference (cs : List Char) : Option (Reference × List Char) := do
  match cs with
  | '#' :: 'x' :: rest =>
    let (digits, rest) ← splitAt? [';'] rest
    return (.char (← charOfDigits 16 digits), rest)
  | '#' :: rest =>
    let (digits, rest) ← splitAt? [';'] rest
    return (.char (← charOfDigits 10 digits), rest)
  | _ =>
    let (name, rest) ← plainName cs
    let rest ← strip? ";" rest
    let name := String.ofList name
    match predefined.lookup name with
    | some c => return (.char c, rest)
    | none => return (.entity name, rest)

def quoted : List Char → Option (List Char × List Char)
  | '"' :: rest => splitAt? ['"'] rest
  | '\'' :: rest => splitAt? ['\''] rest
  | _ => none

abbrev Entities := List (String × List Char)

/-- The value of an attribute: references are replaced and blanks become spaces. An entity may not
occur in its own replacement, so the entities run out. -/
def attributeValue : (depth fuel : Nat) → Entities → List Char → Option (List Char)
  | _, 0, _, _ => none
  | _, _ + 1, _, [] => some []
  | depth, fuel + 1, ents, c :: rest =>
    if c = '<' then none
    else if c = '&' then do
      let (r, rest) ← reference rest
      match r with
      | .char c => return c :: (← attributeValue depth fuel ents rest)
      | .entity name =>
        match depth with
        | 0 => none
        | depth' + 1 =>
          let replacement ← ents.lookup name
          let inner ← attributeValue depth' (replacement.length + 1)
            (ents.filter (·.1 != name)) replacement
          return inner ++ (← attributeValue (depth' + 1) fuel ents rest)
    else do
      let c := if isSpace c then ' ' else c
      return c :: (← attributeValue depth fuel ents rest)
termination_by depth fuel => (depth, fuel)

/-- Reads the attributes of a start tag up to its end: the written names with the values, and
whether the tag closes its element. -/
def attributes (ents : Entities) :
    (fuel : Nat) → List Char → Option (List (QName × String) × Bool × List Char)
  | 0, _ => none
  | fuel + 1, cs =>
    match skipSpace cs with
    | '>' :: rest => some ([], false, rest)
    | '/' :: '>' :: rest => some ([], true, rest)
    | _ => do
      let cs ← needSpace cs
      let (name, rest) ← qualifiedName cs
      let rest ← strip? "=" (skipSpace rest)
      let (value, rest) ← quoted (skipSpace rest)
      let value ← attributeValue (ents.length + 1) (value.length + 1) ents value
      let (others, closed, rest) ← attributes ents fuel rest
      guard (!(others.any (·.1 == name)))
      return ((name, String.ofList value) :: others, closed, rest)

/-- Skips a comment behind its opening. Two hyphens in a row may only end it. -/
def skipComment (cs : List Char) : Option (List Char) := do
  let (_, rest) ← splitAt? ['-', '-'] cs
  strip? ">" rest

def skipInstruction (cs : List Char) : Option (List Char) := do
  let (target, rest) ← plainName cs
  guard ((String.ofList (target.map Char.toLower)) != "xml")
  match strip? "?>" rest with
  | some rest => return rest
  | none =>
    let rest ← needSpace rest
    let (_, rest) ← splitAt? ['?', '>'] rest
    return rest

end Resumable.Xml
