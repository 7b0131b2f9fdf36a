import Resumable.Xml.Scan

/-!
# What stands before the root element

The XML declaration, comments, processing instructions and the document type. Of the document type
only the entities matter that are declared with their text.
-/

namespace Resumable.Xml

/-- Reads one item of the XML declaration: blanks, a name, and a quoted value. -/
def declarationItem (name : String) (cs : List Char) : Option (String × List Char) := do
  let rest ← strip? name (← needSpace cs)
  let rest ← strip? "=" (skipSpace rest)
  let (value, rest) ← quoted (skipSpace rest)
  guard (value.all fun c => c.isAlphanum || c == '.' || c == '-' || c == '_')
  return (String.ofList value, rest)

/-- Reads the rest of the XML declaration; gives the name of the encoding. -/
def declaration (cs : List Char) : Option (Option String × List Char) := do
  let (_, rest) ← declarationItem "version" cs
  let (encoding, rest) :=
    match declarationItem "encoding" rest with
    | some (e, rest) => (some e, rest)
    | none => (none, rest)
  guard (encoding.all fun e => (e.toList.head?.map Char.isAlpha).getD false)
  let rest ←
    match declarationItem "standalone" rest with
    | some (v, rest) => if v = "yes" ∨ v = "no" then some rest else none
    | none => some rest
  let rest ← strip? "?>" (skipSpace rest)
  return (encoding, rest)

/-- The bytes of a text, each read as a character of its own. -/
def bytesAsChars (cs : List Char) : List Char :=
  (String.ofList cs).toUTF8.toList.map fun b => Char.ofNat b.toNat

def decode (encoding : Option String) (cs : List Char) : Option (List Char) :=
  match encoding.map fun e => e.map Char.toLower with
  | some "iso-8859-1" | some "latin-1" | some "latin1" => some (bytesAsChars cs)
  | some "us-ascii" | some "ascii" => if cs.all (·.toNat < 128) then some cs else none
  | some "utf-16" | some "utf-16le" | some "utf-16be" => none
  | _ => some cs

/-- The replacement text of an entity: characters that are written by number are put in, and
other references stay. -/
def entityText : (fuel : Nat) → List Char → Option (List Char)
  | 0, _ => none
  | _ + 1, [] => some []
  | fuel + 1, c :: rest =>
    if c = '%' then none
    else if c = '&' then do
      match rest with
      | '#' :: _ =>
        let (r, rest) ← reference rest
        match r with
        | .char c => return c :: (← entityText fuel rest)
        | .entity _ => none
      | _ =>
        let (name, rest) ← plainName rest
        let rest ← strip? ";" rest
        return '&' :: name ++ [';'] ++ (← entityText fuel rest)
    else do return c :: (← entityText fuel rest)

/-- Skips a declaration up to its end, over quoted values. -/
def skipDeclaration : List Char → Option (List Char)
  | [] => none
  | c :: rest =>
    if c = '>' then some rest
    else if c = '<' then none
    else if c = '"' ∨ c = '\'' then inQuotes c rest
    else skipDeclaration rest
where
  inQuotes (quote : Char) : List Char → Option (List Char)
    | [] => none
    | c :: rest => if c = quote then skipDeclaration rest else inQuotes quote rest

def entityDeclaration (cs : List Char) : Option (Entities × List Char) := do
  let cs ← needSpace cs
  match cs with
  | '%' :: rest =>
    let (_, rest) ← plainName (← needSpace rest)
    return ([], ← skipDeclaration (← needSpace rest))
  | _ =>
    let (name, rest) ← plainName cs
    let rest ← needSpace rest
    match quoted rest with
    | some (value, rest) =>
      let rest ← strip? ">" (skipSpace rest)
      return ([(String.ofList name, ← entityText (value.length + 1) value)], rest)
    | none =>
      guard ((strip? "SYSTEM" rest).isSome || (strip? "PUBLIC" rest).isSome)
      return ([], ← skipDeclaration rest)

/-- Reads the declarations inside a document type, up to the closing bracket. -/
def subset : (fuel : Nat) → Entities → List Char → Option (Entities × List Char)
  | 0, _, _ => none
  | fuel + 1, ents, cs =>
    match skipSpace cs with
    | ']' :: rest => some (ents, rest)
    | '%' :: rest => do
      let (_, rest) ← plainName rest
      subset fuel ents (← strip? ";" rest)
    | '<' :: '?' :: rest => do subset fuel ents (← skipInstruction rest)
    | '<' :: '!' :: rest =>
      match strip? "--" rest, strip? "ENTITY" rest, strip? "ELEMENT" rest, strip? "ATTLIST" rest,
        strip? "NOTATION" rest with
      | some rest, _, _, _, _ => do subset fuel ents (← skipComment rest)
      | _, some rest, _, _, _ => do
        let (new, rest) ← entityDeclaration rest
        subset fuel (ents ++ new) rest
      | _, _, some rest, _, _ | _, _, _, some rest, _ | _, _, _, _, some rest => do
        subset fuel ents (← skipDeclaration (← needSpace rest))
      | _, _, _, _, _ => none
    | _ => none

def documentType (cs : List Char) : Option (Entities × List Char) := do
  let (_, rest) ← qualifiedName (← needSpace cs)
  let cs := skipSpace rest
  let rest ←
    match strip? "SYSTEM" cs, strip? "PUBLIC" cs with
    | some after, _ => do
      let (_, rest) ← quoted (← needSpace after)
      some rest
    | _, some after => do
      let (_, rest) ← quoted (← needSpace after)
      let (_, rest) ← quoted (← needSpace rest)
      some rest
    | _, _ => some cs
  match skipSpace rest with
  | '[' :: rest =>
    let (ents, rest) ← subset (rest.length + 1) [] rest
    return (ents, ← strip? ">" (skipSpace rest))
  | '>' :: rest => return ([], rest)
  | _ => none

def skipMisc : (fuel : Nat) → List Char → Option (List Char)
  | 0, _ => none
  | fuel + 1, cs =>
    match skipSpace cs with
    | '<' :: '!' :: '-' :: '-' :: rest => do skipMisc fuel (← skipComment rest)
    | '<' :: '?' :: rest => do skipMisc fuel (← skipInstruction rest)
    | rest => some rest

end Resumable.Xml
