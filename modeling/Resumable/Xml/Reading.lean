import Resumable.Xml.Prolog

/-!
# Reading documents

`Element.read?` gives the root element of a well-formed document, and nothing for any other text.
-/

namespace Resumable.Xml

/-- An element that is being read. -/
structure Frame where
  written : QName
  tag : String
  attributes : List (String × String)
  lead : List Char := []
  children : List Element := []
  /-- The namespaces in force; the empty name stands for the default one. -/
  spaces : List (String × String)
deriving Inhabited

def Frame.element (f : Frame) : Element :=
  .mk f.tag f.attributes (String.ofList f.lead.reverse) f.children.reverse

/-- Adds a character; behind a child it does not belong to the leading text. -/
def Frame.addChar (f : Frame) (c : Char) : Frame :=
  if f.children.isEmpty then { f with lead := c :: f.lead } else f

/-- The name of the namespace that belongs to every document. -/
def xmlSpace : String := "xml"

def expand (space name : String) : String :=
  if space = "" then name else "\x7b" ++ space ++ "\x7d" ++ name

def declaredSpaces : List (QName × String) → Option (List (String × String))
  | [] => some []
  | (q, value) :: rest => do
    let later ← declaredSpaces rest
    match q.space with
    | none =>
      if q.name = "xmlns" then return ("", value) :: later else return later
    | some "xmlns" =>
      guard (q.name ≠ "xmlns" ∧ q.name ≠ "xml" ∧ value ≠ "")
      return (q.name, value) :: later
    | some _ => return later

def declaresSpace (q : QName) : Bool :=
  q.space == some "xmlns" || (q.space == none && q.name == "xmlns")

def attributeName (spaces : List (String × String)) (q : QName) : Option String :=
  match q.space with
  | none => some q.name
  | some p => (spaces.lookup p).map (expand · q.name)

def open? (outer : List (String × String)) (q : QName) (attrs : List (QName × String)) :
    Option Frame := do
  let spaces := (← declaredSpaces attrs) ++ outer
  let tag ←
    match q.space with
    | none => some (expand ((spaces.lookup "").getD "") q.name)
    | some p => (spaces.lookup p).map (expand · q.name)
  let attributes ← (attrs.filter (!declaresSpace ·.1)).mapM fun (q, value) => do
    return (← attributeName spaces q, value)
  guard ((attributes.map (·.1)).Nodup)
  return { written := q, tag := tag, attributes := attributes, spaces := spaces }

/-- The elements that are open, innermost first, and the root element once it is closed. -/
structure State where
  frames : List Frame := []
  root : Option Element := none
deriving Inhabited

def State.spaces (s : State) : List (String × String) :=
  match s.frames with
  | f :: _ => f.spaces
  | [] => [("xml", xmlSpace)]

def State.close (s : State) : State :=
  match s.frames with
  | [] => s
  | [f] => { frames := [], root := some f.element }
  | f :: outer :: rest =>
    { s with frames := { outer with children := f.element :: outer.children } :: rest }

def State.addChar (s : State) (c : Char) : State :=
  match s.frames with
  | [] => s
  | f :: rest => { s with frames := f.addChar c :: rest }

/-- Reads content up to the end of the text or of the root element; gives what is left. Elements
that were open before, of which there are `base`, cannot be closed. -/
def content : (depth fuel : Nat) → Entities → (base : Nat) → State → List Char →
    Option (State × List Char)
  | _, 0, _, _, _, _ => none
  | depth, fuel + 1, ents, base, s, cs =>
    if s.frames.isEmpty then some (s, cs)
    else
      match cs with
      | [] => some (s, [])
      | '<' :: '/' :: rest => do
        let (q, rest) ← qualifiedName rest
        let rest ← strip? ">" (skipSpace rest)
        if base < s.frames.length && s.frames.head?.map (·.written) == some q then
          content depth fuel ents base s.close rest
        else none
      | '<' :: '!' :: '-' :: '-' :: rest => do
        content depth fuel ents base s (← skipComment rest)
      | '<' :: '!' :: rest => do
        let rest ← strip? "[CDATA[" rest
        let (text, rest) ← splitAt? [']', ']', '>'] rest
        content depth fuel ents base (text.foldl State.addChar s) rest
      | '<' :: '?' :: rest => do content depth fuel ents base s (← skipInstruction rest)
      | '<' :: rest => do
        let (q, rest) ← qualifiedName rest
        let (attrs, closed, rest) ← attributes ents (rest.length + 1) rest
        let f ← open? s.spaces q attrs
        let s := { s with frames := f :: s.frames }
        content depth fuel ents base (if closed then s.close else s) rest
      | '&' :: rest => do
        let (r, rest) ← reference rest
        match r with
        | .char c => content depth fuel ents base (s.addChar c) rest
        | .entity name =>
          match depth with
          | 0 => none
          | depth' + 1 =>
            let replacement ← ents.lookup name
            let (s', left) ← content depth' (replacement.length + 1)
              (ents.filter (·.1 != name)) s.frames.length s replacement
            if left.isEmpty && s'.frames.length == s.frames.length then
              content (depth' + 1) fuel ents base s' rest
            else none
      | ']' :: ']' :: '>' :: _ => none
      | c :: rest => content depth fuel ents base (s.addChar c) rest
termination_by depth fuel => (depth, fuel)

/-- Reads the root element, which must stand at the front. -/
def rootElement (ents : Entities) (cs : List Char) : Option (Element × List Char) := do
  let rest ← strip? "<" cs
  let (q, rest) ← qualifiedName rest
  let (attrs, closed, rest) ← attributes ents (rest.length + 1) rest
  let f ← open? [("xml", xmlSpace)] q attrs
  let s : State := { frames := [f] }
  let (s, rest) ← content (ents.length + 1) (rest.length + 1) ents 0
    (if closed then s.close else s) rest
  return (← s.root, rest)

def Element.read? (text : String) : Option Element := do
  let cs := text.toList
  let cs := (strip? "\ufeff" cs).getD cs
  let cs := unifyLines cs
  let (encoding, rest) ←
    match strip? "<?xml" cs with
    | some rest =>
      if (rest.head?.map isSpace).getD false then declaration rest else some (none, cs)
    | none => some (none, cs)
  let cs ← decode encoding rest
  guard (cs.all isLegal)
  let cs ← skipMisc (cs.length + 1) cs
  let (ents, cs) ←
    match strip? "<!DOCTYPE" cs with
    | some rest => do
      let (ents, rest) ← documentType rest
      some (ents, ← skipMisc (rest.length + 1) rest)
    | none => some ([], cs)
  let (root, rest) ← rootElement ents cs
  let rest ← skipMisc (rest.length + 1) rest
  guard rest.isEmpty
  return root

end Resumable.Xml
