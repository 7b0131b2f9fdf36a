import Resumable.Decimal.Binary64
import Resumable.Fault
import Resumable.Xml.Reading

/-!
# Manifests

A manifest describes a plugin: the message that asks for its service, the message that it replies
with, the pins that it uses and its options.
-/

namespace Resumable

/-- A value in a manifest: a text, or a number where the type asks for one. -/
inductive Amount where
  | text (s : String)
  | whole (i : Int)
  | real (r : Decimal.Reading)
deriving Repr, DecidableEq

/-- One of the values that a setting can take. -/
structure Choice where
  value : Option Amount
  title : Option String
deriving Repr, DecidableEq

/-- A field of the request, or an option. -/
structure Setting where
  type : Option String
  name : Option String
  title : Option String
  least : Option Amount
  greatest : Option Amount
  initial : Option Amount
  choices : Option (List Choice)
deriving Repr, DecidableEq

/-- A pin that the plugin uses. -/
structure Pin where
  type : Option String
  name : Option String
  title : Option String
  choices : Option (List Choice)
deriving Repr, DecidableEq

/-- Two points that a linear conversion goes through. -/
structure LinearConversion where
  input0 : Option String
  output0 : Option String
  input1 : Option String
  output1 : Option String
deriving Repr, DecidableEq

/-- What a field of the reply means. -/
structure Meaning where
  type : Option String
  conversion : Option LinearConversion
deriving Repr, DecidableEq

/-- A field of the reply. -/
structure ReplyField where
  name : Option String
  type : Option String
  least : Option String
  greatest : Option String
  meaning : Option Meaning
deriving Repr, DecidableEq

def occursIn (part whole : List Char) : Bool :=
  match whole with
  | [] => part.isEmpty
  | c :: rest => part.isPrefixOf (c :: rest) || occursIn part rest

namespace Amount

/-- Reads a value as its type asks: types with `int` in their name take whole numbers, other ones
with `float` decimal fractions, and all other ones any text. A number cannot be missing. -/
def read (type : Option String) (value : Option String) : Except Fault (Option Amount) :=
  match type with
  | none => .error .notText
  | some type =>
    if occursIn "int".toList type.toList then
      match value with
      | none => .error .notText
      | some s =>
        match Decimal.readInt s with
        | some i => .ok (some (whole i))
        | none => .error .notNumber
    else if occursIn "float".toList type.toList then
      match value with
      | none => .error .notText
      | some s =>
        match Decimal.readReal s with
        | some r => .ok (some (real r))
        | none => .error .notNumber
    else .ok (value.map text)

def read? (type : Option String) : Option String → Except Fault (Option Amount)
  | none => .ok none
  | some s => read type (some s)

end Amount

/-- A manifest, with the root element of its document. -/
structure Manifest where
  root : Xml.Element
deriving Inhabited

namespace Manifest

def ofText? (text : String) : Except Fault Manifest :=
  match Xml.Element.read? text with
  | some root => .ok ⟨root⟩
  | none => .error .malformed

def id? (m : Manifest) : Option String := m.root.attribute? "id"

def name? (m : Manifest) : Option String := m.root.attribute? "name"

/-- The description, whose element must be there but may be empty. -/
def description (m : Manifest) : Except Fault (Option String) :=
  match m.root.find? ["description"] with
  | some e => .ok e.text?
  | none => .error .noMember

def rawChoices (e : Xml.Element) : Option (List (Option String × Option String)) :=
  (e.find? ["values"]).map fun values =>
    values.children.map fun v => (v.attribute? "value", v.attribute? "title")

def items (m : Manifest) (path : List String) : List Xml.Element :=
  match m.root.find? path with
  | some e => e.children
  | none => []

def setting (e : Xml.Element) : Except Fault Setting := do
  let type := e.attribute? "type"
  let least ← Amount.read? type (e.attribute? "min")
  let greatest ← Amount.read? type (e.attribute? "max")
  let initial ← Amount.read? type (e.attribute? "default")
  let choices ←
    match rawChoices e with
    | none => pure none
    | some raw => some <$> raw.mapM fun (value, title) => do
      return ⟨← Amount.read type value, title⟩
  return ⟨type, e.attribute? "name", e.attribute? "title", least, greatest, initial, choices⟩

def request (m : Manifest) : Except Fault (List Setting) :=
  (m.items ["request"]).mapM setting

def options (m : Manifest) : Except Fault (List Setting) :=
  (m.items ["configuration", "options"]).mapM setting

def pins (m : Manifest) : List Pin :=
  (m.items ["configuration", "peripheral"]).map fun e =>
    ⟨e.attribute? "type", e.attribute? "name", e.attribute? "title",
      (rawChoices e).map fun raw => raw.map fun (value, title) => ⟨value.map .text, title⟩⟩

def reply (m : Manifest) : List ReplyField :=
  (m.items ["response"]).map fun e =>
    ⟨e.attribute? "name", e.attribute? "type", e.attribute? "min", e.attribute? "max",
      (e.find? ["meaning"]).map fun meaning =>
        ⟨meaning.attribute? "type",
          (meaning.find? ["linear-conversion"]).map fun c =>
            ⟨c.attribute? "input-point0", c.attribute? "output-point0",
              c.attribute? "input-point1", c.attribute? "output-point1"⟩⟩⟩

end Manifest

end Resumable
