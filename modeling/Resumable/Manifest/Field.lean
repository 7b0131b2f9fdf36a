import Resumable.Manifest
import Resumable.Tree

/-!
# Fields of messages

The types of fields in a manifest and the types that stand for them in a program, with the names
of the functions that read and write them.
-/

namespace Resumable

/-- The type of a number field, by its name without blanks. -/
def numberType? : String → Option String
  | "encoded-uint[max=1]" => some "uint8_t"
  | "encoded-uint[max=2]" => some "uint16_t"
  | "encoded-int[max=2]" => some "int16_t"
  | _ => none

def pinTypes : List String :=
  ["i2c[sda]", "i2c[scl]", "spi[sclk]", "spi[mosi]", "spi[miso]", "spi[ss]", "analog", "digital",
    "pwm"]

def fieldType? (s : String) : Option String :=
  (numberType? s).orElse fun _ => if s ∈ pinTypes then some "uint8_t" else none

def fieldsOf (typeOf : String → Option String) (items : List (Option String × Option String)) :
    Except Fault (List Field) :=
  items.mapM fun (type, name) =>
    match type with
    | none => .error .noMember
    | some type =>
      match typeOf (Text.squeeze type) with
      | some t => .ok ⟨name, t⟩
      | none => .error .badFieldType

/-- The word for a type in the names of the functions that read and write it. -/
def transferName : String → Except Fault String
  | "uint8_t" => .ok "byte"
  | "uint16_t" => .ok "encoded_uint16"
  | "int16_t" => .ok "encoded_signed_int16"
  | _ => .error .badFieldType

namespace Manifest

def requestItems (m : Manifest) : Except Fault (List (Option String × Option String)) := do
  return (← m.request).map fun s => (s.type, s.name)

def replyItems (m : Manifest) : List (Option String × Option String) :=
  m.reply.map fun f => (f.type, f.name)

def pinItems (m : Manifest) : List (Option String × Option String) :=
  m.pins.map fun p => (p.type, p.name)

end Manifest

end Resumable
