import Resumable.Manifest.Field
import Resumable.Signature

/-!
# Declarations from a manifest

The declarations that a manifest adds to a program: the structure of the request and the function
that reads it, the function that writes the reply, and the structure of the pins.
-/

namespace Resumable

namespace Manifest

def structure? (name : String) (fields : List Field) : Step Log (List Tree) := do
  if fields.isEmpty then return []
  let s ← newNode .structDecl .manifest
  let members ← fields.mapM fun f => do
    let a ← newNode .attributeDecl .manifest
    let t ← newNode .simpleType .manifest
    return (Role.members,
      Tree.mk (a.setText .name f.name) [(.declaredType, .mk (t.named f.type) [])])
  let d ← newNode .typedefStatement .manifest
  let r ← newNode .refType .manifest
  return [.mk (s.named ("struct _" ++ name)) members,
    .mk (d.named name) [(.aliasedType, .mk (r.setLink .typeDeclaration (some s.id)) [])]]

def function (signature : String) (body : Step Log Tree) : Step Log Tree := do
  let d ← newNode .functionDefinition .manifest
  let l ← newNode .statementList .manifest
  let f ← Signature.function .manifest signature
  let f := f.mapNode fun n => (n.setFlag .static true).setFlag .inlined true
  let s ← body
  return .mk d [(.declaration, f), (.body, .mk l [(.statements, s)])]

def reader (structName functionName : String) (fields : List Field) : Step Log (List Tree) := do
  if fields.isEmpty then return []
  let declarations ← structure? structName fields
  let f ← function s!"{structName} {functionName}( ZEPTO_PARSER* sa_po );" do
    let s ← newNode .readFields .manifest
    let t ← newNode .simpleType .manifest
    return .mk { s with fields := fields } [(.structType, .mk (t.named structName) [])]
  return declarations ++ [f]

def writer (functionName : String) (fields : List Field) : Step Log (List Tree) := do
  if fields.isEmpty then return []
  let parameters := fields.map fun f => ", " ++ f.type ++ " " ++ Tree.shown f.name
  let f ← function ("void " ++ functionName ++ "( REPLY_HANDLE sa_rh" ++
      String.join parameters ++ ");") do
    let s ← newNode .writeFields .manifest
    return .mk { s with fields := fields } []
  return [f]

def declarations (m : Manifest) (p : String) : Step Log Tree := do
  let n ← newNode .pluginManifest .manifest
  let request ← fieldsOf fieldType? (← m.requestItems)
  let readers ← reader (p ++ "_plugin_data") (p ++ "_plugin_parser_read") request
  let reply ← fieldsOf fieldType? m.replyItems
  let writers ← writer (p ++ "_plugin_reply_write") reply
  let pins ← fieldsOf fieldType? m.pinItems
  let config ← structure? (p ++ "_plugin_config") pins
  return .mk (n.setText .pluginPrefix (some p))
    ((readers ++ writers ++ config).map (Role.elements, ·))

end Manifest

end Resumable
