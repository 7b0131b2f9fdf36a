import Resumable.Listing
import Resumable.Manifest.Field
import Resumable.Text.Upper

/-!
# Transfer functions

The header with the function that reads the request and the one that writes the reply, in their
short form.
-/

namespace Resumable

namespace Manifest

/-- The function that reads the request. A request with one field is a plain value. -/
def readerText (structName functionName : String) (fields : List Field) :
    Except Fault String := do
  match fields with
  | [] => return "/* empty parser */\n\n"
  | [f] =>
    let word ← transferName f.type
    return "static inline\n" ++ f.type ++ " " ++ functionName ++ "(ZEPTO_PARSER* po)\n\x7b\n" ++
      "return papi_parser_read_" ++ word ++ "(po);\n\x7d\n"
  | fields =>
    let members := fields.map fun f => f.type ++ " " ++ Tree.shown f.name ++ ";\n"
    let reads ← fields.mapM fun f => do
      let word ← transferName f.type
      return "sa_res." ++ Tree.shown f.name ++ " = papi_parser_read_" ++ word ++ "(po);\n"
    return "typedef struct _" ++ structName ++ " \x7b\n" ++ String.join members ++ "\x7d " ++
      structName ++ ";\n\n" ++ "static inline\n" ++ structName ++ " " ++ functionName ++
      "(ZEPTO_PARSER* po)\n\x7b\n" ++ structName ++ " sa_res;\n" ++ String.join reads ++
      "return sa_res;\n\x7d\n"

def writerText (functionName : String) (fields : List Field) : Except Fault String := do
  if fields.isEmpty then return "/* empty composer */\n\n"
  let parameters := fields.map fun f => ", " ++ f.type ++ " " ++ Tree.shown f.name
  let writes ← fields.mapM fun f => do
    let word ← transferName f.type
    return "papi_reply_write_" ++ word ++ "(mem_h, " ++ Tree.shown f.name ++ ");\n"
  return "static inline\nvoid " ++ functionName ++ "(REPLY_HANDLE mem_h" ++
    String.join parameters ++ ")\n\x7b\n" ++ String.join writes ++ "\x7d\n"

def bannerText : String :=
  "/*" ++ stars ++ "\n    Copyright (C) 2015 OLogN Technologies AG\n\n" ++
    String.join (licence.map fun l => "    " ++ l ++ "\n") ++ stars ++ "*/\n"

/-- The header with both functions, for the prefix of a plugin. -/
def transferHeader (m : Manifest) (p : String) : Except Fault String := do
  let request ← fieldsOf numberType? (← m.requestItems)
  let reply ← fieldsOf numberType? m.replyItems
  let guardName := "__SA_" ++ Text.upper p ++ "_PLUGIN_PARSER_H__"
  let reader ← readerText (p ++ "_plugin_data") (p ++ "_plugin_parser_read") request
  let writer ← writerText (p ++ "_plugin_reply_write") reply
  return bannerText ++ "\n#if !defined " ++ guardName ++ "\n#define " ++ guardName ++ "\n\n" ++
    "#include <stdint.h>\n#include \"papi.h\"\n\n\n" ++ reader ++ "\n\n" ++ writer ++ "\n" ++
    "#endif // " ++ guardName ++ "\n"

end Manifest

end Resumable
