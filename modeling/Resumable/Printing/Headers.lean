import Resumable.Manifest.Field
import Resumable.Printing.Printer

/-!
# Printing headers

Besides the code there are two headers: one with the structures that machines keep their variables
in, and one with the functions that read and write the messages of a manifest.
-/

namespace Resumable.Print

/-! ## Messages of the manifest -/

def readFields (t : Tree) : Print Unit := do
  typeIn t .structType
  write " sa_res;"
  endStatement .unknown false
  for f in t.node.fields do
    let w ← transferName f.type
    let name := Tree.shown f.name
    line s!"sa_res.{name} = papi_parser_read_{w}(sa_po);"
  line "return sa_res;"

def writeFields (n : Node) : Print Unit := do
  for f in n.fields do
    let w ← transferName f.type
    let name := Tree.shown f.name
    line s!"papi_reply_write_{w}(sa_rh, {name});"

/-! ## Headers -/

def stateHeader : Print Unit := do
  let p ← get
  let guard := Tree.shown (p.machines.names.map (·.includeGuard))
  line s!"#if !defined {guard}"
  line s!"#define {guard}"
  line ""
  line "#include <stdint.h>"
  line ""
  line ""
  for m in p.machines.list do
    let name := Tree.shown m.structName
    line ("typedef struct _" ++ name ++ " \x7b")
    line "uint8_t sa_next;"
    for v in m.kept do
      match p.index.get? v with
      | none => throw .noMember
      | some v =>
        typed v .declaredType
        write ";"
        endStatement v.origin false
    line ("\x7d " ++ name ++ ";")
    line ""
  line s!"#endif // {guard}"

def messageHeader (n : Node) (parts : List Printable) : Print Unit := do
  match ← n.text .pluginPrefix with
  | none => throw .noMember
  | some start =>
    let upper := Text.upper start
    let guard := s!"__SA_{upper}_PLUGIN_H__"
    line s!"#if !defined {guard}"
    line s!"#define {guard}"
    line ""
    line "#include <stdint.h>"
    line "#include \"papi.h\""
    line ""
    all parts
    line ""
    line s!"typedef struct _{start}_plugin_persistent_state"
    line "\x7b"
    line "uint8_t sa_dummy;"
    line ("\x7d " ++ start ++ "_plugin_persistent_state;")
    line ""
    line "#ifdef __cplusplus"
    line "extern \"C\" \x7b"
    line "#endif"
    line ""
    line s!"uint8_t {start}_plugin_handler_init( const void* plugin_config, void* plugin_state );"
    line s!"uint8_t {start}_plugin_exec_init( const void* plugin_config, void* plugin_state );"
    line (s!"uint8_t {start}_plugin_handler( const void* plugin_config,"
      ++ " void* plugin_persistent_state, void* plugin_state, ZEPTO_PARSER* command,"
      ++ " MEMORY_HANDLE reply, waiting_for* wf, uint8_t first_byte );")
    line ""
    line "#ifdef __cplusplus"
    line "\x7d"
    line "#endif"
    line ""
    line s!"#endif // {guard}"

end Resumable.Print
