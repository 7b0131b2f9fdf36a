import Resumable.Fault
import Resumable.IdMap
import Resumable.Text.Upper

/-!
# Machines

The functions that were cut into states. Each of them has a structure type that holds its current
state and the variables that outlive a state; the plugin's handler has the main machine, and the
other ones are machines that it calls.
-/

namespace Resumable

/-- The names that a plugin's prefix gives. -/
structure PluginNames where
  state : String
  includeGuard : String
  handler : String
  handlerInit : String
  execInit : String
deriving Repr, DecidableEq, Inhabited

def PluginNames.ofPrefix (p : String) : PluginNames where
  state := p ++ "_plugin_state"
  includeGuard := "__SA_" ++ Text.upper p ++ "_PLUGIN_STATE_H__"
  handler := p ++ "_plugin_handler"
  handlerInit := p ++ "_plugin_handler_init"
  execInit := p ++ "_plugin_exec_init"

/-- A function that was cut into states. -/
structure Machine where
  function : NodeId
  dispatch : NodeId
  kept : List NodeId
  structName : Option String
  main : Bool
deriving Repr, DecidableEq, Inhabited

/-- All functions that were cut into states, in order. -/
structure Machines where
  names : Option PluginNames := none
  list : List Machine := []
deriving Repr, DecidableEq, Inhabited

namespace Machines

def setPrefix (ms : Machines) (p : String) : Machines :=
  { ms with names := some (.ofPrefix p) }

def find? (ms : Machines) (function : NodeId) : Option Machine :=
  ms.list.find? (·.function == function)

def hasStates (ms : Machines) (function : Option NodeId) : Bool :=
  ms.list.any fun m => some m.function == function

def hasSubMachines (ms : Machines) : Bool := 1 < ms.list.length

/-- The name of the structure type of the next machine: all but the handler's are numbered. -/
def nextStruct (ms : Machines) (functionName : Option String) : Except Fault (Option String) :=
  if functionName = ms.names.map (·.handler) then .ok (ms.names.map (·.state))
  else
    match ms.names with
    | none => .error .notText
    | some names => .ok (some (names.state ++ toString (ms.list.length + 1)))

def add (ms : Machines) (function : NodeId) (functionName : Option String) (dispatch : NodeId)
    (main : Bool) (kept : List NodeId) : Except Fault Machines := do
  let structName ← ms.nextStruct functionName
  if ms.hasStates (some function) then throw .machineTwice
  return { ms with list := ms.list ++ [⟨function, dispatch, kept, structName, main⟩] }

end Machines

end Resumable
