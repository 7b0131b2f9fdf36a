import Resumable.Printing.Printer

/-!
# Printing machines

A function with states leaves in the middle of its body and comes back to a label. Its statements
store the number of the next state, leave, and test behind the label whether they have to wait on.
-/

namespace Resumable.Print

/-! ## Leaving a function -/

def currentMachine : Print Machine := do
  match (← get).machine with
  | some m => return m
  | none => throw .noMember

/-- The kind of the type that the current function returns. -/
def returnKind : Print (Option Kind) := do
  let p ← get
  match p.function with
  | none => throw .noMember
  | some f =>
    let type ← f.child .returnType
    return ((type.node.link? .typeDeclaration).bind p.index.get?).map (·.kind)

def leave : Print Unit := do
  match ← returnKind with
  | some .voidDecl => line "return;"
  | some .intDecl => line "return 0;"
  | _ => throw .badType

def suspend (result : String) : Print Unit := do
  if (← currentMachine).main then line s!"return {result};"
  else
    line s!"*sa_result = {result};"
    leave

/-- Leaves a function after one that it called was left to come back later. -/
def passOn : Print Unit := do
  if (← currentMachine).main then line "return *sa_result;" else leave

/-! ## Statements with states -/

def shownNumber (n : Node) (k : NumberKey) : String := Tree.shown ((n.number? k).map toString)

def firstArgument (t : Tree) : Print Unit := do
  match (← printing).argumentsOf t with
  | .ok args => writePieces (Printing.argumentAt args 0)
  | .error e => writePieces (.error e)

def argumentList (t : Tree) : Print Unit := do
  match (← printing).argumentsOf t with
  | .ok args => writePieces (Printing.argumentPieces <$> args.mapM id)
  | .error e => writePieces (.error e)

/-- Stores the next state and leaves the function; the next state begins with a test whether the
function still has to wait. -/
def waitHere (next : String) (test : Print Unit) : Print Unit := do
  line s!"sa_state->sa_next = {next};"
  suspend "PLUGIN_WAITING"
  write s!"label_{next}:"
  test
  endStatement .unknown false
  line "\x7b"
  suspend "PLUGIN_WAITING"
  line "\x7d"

def papiWait (t : Tree) : Print Unit := do
  let n := t.node
  textOf n .name
  argumentList t
  write ";"
  endStatement n.origin false
  write "papi_wait_handler_add_wait_for_"
  textOf n .waitFor
  write "(sa_wf, "
  firstArgument t
  write ");"
  endStatement .unknown false
  waitHere (shownNumber n .nextState) do
    write "if(papi_wait_handler_is_waiting_for_"
    textOf n .waitFor
    write "(sa_wf, "
    firstArgument t
    write "))"

def papiSleep (t : Tree) : Print Unit := do
  write "papi_wait_handler_add_wait_for_timeout(sa_wf, "
  firstArgument t
  write ");"
  endStatement t.origin false
  waitHere (shownNumber t.node .nextState) do
    write "if(papi_wait_handler_is_waiting_for_timeout(0, sa_wf))"

def dispatch (n : Node) : Print Unit := do
  line "switch(sa_state->sa_next) \x7b"
  line "case 0: break;"
  match n.number? .lastState with
  | none => throw .notText
  | some last =>
    for i in List.range last.toNat do
      let k := i + 1
      line s!"case {k}: goto label_{k};"
  line "default: ZEPTO_ASSERT(0);"
  line "\x7d"

/-- Clears the state of the machine that is called next, and stores the own state. -/
def enterSub (next : String) : Print Unit := do
  line "*(uint8_t*)(sa_state + 1) = 0;"
  line s!"sa_state->sa_next = {next};"

def callSub (t : Tree) : Print Unit := do
  let n := t.node
  let next := shownNumber n .nextState
  enterSub next
  line s!"label_{next}: ;/*nop*/"
  let call ← t.child .expression
  match (call.node.link? .declaration).bind (← get).index.get? with
  | none => throw .noMember
  | some d =>
    unless d.kind.slot? .returnType |>.isSome do throw .noMember
    typeIn d .returnType
  write " "
  textOf n .name
  write " = "
  expressionIn t .expression
  write ";"
  endStatement n.origin false
  line "if(*(uint8_t*)(sa_state + 1) != 0)"
  passOn

def structName : Print String := return Tree.shown (← currentMachine).structName

def mainFirst (n : Node) : Print Unit := do
  let name ← structName
  let state ← shownText n .handlerState
  line s!"{name}* sa_state = ({name}*){state};"
  let wait ← shownText n .handlerWait
  line s!"waiting_for* sa_wf = {wait};"
  match (← get).known with
  | none => throw .noMember
  | some ms =>
    if ms.hasSubMachines then
      line "\nuint8_t sa_result0 = PLUGIN_OK;"
      line "\nuint8_t* sa_result = &sa_result0;"

end Resumable.Print
