import Resumable.Edits.Text
import Resumable.Machine
import Resumable.Tree

/-!
# Revising a source text

The second form of the output is the source text itself with edits: what cutting a function into
states brings in is inserted next to the tokens that it belongs to, and uses of variables that
outlive a state are replaced. Everything else, white space and comments included, stays as it was
written.
-/

namespace Resumable

/-- What is known while a source text is revised. -/
structure Revision where
  log : Log
  tokens : Array Token
  edits : Edits := []
  index : IdMap Tree
  machines : Machines
  function : Option Tree := none
  machine : Option Machine := none
deriving Inhabited

instance : HasLog Revision := ⟨(·.log), fun r l => { r with log := l }⟩

abbrev Revise := Step Revision

/-- A child of a node with the step that revises it. -/
structure Revisable where
  role : Role
  revise : Revise Unit

namespace Revise

/-! ## Edits -/

def insertBefore (s : Spot) (text : String) : Revise Unit :=
  modify fun r => { r with edits := r.edits.insertBefore s.index text }

def insertAfter (s : Spot) (text : String) : Revise Unit :=
  modify fun r => { r with edits := r.edits.insertAfter s.index text }

def replace (first last : Spot) (text : Option String) : Revise Unit := do
  let r ← get
  match r.edits.replace r.tokens.size first.index last.index text with
  | .ok es => set { r with edits := es }
  | .error b => throw (.badRange b)

def textBetween (first last : Spot) : Revise String := do
  let r ← get
  let (text, es) := r.edits.read r.tokens first.index last.index
  set { r with edits := es }
  match text with
  | .ok text => return text
  | .error e => throw (.conflict e)

def textOf : Origin → Revise String
  | .leaf s => textBetween s s
  | .span first last => textBetween first last
  | _ => throw .wrongKind

def firstOf (o : Origin) : Except Fault Spot :=
  match o.first? with
  | some s => .ok s
  | none => .error .noMember

def lastOf (o : Origin) : Except Fault Spot :=
  match o.last? with
  | some s => .ok s
  | none => .error .noMember

def leafOf : Origin → Except Fault Spot
  | .leaf s => .ok s
  | _ => .error .noMember

def markOf : Origin → Except Fault Spot
  | .mark s => .ok s
  | _ => .error .noMember

def all (parts : List Revisable) : Revise Unit := parts.forM (·.revise)

def inRole (parts : List Revisable) (r : Role) : Revise Unit :=
  all (parts.filter (·.role == r))

/-! ## Leaving a function -/

def currentMachine : Revise Machine := do
  match (← get).machine with
  | some m => return m
  | none => throw .noMember

def leaving : Revise String := do
  let r ← get
  match r.function with
  | none => throw .noMember
  | some f =>
    let type ← f.child .returnType
    match (type.node.link? .typeDeclaration).bind r.index.get? with
    | none => throw .badType
    | some d =>
      if d.kind = .voidDecl then return "return;"
      else if d.kind = .intDecl then return "return 0;"
      else throw .badType

def suspending (result : String) : Revise String := do
  if (← currentMachine).main then return s!"\nreturn {result};"
  else
    let exit ← leaving
    return s!"\n*sa_result = {result};\n{exit}"

/-- Leaves a function after one that it called was left to come back later. -/
def passingOn : Revise String := do
  if (← currentMachine).main then return "return *sa_result;" else leaving

/-! ## Rules -/

def shownNumber (n : Node) (k : NumberKey) : String := Tree.shown ((n.number? k).map toString)

/-- A function with states takes its machine as its first parameters. -/
def functionDecl (t : Tree) : Revise Unit := do
  let machine := (← get).machines.find? t.id
  modify fun r => { r with function := some t, machine := machine }
  if machine.any fun m => !m.main then
    let params ← t.child .parameters
    let more := if (params.inRole .declarations).isEmpty then "" else ", "
    insertAfter (← leafOf params.origin)
      ("void* sa_state0, waiting_for* sa_wf, uint8_t* sa_result" ++ more)

/-- A variable that outlives a state is a field, so that only its first value is stored. -/
def variableDeclaration (t : Tree) (parts : List Revisable) : Revise Unit := do
  match (← get).machine with
  | none => return
  | some m =>
    let initialized := (t.child? .initializer).isSome
    if m.kept.contains t.id then
      let some nameSpot := t.node.nameSpot | throw .noMember
      if initialized then
        let name := Tree.shown t.node.name?
        replace (← firstOf t.origin) nameSpot (some s!"sa_state->{name}")
      else replace (← firstOf t.origin) (← lastOf t.origin) none
    if initialized then inRole parts .initializer

def firstArgument (t : Tree) : Revise String := do
  match (← t.child .argumentList).inRole .arguments with
  | [] => throw .argumentCount
  | a :: _ => textOf a.origin

/-- Stores the next state and leaves the function; the next state begins with a test whether the
function still has to wait. -/
def waiting (t : Tree) (test : Revise String) : Revise Unit := do
  let next := shownNumber t.node .nextState
  let exit ← suspending "PLUGIN_WAITING"
  let test ← test
  let again ← suspending "PLUGIN_WAITING"
  let last ← lastOf t.origin
  insertAfter last (s!"\nsa_state->sa_next = {next};{exit}\n\nlabel_{next}:\nif({test}) \x7b{again}"
    ++ s!"\n\x7d\n//#line {last.line}\n")

def papiWait (t : Tree) (parts : List Revisable) : Revise Unit := do
  all parts
  let arg ← firstArgument t
  let some name := t.node.nameSpot | throw .noMember
  replace name name (some (Tree.shown t.node.name?))
  let event := Tree.shown (← t.node.text .waitFor)
  insertAfter (← lastOf t.origin) s!"\npapi_wait_handler_add_wait_for_{event}(sa_wf, {arg});"
  waiting t do
    let arg ← firstArgument t
    return s!"papi_wait_handler_is_waiting_for_{event}(sa_wf, {arg})"

def papiSleep (t : Tree) (parts : List Revisable) : Revise Unit := do
  all parts
  let arg ← firstArgument t
  replace (← firstOf t.origin) (← lastOf t.origin) none
  insertAfter (← lastOf t.origin) s!"\npapi_wait_handler_add_wait_for_timeout(sa_wf, {arg});"
  waiting t do
    let _ ← firstArgument t
    return "papi_wait_handler_is_waiting_for_timeout(0, sa_wf)"

def dispatch (n : Node) : Revise Unit := do
  match n.number? .lastState with
  | none => throw .notText
  | some last =>
    let cases := (List.range last.toNat).map fun i =>
      let k := i + 1
      s!"\ncase {k}: goto label_{k};"
    let s ← markOf n.origin
    insertAfter s ("\n\nswitch(sa_state->sa_next) \x7b\ncase 0: break;" ++ String.join cases
      ++ s!"\ndefault: ZEPTO_ASSERT(0);\n\x7d\n\n\n//#line {s.line}\n")

/-- Clears the state of the machine that is called next, and stores the own state. -/
def entering (next : String) : String :=
  s!"\n*(uint8_t*)(sa_state + 1) = 0;\nsa_state->sa_next = {next};\nlabel_{next}: "

/-- Leaves the function if the machine that was called is not finished. -/
def checkingSub : Revise String := do
  let exit ← passingOn
  return s!"\nif(*(uint8_t*)(sa_state + 1) != 0) {exit}"

def passMachine (args : Tree) : Revise Unit := do
  let more := if 2 ≤ (args.inRole .arguments).length then ", " else ""
  insertAfter (← leafOf args.origin) ("(void*)(sa_state + 1), sa_wf, sa_result" ++ more)

def callSub (t : Tree) : Revise Unit := do
  let n := t.node
  let call ← t.child .expression
  passMachine (← call.child .argumentList)
  let some d := (call.node.link? .declaration).bind (← get).index.get? | throw .noMember
  let type := Tree.shown (← (← d.child .returnType).node.text .name)
  let name := Tree.shown n.name?
  let value ← textOf call.origin
  let check ← checkingSub
  insertBefore (← firstOf t.origin)
    (entering (shownNumber n .nextState) ++ s!";/*nop*/\n{type} {name} = {value};" ++ check)

def mainFirst (n : Node) : Revise Unit := do
  let name := Tree.shown (← currentMachine).structName
  let state := Tree.shown (← n.text .handlerState)
  let wait := Tree.shown (← n.text .handlerWait)
  let result :=
    if (← get).machines.hasSubMachines then
      "\nuint8_t sa_result0 = PLUGIN_OK;\nuint8_t* sa_result = &sa_result0;"
    else ""
  insertAfter (← markOf n.origin)
    (s!"\n{name}* sa_state = ({name}*){state};\nwaiting_for* sa_wf = {wait};" ++ result)

def variableUse (n : Node) : Revise Unit := do
  let r ← get
  match n.link? .declaration, r.machine with
  | some id, some m =>
    if m.kept.contains id then
      let some d := r.index.get? id | throw .noMember
      let name := Tree.shown d.node.name?
      let s ← leafOf n.origin
      replace s s (some s!"(sa_state->{name})")
  | _, _ => return

def rule (t : Tree) (parts : List Revisable) : Revise Unit := do
  let n := t.node
  match n.kind with
  | .root => inRole parts .source
  | .directive | .includeFile | .constantDefine | .nop | .typeRef | .refType | .simpleType
  | .invalidType | .pointerType => return
  | .functionDecl | .papiFunctionDecl | .operatorDecl => functionDecl t
  | .variableDeclaration => variableDeclaration t parts
  | .callStatement =>
    all parts
    match (← t.child .expression).node.flags.lookup .blocking with
    | some true => throw .blockingCall
    | some false => return
    | none => throw .noMember
  | .papiWait => papiWait t parts
  | .papiSleep => papiSleep t parts
  | .machine => dispatch n
  | .debugState =>
    let next := shownNumber n .nextState
    let exit ← suspending "PLUGIN_DEBUG"
    let last ← lastOf n.origin
    insertAfter last (s!"\nsa_state->sa_next = {next};{exit}\nlabel_{next}: /* nop */ ;"
      ++ s!"\n//#line {last.line}\n")
  | .beforeSub => insertBefore (← firstOf n.origin) (entering (shownNumber n .nextState))
  | .afterSub => insertAfter (← lastOf n.origin) (← checkingSub)
  | .callSub => callSub t
  | .initFirst =>
    let state := Tree.shown (← n.text .initState)
    insertAfter (← markOf n.origin) s!"\n*(uint8_t*){state} = 0;"
  | .beforeReturn => insertBefore (← markOf n.origin) "sa_state->sa_next = 0;"
  | .mainFirst => mainFirst n
  | .subFirst =>
    let name := Tree.shown (← currentMachine).structName
    insertAfter (← markOf n.origin) s!"\n{name}* sa_state = ({name}*)sa_state0;"
  | .variableUse => variableUse n
  | .call =>
    all parts
    if (← get).machines.hasStates (n.link? .declaration) then
      passMachine (← t.child .argumentList)
  | .callSubResult =>
    let some d := (n.link? .declaration).bind (← get).index.get? | throw .noMember
    let name := Tree.shown d.node.name?
    replace (← firstOf n.origin) (← lastOf n.origin) (some s!"({name})")
  | _ => all parts

def visit : Tree → Revise Unit
  | .mk n cs => rule (.mk n cs) (go cs)
where
  go : List (Role × Tree) → List Revisable
    | [] => []
    | (r, t) :: rest => ⟨r, visit t⟩ :: go rest

def text (t : Tree) : Revise String := do
  visit t
  let r ← get
  let (text, es) := r.edits.readAll r.tokens
  set { r with edits := es }
  match text with
  | .error e => throw (.conflict e)
  | .ok text =>
    checkStage "rewrite"
    return text

end Revise

end Resumable
