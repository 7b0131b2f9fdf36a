import Resumable.Cutting.Statements

/-!
# Cutting programs

Every function of a program is cut on its own. The handler gets the main machine, and the other
functions with states get machines that it calls, so they have to stand before their callers.
-/

namespace Resumable.Cutting

/-! ## Functions -/

/-- The number of statements at the start of a function that run in every state: declarations
that only give a name to a cast variable. -/
def prologue : List Tree → Except Fault Nat
  | [] => .ok 0
  | s :: rest => do
    if s.kind = .mainFirst then return (← prologue rest) + 1
    if s.kind ≠ .variableDeclaration then return 0
    match s.child? .initializer with
    | none => return 0
    | some e =>
      if e.kind ≠ .cast then return 0
      if (← e.child .expression).kind ≠ .variableUse then return 0
      return (← prologue rest) + 1

def machinePlace (body : Tree) (skip : Nat) : Except Fault Origin :=
  match skip with
  | 0 => startOf body.origin
  | i + 1 =>
    match (body.inRole .statements)[i]? with
    | some s => endOf s.origin
    | none => .error .outOfRange

def bodyFrom (skip : Nat) (body : Tree) : Cutting Tree := do
  let rest ← statements (visit.go (body.children.drop skip))
  return .mk body.node (body.children.take skip ++ rest)

def parameterName (params : List Tree) (i : Nat) : Except Fault (Option String) :=
  match params[i]? with
  | some p => p.node.text .name
  | none => .error .outOfRange

def parameters (f : Tree) : Except Fault (List Tree) := do
  return (← (← f.child .declaration).child .parameters).inRole .declarations

/-- The first statement of the handler, which takes the state and the place for what it waits for
from the parameters. -/
def mainFirst (f : Tree) (o : Origin) : Step Cutter Tree := do
  let n ← newNode .mainFirst o
  let params ← parameters f
  if 6 ≤ params.length then
    let n := n.setText .handlerState (← parameterName params 2)
    return .mk (n.setText .handlerWait (← parameterName params 5)) []
  else
    reportError f.origin "Too few arguments"
    return .mk n []

/-- The first statement of the function that starts a run of the handler. -/
def initFirst (f body : Tree) : Step Cutter Tree := do
  let n ← newNode .initFirst (← startOf body.origin)
  let params ← parameters f
  if 2 ≤ params.length then
    return .mk (n.setText .initState (← parameterName params 1)) []
  else
    reportError f.origin "Too few arguments"
    return .mk n []

/-- The names of the variables that outlive a state, all different, with the fault that ended the
choice. -/
def keptNames (c : Cutter) (body : Tree) : List (NodeId × Option String) × Option Fault :=
  let names := body.subtrees.map fun t => (t.id, t.node.name?)
  Persistence.distinct (c.persistence.kept.map fun v => (v, (names.lookup v).join))

def rename (names : List (NodeId × Option String)) (t : Tree) : Tree :=
  t.mapNodes fun n =>
    match names.lookup n.id with
    | some name => n.setText .name name
    | none => n

/-- Adds the machine of a function, with the variables that outlive a state. -/
def addMachine (f : Tree) (dispatch : NodeId) (main : Bool) : Step Cutter Unit := do
  let d ← f.child .declaration
  let c ← get
  set { c with machines := ← c.machines.add d.id d.node.name? dispatch main c.persistence.kept }

/-- Machines other than the handler's return a number or nothing. -/
def checkReturnType (f : Tree) : Step Cutter Unit := do
  let type ← (← f.child .declaration).child .returnType
  let c ← get
  let decl := (type.node.link? .typeDeclaration).bind fun id => c.index.get? id
  unless decl.any fun d => d.kind = .voidDecl || d.kind = .intDecl do
    reportError f.origin "Function return type not supported for sub states"

/-- Completes the body of a function that was found to have states: the dispatch goes behind the
prologue and the set-up to the start, and the variables that outlive a state get their names. -/
def complete (main : Bool) (f : Tree) (skip : Nat) (o : Origin) (body : Tree) : Cutting Tree := do
  let states := (← get).states
  let some m ← attempt (newNode .machine o) | return body
  let m := (m.setNumber .lastState (some states)).setFlag .mainMachine main
  let body := body.insertAt skip .statements (.mk m [])
  let first ← attempt <| if main then mainFirst f o else return .mk (← newNode .subFirst o) []
  let some first := first | return body
  let body := body.insertAt 0 .statements first
  let (names, clash) := keptNames (← get) body
  let body := rename names body
  let added ← attempt do
    match clash with
    | some fault => throw fault
    | none => addMachine f m.id main
  if added.isNone || main then return body
  let last ← attempt do
    checkReturnType f
    if ← body.closed then return []
    let o ← endOf body.origin
    return [(Role.statements, Tree.mk (← newNode .beforeReturn o) [])]
  return .mk body.node (body.children ++ last.getD [])

def function (main : Bool) (f : Tree) : Cutting Tree := do
  let start ← attempt do
    let body ← f.child .body
    if main && !(← body.closed) then
      reportError body.origin "Missing 'return' statement"
      return none
    let skip ← prologue (body.inRole .statements)
    return some (body, skip, ← machinePlace body skip)
  let some (some (body, skip, o)) := start | return f
  modify fun c => { c with states := 0, persistence := {} }
  let body ← bodyFrom skip body
  let body ← if (← get).states = 0 then pure body else complete main f skip o body
  return f.mapRole .body fun _ => body

/-- Sets up the function that starts a run of the handler. -/
def starter (f : Tree) : Cutting Tree := do
  let first ← attempt do initFirst f (← f.child .body)
  match first with
  | some first => return f.mapRole .body (·.insertAt 0 .statements first)
  | none => return f

def definition (f : Tree) : Cutting Tree := do
  let some d ← attempt (f.child .declaration) | return f
  match (← get).machines.names with
  | none => return f
  | some names =>
    if d.node.name? = some names.handler then function true f
    else if d.node.name? = some names.execInit then starter f
    else if d.node.name? = some names.handlerInit then return f
    else function false f

/-! ## Programs -/

/-- Cuts all functions in a tree. Of a whole program only the source is cut. -/
def functions : Tree → Cutting Tree
  | .mk n cs => do
    if ← stopped then return .mk n cs
    match n.kind with
    | .functionDefinition => definition (.mk n cs)
    | .directive | .includeFile | .constantDefine | .functionDecl | .papiFunctionDecl
    | .operatorDecl => return .mk n cs
    | .root => return .mk n (← go true cs)
    | _ => return .mk n (← go false cs)
where
  go (sourceOnly : Bool) : List (Role × Tree) → Cutting (List (Role × Tree))
    | [] => return []
    | (r, t) :: rest => do
      let t ← if sourceOnly && r ≠ .source then pure t else functions t
      return (r, t) :: (← go sourceOnly rest)

def program (pluginPrefix : String) (t : Tree) : Cutting Tree := do
  modify fun c => { c with machines := c.machines.setPrefix pluginPrefix }
  let t ← functions t
  let _ ← attempt (checkStage "state")
  return t

end Resumable.Cutting
