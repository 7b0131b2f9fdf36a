import Resumable.Machine
import Resumable.Persistence
import Resumable.Tree

/-!
# Cutting functions into states

A function that waits is cut at every place where it waits. Each cut gets a number, counted from
one, and the statements that save the number and leave the function, or jump back to the place,
are put next to the statement that is cut.

The walk rebuilds the tree. Statements that are put next to the current one are collected in
`before` and `after`, and are joined to it when its list goes on. A fault stops the walk: what is
not yet walked stays as it is, and what is done stays done.
-/

namespace Resumable

/-- What the walk through a program knows. -/
structure Cutter where
  log : Log
  machines : Machines
  index : IdMap Tree
  splitAll : Bool
  states : Nat := 0
  persistence : Persistence := {}
  before : List Tree := []
  after : List Tree := []
  fault : Option Fault := none
deriving Inhabited

instance : HasLog Cutter := ⟨(·.log), fun c l => { c with log := l }⟩

abbrev Cutting := StateM Cutter

namespace Cutting

/-- Runs a step that may fail, unless the walk has stopped already. -/
def attempt {α : Type} (s : Step Cutter α) : Cutting (Option α) := fun c =>
  match c.fault with
  | some _ => (none, c)
  | none =>
    match s c with
    | .ok a c => (some a, c)
    | .error f c => (none, { c with fault := some f })

def stopped : Cutting Bool := return (← get).fault.isSome

/-! ## Statements that are put in -/

def putBefore (t : Tree) : Step Cutter Unit := modify fun c => { c with before := c.before ++ [t] }

def putAfter (t : Tree) : Step Cutter Unit := modify fun c => { c with after := c.after ++ [t] }

def nextState : Step Cutter Nat := do
  modify fun c => { c with states := c.states + 1 }
  return (← get).states

/-- A new node at which a state ends; it knows the number of the next one. -/
def newCut (kind : Kind) (origin : Origin) : Step Cutter Node := do
  let n ← newNode kind origin
  return n.setNumber .nextState (some (← nextState))

def startOf (o : Origin) : Except Fault Origin :=
  match o.first? with
  | some s => .ok (.mark s)
  | none => .error .noMember

def endOf (o : Origin) : Except Fault Origin :=
  match o.last? with
  | some s => .ok (.mark s)
  | none => .error .noMember

def pauseAfter (origin : Origin) : Step Cutter Unit := do
  putAfter (.mk (← newCut .debugState origin) [])

/-- Ends a state before the current statement, which calls a function with states. -/
def surround (origin : Origin) : Step Cutter Unit := do
  putBefore (.mk (← newCut .beforeSub origin) [])
  putAfter (.mk (← newNode .afterSub origin) [])

/-- Passes the machine to a call of a function with states, as its first argument. -/
def passMachine (call : Tree) : Step Cutter Tree := do
  let a ← newNode .machineArgument call.origin
  let _ ← call.child .argumentList
  return call.mapRole .argumentList (·.insertAt 0 .arguments (.mk a []))

/-- Resets the machine before a statement that leaves the function. -/
def resetBefore (origin : Origin) : Step Cutter Unit := do
  let o ← startOf origin
  putBefore (.mk (← newNode .beforeReturn o) [])

/-! ## Blocking calls -/

/-- The function that starts what a blocking function waits for, and the name of the event. -/
def transferOf? : String → Option (String × String)
  | "papi_wait_for_spi_send" => some ("papi_start_sending_spi_command_16", "spi_send")
  | "papi_wait_for_i2c_send" => some ("papi_start_sending_i2c_command_16", "i2c_send")
  | "papi_wait_for_spi_receive" => some ("papi_start_receiving_spi_data_16", "spi_receive")
  | "papi_wait_for_i2c_receive" => some ("papi_start_receiving_i2c_data_16", "i2c_receive")
  | _ => none

def sleepFunction : String := "papi_sleep"

def waitNode (function : Option String) (origin : Origin) (call : Node) : Step Cutter Node := do
  if function = some sleepFunction then newNode .papiSleep origin
  else
    match function.bind transferOf? with
    | none => throw .unsupported
    | some (start, event) =>
      let n ← newNode .papiWait origin
      match call.nameSpot with
      | none => throw .noMember
      | some spot =>
        return { (n.named start).setText .waitFor (some event) with nameSpot := some spot }

/-- Turns the statement of a blocking call into one that starts what it waits for, ends the state
and goes on waiting in the next one. -/
def waitFor (n : Node) (call : Tree) : Step Cutter Tree := do
  let some id := call.node.link? .declaration | throw .noMember
  let some d := (← get).index.get? id | throw .noMember
  let w ← waitNode (← d.node.text .name) n.origin call.node
  let some args := call.child? .argumentList | throw .wrongKind
  let w := w.setNumber .nextState (some (← nextState))
  modifyLog fun l => { l with removed := l.removed ++ [n.id, call.id] }
  return .mk w [(.argumentList, args)]

end Cutting

end Resumable
