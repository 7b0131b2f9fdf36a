import Resumable.Fault
import Resumable.IdMap
import Resumable.Origin

/-!
# The log of a compilation

A compilation hands out node numbers, collects error messages, remembers removed nodes and prints
lines. All of this is kept also when a step fails, so steps run in a monad whose state survives a
fault.
-/

namespace Resumable

/-- What a compilation keeps besides its trees. -/
structure Log where
  nextId : NodeId := 0
  removed : List NodeId := []
  failed : Bool := false
  errors : List String := []
  printed : List String := []
deriving Repr, Inhabited

/-- A step on some state; the state is kept when the step fails. -/
abbrev Step (σ : Type) := EStateM Fault σ

def linesOf (s : String) : List String := s.splitOn "\n"

namespace Log

def print (l : Log) (s : String) : Log := { l with printed := l.printed ++ linesOf s }

def printAll (l : Log) (ss : List String) : Log := ss.foldl print l

def fresh (l : Log) : NodeId × Log := (l.nextId, { l with nextId := l.nextId + 1 })

def fail (l : Log) : Log := { l with failed := true }

end Log

/-- States that hold a log. -/
class HasLog (σ : Type) where
  get : σ → Log
  set : σ → Log → σ

instance : HasLog Log := ⟨id, fun _ l => l⟩

section

variable {σ : Type} [HasLog σ]

def modifyLog (f : Log → Log) : Step σ Unit :=
  modify fun s => HasLog.set s (f (HasLog.get s))

def print (text : String) : Step σ Unit := modifyLog (·.print text)

def freshId : Step σ NodeId := do
  let l := HasLog.get (← get)
  modifyLog fun l => { l with nextId := l.nextId + 1 }
  return l.nextId

/-- Reports an error: notes it, adds the message to the list and prints it. -/
def reportError (o : Origin) (text : String) : Step σ Unit := do
  modifyLog Log.fail
  match o.location? with
  | some place =>
    modifyLog fun l => { l with errors := l.errors ++ [place ++ text] }
    print (place ++ text)
  | none => throw .noMember

def reject {α : Type} : Step σ α := do throw (.rejected (HasLog.get (← get)).errors)

def checkStage (name : String) : Step σ Unit := do
  if (HasLog.get (← get)).failed then
    print s!"Stage '{name}' giving up"
    reject

end

end Resumable
