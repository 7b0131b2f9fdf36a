import Resumable.Edits.Text

/-!
# Faults

The ways in which a step of the compiler can fail. Apart from rejected programs, a fault says
which expectation of a step was not met; faults of one family are told apart only by their cause.
-/

namespace Resumable

/-- What a step that failed had expected. -/
inductive Fault where
  | rejected (messages : List String)

  | cycle
  | unresolved
  | failedBefore

  | emptySlot
  | filledSlot
  | requiredSlot
  | wrongKind
  | badSplit
  | orphan
  | strayNode
  | unknownNode
  | forbiddenAttribute
  | unsupported
  | badType
  | badStatus
  | noScope
  | notCallable
  | argumentCount
  | noCast
  | declaredTwice
  | machineTwice
  | badText
  | blockingCall
  | badFieldType
  | unfinishedLine
  | missingLine
  | doubledEdit

  /-- A node, a scope or an origin was asked for something that it does not have. -/
  | noMember
  | notText
  | notNumber
  | outOfRange
  | noField
  | conflict (c : Edits.ReadError)
  | badRange (b : Edits.BadRange)
  | malformed
  | notAscii
  | notSentence (t : Token)
  | tooDeep
deriving Repr, DecidableEq, Inhabited

end Resumable
