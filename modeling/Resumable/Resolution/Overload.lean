import Resumable.Resolution

/-!
# Overloads

Which of several declarations of a function or an operator is meant by a call. A declaration
accepts arguments if there are as many as parameters and each has the type of its parameter or can
be cast to it. Of the declarations that accept the arguments the one that needs the fewest casts
is meant; there must be only one such.
-/

namespace Resumable

namespace Overload

/-- Why no declaration is meant. -/
inductive Failure where
  | noMatch
  | severalCasts
  | severalExact
deriving Repr, DecidableEq, Inhabited

def Failure.message : Failure → String
  | noMatch => "None of candidates can match the arguments"
  | severalCasts => "More than a candidate can match the arguments"
  | severalExact => "More than a candidate match the arguments"

/-- The number of casts that the best declaration needs. Declarations that do not accept the
arguments have no number. -/
def fewest : List (Option Nat) → Option Nat
  | [] => none
  | none :: rest => fewest rest
  | some n :: rest =>
    match fewest rest with
    | none => some n
    | some m => some (min n m)

def positions (n : Nat) : (start : Nat) → List (Option Nat) → List Nat
  | _, [] => []
  | start, score :: rest =>
    if score = some n then start :: positions n (start + 1) rest
    else positions n (start + 1) rest

/-- The position of the declaration that is meant, by the numbers of casts. -/
def choose (scores : List (Option Nat)) : Except Failure Nat :=
  match fewest scores with
  | none => .error .noMatch
  | some n =>
    match positions n 0 scores with
    | [i] => .ok i
    | _ => .error (if n = 0 then .severalExact else .severalCasts)

end Overload

namespace Resolve

/-! ## Casts -/

def castRule? (target : Tree) (source : NodeId) : Resolve (Option Tree) := do
  let rules ← target.child .castRules
  (rules.inRole .declarations).findM? fun rule => do
    if rule.kind ≠ .castRule then throw .noMember
    return source == (← typeIn rule .sourceType)

def canCast (target source : NodeId) : Resolve Bool := do
  let t ← tree target
  if t.kind = .intDecl then return (← castRule? t source).isSome
  else if t.kind.isA .typeDecl then return false
  else throw .noMember

def insertCast (target source : NodeId) (expression : Tree) : Resolve Unit := do
  let t ← tree target
  if t.kind = .intDecl then
    match ← castRule? t source with
    | none => throw .noCast
    | some rule =>
      let type ← typeIn rule .targetType
      let id ← freshId
      modify fun r => { r with casts := r.casts.insert expression.id ⟨id, type⟩ }
  else if t.kind.isA .typeDecl then
    print s!"Node: {t.kind.title}"
    throw .noCast
  else throw .noMember

/-! ## Matching -/

def parametersOf (callable : Tree) : Resolve (List Tree) := do
  if callable.kind.isA .functionDecl then
    return (← callable.child .parameters).inRole .declarations
  else throw .noMember

def castCount : (args : List NodeId) → (params : List Tree) → Resolve (Option Nat)
  | [], [] => return some 0
  | source :: args, p :: params => do
    let target ← typeOf p.node
    let here ←
      if source = target then pure (some 0)
      else if ← canCast target source then pure (some 1)
      else pure none
    match here with
    | none => return none
    | some n => return (← castCount args params).map (n + ·)
  | _, _ => return none

/-- The number of casts that a call of a declaration needs, if it accepts the arguments. -/
def score (candidate : Tree) (args : List NodeId) : Resolve (Option Nat) := do
  if candidate.kind = .callableDecl then return none
  let params ← parametersOf candidate
  if args.length ≠ params.length then return none
  castCount args params

def reportOverload {α : Type} (origin : Origin) (failure : Overload.Failure)
    (args : List NodeId) (candidates : List Tree) : Resolve α := do
  match origin.location? with
  | none => throw .noMember
  | some place =>
    let argNames ← args.mapM typeName
    let candidateNames ← candidates.mapM fun c => do
      (← parametersOf c).mapM fun p => do typeName (← typeOf p.node)
    let listed (names : List String) : String := "(" ++ ",".intercalate names ++ ")"
    print (place ++ failure.message)
    print "Arguments:"
    print (listed argNames)
    print "Candidates:"
    for names in candidateNames do print (listed names)
    reject

/-- The declaration that is meant by a call with arguments of some types. -/
def choose (origin : Origin) (args : List NodeId) (candidates : List NodeId) :
    Resolve NodeId := do
  let trees ← candidates.mapM tree
  let scores ← trees.mapM fun c => score c args
  match Overload.choose scores with
  | .ok i =>
    match candidates[i]? with
    | some c => return c
    | none => throw .noMember
  | .error failure => reportOverload origin failure args trees

def castArguments (origin : Origin) :
    (position : Nat) → List (NodeId × Tree) → (params : List Tree) → Resolve Unit
  | position, (source, e) :: args, p :: params => do
    let target ← typeOf p.node
    if source = target then pure ()
    else if ← canCast target source then insertCast target source e
    else
      reportError origin s!"Bad argument type at position {position}"
      reject
    castArguments origin (position + 1) args params
  | _, _, _ => return

/-- Makes the arguments of a call fit the parameters of a declaration. -/
def matchArguments (callable : NodeId) (origin : Origin) (args : List NodeId)
    (expressions : List Tree) : Resolve Unit := do
  let c ← tree callable
  if c.kind = .callableDecl then throw .notCallable
  let params ← parametersOf c
  if args.length ≠ expressions.length then throw .argumentCount
  if args.length ≠ params.length then
    reportError origin
      s!"Wrong number of arguments, need {args.length} but given {params.length}"
    reject
  castArguments origin 0 (args.zip expressions) params

end Resolve

end Resumable
