import Resumable.Edits

/-!
# Reading an edited token list

Reading walks over the tokens of an interval, applies the edit recorded for each token, and writes
the texts of the others. Behind the last token of the list come the edits that stand there or
further on.
-/

namespace Resumable

namespace Edits

/-- Why a reading fails. -/
inductive ReadError where
  | conflict (c : Conflict)
  | doubled
  | textless
deriving Repr, DecidableEq, Inhabited

/-- The text that a token contributes; the end of the text contributes none. -/
def tokenText (tokens : Array Token) (i : Int) : String :=
  match tokens[i.toNat]? with
  | some t => if t.kind = .endOfFile then "" else t.text
  | none => ""

def plainText (tokens : Array Token) (start stop : Int) : String :=
  if start < 0 ∨ stop < 0 then ""
  else
    let range := (tokens.toList.take (stop.toNat + 1)).drop start.toNat
    String.join ((range.takeWhile (·.kind ≠ .endOfFile)).map (·.text))

def takeAt (i : Int) : List Edit → Option (Edit × List Edit)
  | [] => none
  | e :: es => if e.index = i then some (e, es) else (takeAt i es).map fun r => (r.1, e :: r.2)

/-- Walks from token `i` to `stop`; gives the text and the edits that were not met. Every step
goes to a later token, so `fuel` steps are enough for `fuel` tokens. -/
def walk (tokens : Array Token) (stop : Int) : Nat → Int → List Edit → String × List Edit
  | 0, _, es => ("", es)
  | fuel + 1, i, es =>
    if i ≤ stop ∧ i < tokens.size then
      match takeAt i es with
      | some (.insert _ text, es) =>
        let (rest, es) := walk tokens stop fuel (i + 1) es
        (text ++ tokenText tokens i ++ rest, es)
      | some (.replace _ last text, es) =>
        let (rest, es) := walk tokens stop fuel (last + 1) es
        (text.getD "" ++ rest, es)
      | none =>
        let (rest, es) := walk tokens stop fuel (i + 1) es
        (tokenText tokens i ++ rest, es)
    else ("", es)

/-- The texts of the edits that stand at the last token or behind it. -/
def trailing (size : Nat) : List Edit → Except ReadError String
  | [] => .ok ""
  | e :: es =>
    if (size : Int) - 1 ≤ e.index then
      match e with
      | .insert _ t | .replace _ _ (some t) => (trailing size es).map (t ++ ·)
      | .replace _ _ none => .error .textless
    else trailing size es

def oneEach : List Edit → Bool
  | [] => true
  | e :: es => es.all (fun f => f.index ≠ e.index) && oneEach es

def reducedText (tokens : Array Token) (start stop : Int) (es : List Edit) :
    Except ReadError String := do
  unless oneEach es do throw .doubled
  let (text, left) := walk tokens stop tokens.size start es
  if stop = (tokens.size : Int) - 1 then
    return text ++ (← trailing tokens.size left)
  else
    return text

/-- Reads the tokens `start` to `stop` with the recorded edits applied. The edits are left
reduced, also when the reading fails. -/
def read (es : Edits) (tokens : Array Token) (start stop : Int) :
    Except ReadError String × Edits :=
  let stop := min stop ((tokens.size : Int) - 1)
  let start := max start 0
  if es.isEmpty then (.ok (plainText tokens start stop), es)
  else
    match es.reduce with
    | (es, some c) => (.error (.conflict c), es)
    | (es, none) => (reducedText tokens start stop (es.filterMap id), es)

def readAll (es : Edits) (tokens : Array Token) : Except ReadError String × Edits :=
  es.read tokens 0 ((tokens.size : Int) - 1)

end Edits

end Resumable
