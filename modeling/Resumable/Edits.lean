import Resumable.Token

/-!
# Edits of a token list

Edits are recorded against the numbers of the tokens and applied only when the text is read. A
reading first reduces the recorded edits so that at most one is left for each token, and fails if
two of them are in conflict.
-/

namespace Resumable

/-- An edit of a token list. Tokens are named by their numbers. -/
inductive Edit where
  | insert (index : Int) (text : String)
  /-- Puts a text in the place of the tokens `first` to `last`, or nothing. -/
  | replace (first last : Int) (text : Option String)
deriving Repr, DecidableEq, Inhabited

namespace Edit

def index : Edit → Int
  | insert i _ => i
  | replace first _ _ => first

def brief : Edit → String
  | insert i text => s!"I.{i}.'{text}'"
  | replace first last text =>
    let range := if first = last then s!"{first}" else s!"{first}-{last}"
    s!"R.{range}." ++ "'" ++ text.getD "None" ++ "'"

end Edit

/-- Two edits that do not go together. -/
inductive Conflict where
  | overlap (later earlier : Edit)
  | inside (insertion replacement : Edit)
deriving Repr, DecidableEq, Inhabited

namespace Conflict

def message : Conflict → String
  | overlap later earlier =>
    s!"replace op boundaries of {later.brief} overlap with previous {earlier.brief}"
  | inside insertion replacement =>
    s!"insert op {insertion.brief} within boundaries of previous {replacement.brief}"

end Conflict

/-- The recorded edits in the order of recording. A dropped edit leaves a gap. -/
abbrev Edits := List (Option Edit)

namespace Edits

/-! ## Replacements

A replacement takes over the insertions at its first token and drops those further inside. It
drops earlier replacements that it covers. -/

/-- Lets a replacement take over or drop the insertions recorded before it. The text of an
insertion at the first token goes in front of the replacement's text. -/
def takeInsertions (first last : Int) (text : Option String) :
    Edits → Edits × Option String
  | [] => ([], text)
  | some (.insert i t) :: es =>
    if i = first then
      let (es, text) := takeInsertions first last (some (t ++ text.getD "")) es
      (none :: es, text)
    else if first < i ∧ i ≤ last then
      let (es, text) := takeInsertions first last text es
      (none :: es, text)
    else
      let (es, text) := takeInsertions first last text es
      (some (.insert i t) :: es, text)
  | e :: es =>
    let (es, text) := takeInsertions first last text es
    (e :: es, text)

/-- Compares a replacement with those recorded before it. Covered ones are dropped, and two
deletions that touch become one. -/
def takeReplacements (first last : Int) (text : Option String) :
    Edits → Edits × (Int × Int) × Option Conflict
  | [] => ([], (first, last), none)
  | some (.replace f l t) :: es =>
    if first ≤ f ∧ l ≤ last then
      let (es, r) := takeReplacements first last text es
      (none :: es, r)
    else if l < first ∨ last < f then
      let (es, r) := takeReplacements first last text es
      (some (.replace f l t) :: es, r)
    else if t.isNone ∧ text.isNone then
      let (es, r) := takeReplacements (min f first) (max l last) text es
      (none :: es, r)
    else
      (some (.replace f l t) :: es, (first, last),
        some (.overlap (.replace first last text) (.replace f l t)))
  | e :: es =>
    let (es, r) := takeReplacements first last text es
    (e :: es, r)

/-- Goes through the replacements in the order of recording; `before` holds what was recorded
before the rest. -/
def reduceReplacements (before : Edits) : Edits → Edits × Option Conflict
  | [] => (before, none)
  | some (.replace first last text) :: es =>
    let (before, text) := takeInsertions first last text before
    match takeReplacements first last text before with
    | (before, (first, last), none) =>
      reduceReplacements (before ++ [some (.replace first last text)]) es
    | (before, (first, last), some c) =>
      (before ++ some (.replace first last text) :: es, some c)
  | e :: es => reduceReplacements (before ++ [e]) es

/-! ## Insertions

Insertions at one token become one, in the order of recording. One at the first token of an
earlier replacement goes in front of its text. -/

/-- Drops the earlier insertions at the same token and puts their texts in front. -/
def joinInsertions (index : Int) (text : String) : Edits → Edits × String
  | [] => ([], text)
  | some (.insert i t) :: es =>
    if i = index then
      let (es, text) := joinInsertions index (t ++ text) es
      (none :: es, text)
    else
      let (es, text) := joinInsertions index text es
      (some (.insert i t) :: es, text)
  | e :: es =>
    let (es, text) := joinInsertions index text es
    (e :: es, text)

/-- Compares an insertion with the replacements recorded before it; the flag says whether one of
them took its text over. -/
def meetReplacements (index : Int) (text : String) :
    Edits → Edits × Bool × Option Conflict
  | [] => ([], false, none)
  | some (.replace f l t) :: es =>
    if index = f then
      let (es, _, c) := meetReplacements index text es
      (some (.replace f l (some (text ++ t.getD ""))) :: es, true, c)
    else if f ≤ index ∧ index ≤ l then
      (some (.replace f l t) :: es, false,
        some (.inside (.insert index text) (.replace f l t)))
    else
      let (es, r) := meetReplacements index text es
      (some (.replace f l t) :: es, r)
  | e :: es =>
    let (es, r) := meetReplacements index text es
    (e :: es, r)

/-- Goes through the insertions in the order of recording. -/
def reduceInsertions (before : Edits) : Edits → Edits × Option Conflict
  | [] => (before, none)
  | some (.insert index text) :: es =>
    let (before, text) := joinInsertions index text before
    let (before, taken, conflict) := meetReplacements index text before
    let self := if taken then none else some (.insert index text)
    match conflict with
    | none => reduceInsertions (before ++ [self]) es
    | some c => (before ++ self :: es, some c)
  | e :: es => reduceInsertions (before ++ [e]) es

/-- Reduces the recorded edits to at most one for each token, or stops at the first conflict. -/
def reduce (es : Edits) : Edits × Option Conflict :=
  match reduceReplacements [] es with
  | (es, none) => reduceInsertions [] es
  | (es, some c) => (es, some c)

/-! ## Recording -/

/-- Why an edit is not recorded. -/
structure BadRange where
  first : Int
  last : Int
  size : Nat
deriving Repr, DecidableEq, Inhabited

def BadRange.message (b : BadRange) : String :=
  s!"replace: range invalid: {b.first}..{b.last}(size={b.size})"

def insertBefore (es : Edits) (index : Int) (text : String) : Edits :=
  es ++ [some (.insert index text)]

def insertAfter (es : Edits) (index : Int) (text : String) : Edits :=
  es.insertBefore (index + 1) text

/-- Records a replacement of tokens of a list of the given size. -/
def replace (es : Edits) (size : Nat) (first last : Int) (text : Option String) :
    Except BadRange Edits :=
  if last < first ∨ first < 0 ∨ last < 0 ∨ (size : Int) ≤ last then .error ⟨first, last, size⟩
  else .ok (es ++ [some (.replace first last text)])

end Edits

end Resumable
