import Resumable.Token

/-!
# Origins

Every node of the syntax tree knows where it comes from: a stretch of the source text, a single
token of it, or some place outside of it, such as the built-in declarations.
-/

namespace Resumable

/-- A place in the source text that a node can refer to: a token by its number and its line. -/
structure Spot where
  index : Nat
  line : Int
deriving Repr, DecidableEq, Inhabited

def Token.spot (t : Token) : Spot := ⟨t.index, t.line⟩

/-- Where a node comes from. -/
inductive Origin where
  | named (text : String)
  | leaf (s : Spot)
  | span (first last : Spot)
  | mark (s : Spot)
  | document
  | unknown
deriving Repr, DecidableEq, Inhabited

namespace Origin

def builtin : Origin := named "<builtin>"
def root : Origin := named "<root>"
def none : Origin := named "<none>"
def internal : Origin := named "<internal>"
def manifest : Origin := named "<manifest>"

/-- How messages name the place. A document has no place that could be named. -/
def location? : Origin → Option String
  | named text => some s!"<{text}>, "
  | leaf s => some s!"line {s.line}, "
  | span first last =>
    if first.line = last.line then some s!"line {first.line}, "
    else some s!"lines {first.line}-{last.line}, "
  | document => Option.none
  | mark _ | unknown => some "<unknown>, "

def lines? : Origin → Option (Int × Int)
  | leaf s => some (s.line, s.line)
  | span first last => some (first.line, last.line)
  | _ => Option.none

def first? : Origin → Option Spot
  | span first _ => some first
  | _ => Option.none

def last? : Origin → Option Spot
  | span _ last => some last
  | _ => Option.none

end Origin

end Resumable
