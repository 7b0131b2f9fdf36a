import Resumable.ParseTree

/-!
# Parts of a node

Which parts a node of a given form can have is read off the grammar: the rules and the open token
classes that occur in the alternatives of the form, and whether one alternative can hold several
of a kind.
-/

namespace Resumable

/-- A kind of part: a rule or a class of tokens. -/
inductive Part where
  | rule (r : Rule)
  | token (k : TokenKind)
deriving Repr, DecidableEq, Inhabited

namespace Part

def tokenClasses : List TokenKind :=
  [.identifier, .integerConstant, .floatingConstant, .characterConstant, .stringLiteral,
   .lineDirective, .pragmaDirective, .endOfFile]

def all : List Part := Rule.all.map rule ++ tokenClasses.map token

def name : Part → String
  | rule r => r.name
  | token k => k.name

def fits : Part → ParseTree → Bool
  | rule r, t => t.isRule r
  | token k, t => t.isToken k

end Part

/-- How many parts of the kind a body holds at most, where two stands for any number above
one. -/
def Body.most (p : Part) : Body → Nat
  | .done => 0
  | .token k => if p = .token k then 1 else 0
  | .rule r _ => if p = .rule r then 1 else 0
  | .seq a b => min 2 (a.most p + b.most p)
  | .alt a b => max (a.most p) (b.most p)
  | .opt a => a.most p
  | .many a => if a.most p = 0 then 0 else 2

namespace Form

/-- The bodies of the alternatives that have this form, leading operands included. -/
def bodies (f : Form) : List Body :=
  let d := f.rule.definition
  (d.plain.filter (·.form = f)).map (·.body)
    ++ (d.tails.filter (·.form = f)).map fun t => .seq (.rule f.rule 0) t.body

/-- The parts that a node of this form can have, and whether it can have several of them. -/
def parts (f : Form) : List (Part × Bool) :=
  Part.all.filterMap fun p =>
    match (f.bodies.map (·.most p)).foldl max 0 with
    | 0 => none
    | n => some (p, n > 1)

end Form

namespace ParseTree

/-- The places of the parts of a kind among the children of a node. -/
def places (p : Part) (t : ParseTree) : List Nat :=
  (t.children.zipIdx.filter fun c => p.fits c.1).map (·.2)

def nodes : ParseTree → List (Form × ParseTree)
  | leaf _ => []
  | node f cs => (f, node f cs) :: go cs
where
  go : List ParseTree → List (Form × ParseTree)
    | [] => []
    | c :: cs => nodes c ++ go cs

end ParseTree

end Resumable
