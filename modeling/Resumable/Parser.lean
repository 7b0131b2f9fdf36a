import Resumable.Lexer
import Resumable.ParseTree

/-!
# Parsing

The parser reads the grammar as ordered choice with full backtracking. For every place in the
token list, every rule and every level, the chart holds what the rule can read there: for each
place where it can stop, the first way of getting there. A chart has a row for every number of
tokens still to come, and a row only looks at shorter ones and at rules that stand earlier in
`Rule.all`, so the rows are built one after the other.
-/

namespace Resumable

/-- What was read at a place. Places are given by the number of tokens still to come. -/
structure Reading (α : Type) where
  /-- For each place where reading can stop, the first way of getting there; preferred ones
  stand first. -/
  stops : List (Nat × α)
  reach : Nat
deriving Inhabited

namespace Reading

variable {α β γ : Type}

def merge (xs ys : List (Nat × α)) : List (Nat × α) :=
  if xs.isEmpty then ys
  else xs ++ ys.filter fun y => !xs.any fun x => x.1 == y.1

def stay (n : Nat) (a : α) : Reading α := ⟨[(n, a)], n + 1⟩

def or (x y : Reading α) : Reading α := ⟨merge x.stops y.stops, min x.reach y.reach⟩

def bind (x : Reading α) (f : Nat → Reading β) (join : α → β → γ) : Reading γ :=
  x.stops.foldl
    (fun (acc : Reading γ) s =>
      let y := f s.1
      acc.or ⟨y.stops.map fun t => (t.1, join s.2 t.2), y.reach⟩)
    ⟨[], x.reach⟩

def map (f : α → β) (x : Reading α) : Reading β := ⟨x.stops.map fun s => (s.1, f s.2), x.reach⟩

end Reading

abbrev Forest := List ParseTree

namespace Body

/-- Reads a step as often as possible; each further one must come closer to the end. -/
def iterate (step : Nat → Reading Forest) : Nat → Nat → Reading Forest
  | 0, n => Reading.stay n []
  | fuel + 1, n =>
    let once := step n
    let forward : Reading Forest := ⟨once.stops.filter (·.1 < n), once.reach⟩
    (forward.bind (iterate step fuel) (· ++ ·)).or (Reading.stay n [])

def read (token : Nat → Option Token) (rules : Rule → Nat → Nat → Reading Forest) :
    Body → Nat → Reading Forest
  | .done, n => Reading.stay n []
  | .token k, n =>
    match token n with
    | some t => if t.kind == k then ⟨[(n - 1, [ParseTree.leaf t])], n⟩ else ⟨[], n⟩
    | none => ⟨[], n⟩
  | .rule r level, n => rules r level n
  | .seq a b, n => (a.read token rules n).bind (b.read token rules) (· ++ ·)
  | .alt a b, n => (a.read token rules n).or (b.read token rules n)
  | .opt a, n => (a.read token rules n).or (Reading.stay n [])
  | .many a, n => iterate (a.read token rules) n n

end Body

/-- The tails that follow an operand: for each, its form and the trees after the operand. -/
abbrev Suffix := List (Form × Forest)

/-- What a rule can read at one place, by level. The values are computed when they are asked
for. -/
structure Cell where
  whole : Array (Thunk (Reading Forest))
  tails : Array (Thunk (Reading Suffix))

/-- The cells of all rules at one place, in the order of `Rule.all`. -/
structure Row where
  token : Option Token
  cells : Array Cell

/-- The rows by the number of tokens to come. -/
structure Chart where
  rows : Array Row

namespace Rule

def levels : Rule → Nat
  | .unaryExpression => 4
  | .logicalOrExpression => 12
  | _ => 1

end Rule

namespace Chart

def fold (operand : ParseTree) (s : Suffix) : ParseTree :=
  s.foldl (fun t step => ParseTree.node step.1 (t :: step.2)) operand

def readPlain (read : Body → Nat → Reading Forest) (r : Rule) (n : Nat) : Reading ParseTree :=
  r.definition.plain.foldl
    (fun (acc : Reading ParseTree) a =>
      acc.or ((read a.body n).map fun ts => ParseTree.node a.form ts))
    ⟨[], n + 1⟩

/-- The tails of a rule that bind at least as strongly as the level, or none of them. -/
def readTails (read : Body → Nat → Reading Forest) (later : Nat → Reading Suffix) (r : Rule)
    (level n : Nat) : Reading Suffix :=
  let usable := r.definition.tails.filter fun t => decide (level ≤ t.strength)
  let once : Reading Suffix := usable.foldl
    (fun acc t => acc.or ((read t.body n).bind later fun ts s => (t.form, ts) :: s))
    ⟨[], n + 1⟩
  once.or (Reading.stay n [])

def cell (c : Chart) (token : Option Token) (earlier : Array Cell) (r : Rule) : Cell :=
  let n := c.rows.size
  let tokenAt (k : Nat) : Option Token := if k == n then token else (c.rows[k]?).bind (·.token)
  let cellAt (k : Nat) (r : Rule) : Option Cell :=
    if k == n then earlier[r.ctorIdx]? else (c.rows[k]?).bind fun row => row.cells[r.ctorIdx]?
  let wholeAt (r : Rule) (level k : Nat) : Reading Forest :=
    match (cellAt k r).bind fun cell => cell.whole[level]? with
    | some t => t.get
    | none => ⟨[], k + 1⟩
  let tailAt (r : Rule) (level k : Nat) : Reading Suffix :=
    match (cellAt k r).bind fun cell => cell.tails[level]? with
    | some t => t.get
    | none => ⟨[], k + 1⟩
  let read := Body.read tokenAt wholeAt
  let levels := List.range r.levels
  { whole := (levels.map fun level => Thunk.mk fun _ =>
      (readPlain read r n).bind (tailAt r level) fun t s => [fold t s]).toArray
    tails := (levels.map fun level => Thunk.mk fun _ =>
      readTails read (tailAt r level) r level n).toArray }

def row (c : Chart) (token : Option Token) : Row :=
  ⟨token, Rule.all.foldl (fun earlier r => earlier.push (c.cell token earlier r)) #[]⟩

def push (c : Chart) (token : Option Token) : Chart := ⟨c.rows.push (c.row token)⟩

def build (tokens : List Token) : Chart :=
  tokens.foldr (fun t c => c.push (some t)) ((⟨#[]⟩ : Chart).push none)

def token? (c : Chart) (n : Nat) : Option Token := (c.rows[n]?).bind (·.token)

def whole (c : Chart) (r : Rule) (level n : Nat) : Reading Forest :=
  match ((c.rows[n]?).bind fun row => row.cells[r.ctorIdx]?).bind
      fun cell => cell.whole[level]? with
  | some t => t.get
  | none => ⟨[], n + 1⟩

/-- The body that has to take all tokens when a rule is the start: the rule and the end of the
text, which a compilation unit holds itself. -/
def goal : Rule → Body
  | .compilationUnit => .rule .compilationUnit 0
  | r => .seq (.rule r 0) (.token .endOfFile)

/-- The first parse of all tokens, or the token where they stop being the beginning of a
sentence. -/
def parse (c : Chart) (start : Rule) : Except Token ParseTree :=
  let reading := (goal start).read c.token? c.whole (c.rows.size - 1)
  match reading.stops.find? (·.1 == 0) with
  | some (_, t :: _) => .ok t
  | _ => .error ((c.token? reading.reach).getD default)

end Chart

def Source.parse (s : Source) (start : Rule) : Except Token ParseTree :=
  (Chart.build s.visible.toList).parse start

end Resumable
