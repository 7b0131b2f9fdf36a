import Resumable.Tree

/-!
# Accounting of nodes

Every node that was ever made must be in the tree or be noted as removed, and in one place only.
The report lists the numbers that occur again or not at all. A node is told who its parent is when
it is put into a place, and never again, so this has to be checked as well.
-/

namespace Resumable

/-- A line of the report on node numbers. -/
inductive Finding where
  | again (id : NodeId)
  | missing (id : NodeId)
  | missingRange (first last : NodeId)
deriving Repr, DecidableEq, Inhabited

namespace Finding

def message : Finding → String
  | again id => s!"Node {id} has been reached again"
  | missing id => s!"Node {id} has not been reached"
  | missingRange first last => s!"Node range {first} to {last} has not been reached"

end Finding

/-- The outcome of the accounting. -/
structure Account where
  findings : List Finding := []
  sound : Bool := true
deriving Repr, DecidableEq, Inhabited

namespace Account

def note (f : Finding) (a : Account) : Account := { a with findings := f :: a.findings }

/-- Goes through sorted numbers, where `expected` is the least number that has not occurred. -/
def scan (total : NodeId) : (expected : NodeId) → List NodeId → Account
  | expected, [] =>
    if expected < total then { findings := [.missingRange expected (total - 1)] }
    else { sound := expected = total }
  | expected, id :: rest =>
    if id = expected then scan total (expected + 1) rest
    else if id + 1 = expected then note (.again id) (scan total expected rest)
    else if id = expected + 1 then note (.missing expected) (scan total (id + 1) rest)
    else if expected + 1 < id then
      note (.missingRange expected (id - 1)) (scan total (id + 1) rest)
    else { sound := false }

/-- The account of the numbers that occur, out of all numbers below `total`. -/
def ofIds (total : NodeId) (ids : List NodeId) : Account :=
  scan total 0 (ids.mergeSort fun a b => decide (a ≤ b))

end Account

/-! ## Parents -/

/-- A node that holds another one in some role. -/
structure Holding where
  holder : NodeId
  role : Role
  held : NodeId
deriving Repr, DecidableEq, Inhabited

def Tree.holdings (t : Tree) : List Holding :=
  t.subtrees.flatMap fun s => s.children.map fun p => ⟨s.id, p.1, p.2.id⟩

def IdMap.holds (index : IdMap Tree) (h : Holding) : Bool :=
  (index.get? h.holder).any fun t => (t.inRole h.role).any (·.id == h.held)

/-- A node that is put into a place gets the node that holds it as its parent. Nodes that stay in
their places keep the parent that they have. -/
def Tree.attach (before after : Tree) (parents : IdMap NodeId) : IdMap NodeId :=
  let index := IdMap.empty.addTree before
  (after.holdings.filter fun h => !index.holds h).foldl (fun ps h => ps.insert h.held h.holder)
    parents

/-- Whether every node that is held has the node that holds it as its parent. -/
def Tree.wired (t : Tree) (parents : IdMap NodeId) : Bool :=
  t.holdings.all fun h => parents.get? h.held == some h.holder

/-- Prints which of the nodes made so far are lost or occur again. -/
def reportReached {σ : Type} [HasLog σ] (reached : List NodeId) : Step σ Unit := do
  let log := HasLog.get (← get)
  let account := Account.ofIds log.nextId (reached ++ log.removed)
  modifyLog fun l => l.printAll (account.findings.map Finding.message)
  unless account.sound do throw .unknownNode

end Resumable
