import Resumable.Proofs.Walk.Program

/-!
# What a walk does to the nodes of a kind

Cutting moves calls and statements and puts nodes of its own next to them, but the only nodes of the
source that it takes out are those of blocking calls that are statements, each of which becomes a
wait. So the sum of any weight of nodes over a function changes by the weights of these nodes.

* `Cutting.CutsStatements.turns`: what becomes of the sum of a weight in a row of statements.
-/

namespace Resumable

open List Resumable.Tree

variable {cs : Children} {t : Tree} {w : Node → Nat}

namespace Tree

/-- The weight of all nodes of a tree. -/
def total (t : Tree) (w : Node → Nat) : Nat := (t.subtrees.map fun u => w u.node).sum

def totals (cs : Children) (w : Node → Nat) : Nat := (cs.map fun p => p.2.total w).sum

@[simp] theorem totals_nil : totals [] w = 0 := rfl

@[simp] theorem totals_cons (r : Role) (t : Tree) (cs : Children) :
    totals ((r, t) :: cs) w = t.total w + totals cs w := by
  simp [totals]

@[simp] theorem totals_append (cs ds : Children) :
    totals (cs ++ ds) w = totals cs w + totals ds w := by
  simp [totals]

theorem sum_nodesOf (ts : List Tree) :
    ((nodesOf ts).map w).sum = (ts.map (·.total w)).sum := by
  induction ts with
  | nil => rfl
  | cons t ts ih =>
    have htotal : (t.nodes.map w).sum = t.total w := by
      rw [nodes, Multiset.map_coe, Multiset.sum_coe, map_map]
      rfl
    rw [nodesOf_cons, Multiset.map_add, Multiset.sum_add, htotal, ih, map_cons, sum_cons]

theorem sum_beneath (cs : Children) : ((beneath cs).map w).sum = totals cs w := by
  rw [beneath, sum_nodesOf, map_map]
  rfl

@[simp] theorem total_mk (n : Node) (cs : Children) :
    (mk n cs).total w = w n + totals cs w := by
  have hsum := sum_nodesOf (w := w) [mk n cs]
  simpa [sum_beneath] using hsum.symm

/-- A weight that does not see a change of nodes has the same sum. -/
theorem total_mapNodes {g : Node → Node} (hg : ∀ n, w (g n) = w n) (t : Tree) :
    (t.mapNodes g).total w = t.total w := by
  induction t using ofChildren with
  | step n cs ih =>
    have hcs : totals (mapNodes.go g cs) w = totals cs w := by
      rw [mapNodes_go_eq_map, totals, totals, map_map]
      exact congrArg List.sum (map_congr_left ih)
    rw [mapNodes, total_mk, total_mk, hg, hcs]

theorem total_eq_zero (h : ∀ u ∈ t.subtrees, w u.node = 0) : t.total w = 0 := by
  refine sum_eq_zero fun x hx => ?_
  obtain ⟨u, hu, rfl⟩ := mem_map.mp hx
  exact h u hu

end Tree

/-- The sum of a weight over what waits next to the current statement. -/
def Cutter.weight (w : Node → Nat) (c : Cutter) : Nat :=
  ((c.before ++ c.after).map (·.total w)).sum

namespace Cutting

/-- A weight that does not depend on names, and is zero for all nodes that cutting puts in but
waits. -/
structure Weighs (w : Node → Nat) : Prop where
  named : ∀ n s, w (n.setText .name s) = w n
  added : ∀ n, n.kind.added = true → w n = 0

/-- The weight of the calls that became waits, with their statements. -/
def lost (w : Node → Nat) (ts : List Turn) : Nat :=
  (ts.map fun x => w x.statement + w x.call).sum

/-- The weight of the waits. -/
def gained (w : Node → Nat) (ts : List Turn) : Nat := (ts.map fun x => w x.wait).sum

/-- Weights are balanced, but for the blocking calls that became waits. -/
def Turns (c c' : Cutter) (had has : (Node → Nat) → Nat) (calls : List NodeId) : Prop :=
  ∃ ts : List Turn, ts.map (·.call.id) = calls ∧
    ∀ w, Weighs w → has w + c'.weight w + lost w ts = had w + c.weight w + gained w ts

variable {c c' : Cutter} {cs' : Children}

theorem lost_eq_sum (ts : List Turn) : lost w ts = ((turned ts).map w).sum := by
  induction ts with
  | nil => rfl
  | cons x ts ih =>
    rw [turned, flatMap_cons, map_append, sum_append, ← turned, ← ih]
    simp [lost]

theorem CutsStatements.turns (h : CutsStatements c cs cs' c') (hu : ∀ p ∈ cs, p.2.uncut = true)
    (hb : ∀ p ∈ cs', p.2.unblocked = true) :
    Turns c c' (totals cs) (totals cs') (cs.flatMap (·.2.blockingStatements)) := by
  obtain ⟨ts, hmoves, hcalls⟩ := h.moves
  obtain ⟨put, hput, -, hsum⟩ := hmoves.balance
  refine ⟨ts, hcalls hu hb, fun w hw => ?_⟩
  have hweights := congrArg (fun s => (s.map w).sum) hsum
  -- what is put in weighs nothing
  have hzero : (put.map w).sum = 0 := Multiset.sum_eq_zero fun k hk => by
    obtain ⟨n, hn, rfl⟩ := Multiset.mem_map.mp hk
    exact hw.added n (hput n hn)
  have hgained : ((ts.map (·.wait)).map w).sum = gained w ts := by
    rw [gained, map_map]
    rfl
  simp only [Multiset.map_add, Multiset.sum_add, Multiset.map_coe, Multiset.sum_coe, Cutter.around,
    sum_beneath, sum_nodesOf, hzero, hgained, ← lost_eq_sum, Nat.zero_add] at hweights
  exact hweights

end Cutting

end Resumable
