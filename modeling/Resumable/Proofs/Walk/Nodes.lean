import Resumable.Proofs.Making
import Resumable.Proofs.Renaming
import Resumable.Proofs.Walk

/-!
# The nodes of a walk

A walk through a function makes nodes, puts them into the tree or next to the current statement,
and takes the two nodes of a blocking call that is a statement out, which becomes a wait. No other
node is lost and none comes twice: what is in hand behind a walk, together with what was taken out,
is what was in hand before it with what was made.

* `Cutter.Moves`: the balance of nodes of a walk, with the calls that were turned into waits.
* `Cutting.CutsStatement.moves`: the balance for a statement. Every blocking call in it that is a
  statement was turned, if none is left.
* `Cutting.CutsStatements.gains`: the same for the numbers of the nodes.
-/

namespace Resumable

open List Resumable.Tree

variable {c c₁ c' c₂ : Cutter} {n m a : Node} {as cs cs' : Children} {t t' : Tree} {stmt : Origin}

namespace Kind

/-- The kinds of nodes that cutting puts next to those of the source. -/
def added : Kind → Bool
  | papiWait | papiSleep => false
  | k => k.inserted

/-- The kinds of statements that hold other ones. -/
def compound : Kind → Bool
  | statementList | ifElse | loop | whileLoop | doWhileLoop | forLoop => true
  | _ => false

end Kind

/-! ## Numbers -/

/-- Between two logs, the nodes in hand and those taken out grew by those drawn. -/
structure Log.Gains (l l' : Log) (had has : Multiset NodeId) : Prop where
  le : l.nextId ≤ l'.nextId
  has : has + (l'.removed : Multiset NodeId) = had + (l.removed : Multiset NodeId) + l.drawn l'

namespace Log

variable {l' l : Log} {b : Multiset NodeId}

theorem Gains.refl (l : Log) (had : Multiset NodeId) : l.Gains l had had :=
  ⟨le_rfl, by rw [drawn_self, add_zero]⟩

theorem Gains.trans {l l' l'' : Log} {a c : Multiset NodeId} (h : l.Gains l' a b)
    (h' : l'.Gains l'' b c) : l.Gains l'' a c where
  le := h.le.trans h'.le
  has := by rw [h'.has, h.has, add_assoc, drawn_add h.le h'.le]

theorem Gains.add {a a' b' : Multiset NodeId} (h : l.Gains l' a b) (rest : Multiset NodeId)
    (ha : a' = a + rest) (hb : b' = b + rest) : l.Gains l' a' b' where
  le := h.le
  has := by
    rw [ha, hb]
    calc b + rest + (l'.removed : Multiset NodeId)
        = b + l'.removed + rest := by abel
      _ = a + l.removed + l.drawn l' + rest := by rw [h.has]
      _ = a + rest + l.removed + l.drawn l' := by abel

theorem Grows.gains {a : Multiset NodeId} (h : l.Grows l' a b) :
    l.Gains l' a b where
  le := h.le
  has := by
    rw [h.has, h.removed]
    abel

end Log

namespace Cutter

/-- The numbers of what waits next to the current statement. -/
def beside (c : Cutter) : Multiset NodeId := bags c.before + bags c.after

/-- The balance of the numbers between two moments of a walk. -/
structure Gains (c c' : Cutter) (had has : Multiset NodeId) : Prop where
  failed : c'.log.failed = c.log.failed
  balance : c.log.Gains c'.log (had + c.beside) (has + c'.beside)

end Cutter

namespace Tree

@[simp] theorem bag_append (t : Tree) (cs : Children) :
    (mk t.node (t.children ++ cs)).bag = t.bag + under cs := by
  obtain ⟨n, ds⟩ := t
  simp only [node, children, bag_mk, under_append, add_assoc]

theorem bag_mapNodes {f : Node → Node} (hf : ∀ n, (f n).id = n.id) (t : Tree) :
    (t.mapNodes f).bag = t.bag := by
  induction t using ofChildren with
  | step n cs ih =>
    have hunder : under (mapNodes.go f cs) = under cs := by
      rw [mapNodes_go_eq_map, under_eq_sum, under_eq_sum, map_map]
      exact congrArg List.sum (map_congr_left ih)
    rw [mapNodes, bag_mk, bag_mk, hf, hunder]

/-! ## Nodes -/

def nodes (t : Tree) : Multiset Node := (t.subtrees.map node : List Node)

def nodesOf (ts : List Tree) : Multiset Node := (ts.map nodes).sum

def beneath (cs : Children) : Multiset Node := nodesOf (cs.map (·.2))

@[simp] theorem nodesOf_nil : nodesOf [] = 0 := rfl

@[simp] theorem nodesOf_cons (t : Tree) (ts : List Tree) :
    nodesOf (t :: ts) = t.nodes + nodesOf ts := by
  simp [nodesOf]

@[simp] theorem nodesOf_append (ts us : List Tree) :
    nodesOf (ts ++ us) = nodesOf ts + nodesOf us := by
  simp [nodesOf]

@[simp] theorem beneath_nil : beneath [] = 0 := rfl

@[simp] theorem beneath_cons (r : Role) (t : Tree) (cs : Children) :
    beneath ((r, t) :: cs) = t.nodes + beneath cs := nodesOf_cons t _

theorem beneath_append (cs ds : Children) : beneath (cs ++ ds) = beneath cs + beneath ds := by
  rw [beneath, map_append, nodesOf_append, beneath, beneath]

@[simp] theorem nodes_mk (n : Node) (cs : Children) : (mk n cs).nodes = {n} + beneath cs := by
  have hgo : ∀ cs : Children, ((subtrees.go cs).map node : Multiset Node) = beneath cs := by
    intro cs
    induction cs with
    | nil => rfl
    | cons p cs ih => rw [subtrees.go, map_append, ← Multiset.coe_add, ih, beneath_cons, nodes]
  rw [nodes, subtrees, map_cons, ← Multiset.cons_coe, hgo, Multiset.singleton_add]
  rfl

theorem map_id_nodesOf (ts : List Tree) : (nodesOf ts).map Node.id = bags ts := by
  induction ts with
  | nil => rfl
  | cons t ts ih =>
    have hbag : t.nodes.map Node.id = t.bag := by
      rw [nodes, Multiset.map_coe, map_map, bag, ← map_id_subtrees]
      rfl
    rw [nodesOf_cons, Multiset.map_add, hbag, ih, bags_cons]

/-! ## Blocking calls -/

/-- Whether a tree is a blocking call. -/
def blocks (t : Tree) : Bool := t.kind == .call && t.node.flag .blocking

/-- The blocking calls that are the whole of a statement. -/
def asStatement (t : Tree) : List NodeId :=
  if t.kind = .callStatement then ((t.inRole .expression).filter blocks).map id else []

def blockingStatements (t : Tree) : List NodeId := t.subtrees.flatMap asStatement

theorem blockingStatements_mk (n : Node) (cs : Children) :
    (mk n cs).blockingStatements =
      (mk n cs).asStatement ++ cs.flatMap (·.2.blockingStatements) := by
  rw [blockingStatements, subtrees, flatMap_cons, subtrees_go_eq_flatMap, flatMap_assoc]
  rfl

theorem blockingStatements_inner (hk : n.kind ≠ .callStatement) :
    (mk n cs).blockingStatements = cs.flatMap (·.2.blockingStatements) := by
  have hown : (mk n cs).asStatement = [] := if_neg hk
  rw [blockingStatements_mk, hown, nil_append]

/-- There are no statements in an operand, and so no blocking ones. -/
theorem blockingStatements_operand (hu : t.uncut = true) (hk : t.kind.operand = true) :
    t.blockingStatements = [] := by
  induction t using ofChildren with
  | step n cs ih =>
    have hne : n.kind ≠ .callStatement := by
      intro hcall
      rw [kind, node, hcall] at hk
      cases hk
    rw [blockingStatements_inner hne, flatMap_eq_nil_iff]
    intro p hp
    exact ih p hp (uncut_child hu hp) (uncut_simple hu (Kind.simple_of_operand hk) p hp)

theorem blockingStatements_simple {k : Kind} (hu : (mk n cs).uncut = true) (hn : n.kind = k)
    (hk : (k.simple && k != .callStatement) = true) : (mk n cs).blockingStatements = [] := by
  obtain ⟨hs, hne⟩ := Bool.and_eq_true_iff.mp hk
  rw [blockingStatements_inner (hn ▸ bne_iff_ne.mp hne), flatMap_eq_nil_iff]
  intro p hp
  exact blockingStatements_operand (uncut_child hu hp) (uncut_simple hu (hn ▸ hs) p hp)

theorem blockingStatements_call {ds : Children}
    (hu : (mk n [(.expression, mk m ds)]).uncut = true) (hk : n.kind = .callStatement)
    (hcall : m.kind = .call) :
    (mk n [(.expression, mk m ds)]).blockingStatements =
      if m.flag .blocking then [m.id] else [] := by
  have hargs : (mk m ds).blockingStatements = [] :=
    blockingStatements_operand (uncut_child hu mem_cons_self) (by
      rw [kind, node, hcall]
      rfl)
  have hown : (mk n [(.expression, mk m ds)]).asStatement =
      ([mk m ds].filter blocks).map id := if_pos hk
  rw [blockingStatements_mk, hown, flatMap_singleton, hargs, append_nil]
  simp only [filter_singleton, blocks, kind, node, hcall, beq_self_eq_true, Bool.true_and]
  cases m.flag .blocking <;> rfl

/-- Whether no statement is a blocking call. -/
def unblocked : Tree → Bool
  | mk n cs =>
    if n.kind = .callStatement then
      (cs.lookup .expression).all fun e => e.node.flags.lookup .blocking == some false
    else if n.kind.compound then go cs
    else true
where
  go : Children → Bool
    | [] => true
    | (_, t) :: rest => t.unblocked && go rest

theorem unblocked_go_iff : unblocked.go cs = true ↔ ∀ p ∈ cs, p.2.unblocked = true :=
  go_iff rfl fun _ _ => rfl

theorem unblocked_compound (hk : n.kind.compound = true) :
    (mk n cs).unblocked = true ↔ ∀ p ∈ cs, p.2.unblocked = true := by
  have hne : n.kind ≠ .callStatement := by
    intro hcall
    rw [hcall] at hk
    cases hk
  rw [unblocked, if_neg hne, if_pos hk, unblocked_go_iff]

theorem unblocked_call {e : Tree} (hk : n.kind = .callStatement) :
    (mk n [(.expression, e)]).unblocked = true ↔ e.node.flags.lookup .blocking = some false := by
  rw [unblocked, if_pos hk]
  simp

end Tree

/-- A statement that is a blocking call, and the wait that it becomes. -/
structure Cutting.Turn where
  statement : Node
  call : Node
  wait : Node
  isStatement : statement.kind = .callStatement
  isCall : call.kind = .call
  blocks : call.flag .blocking = true
  isWait : wait.kind = .papiSleep ∨ wait.kind = .papiWait

def Cutting.turned (ts : List Turn) : List Node := ts.flatMap fun x => [x.statement, x.call]

/-! ## Balances -/

namespace Cutter

open Cutting

/-- The nodes of what waits next to the current statement. -/
def around (c : Cutter) : Multiset Node := nodesOf (c.before ++ c.after)

/-- The balance of the nodes between two moments of a walk: some are put in, and blocking calls
become waits. -/
structure Moves (c c' : Cutter) (had has : Multiset Node) (ts : List Turn) : Prop where
  failed : c'.log.failed = c.log.failed
  le : c.log.nextId ≤ c'.log.nextId
  removed : c'.log.removed = c.log.removed ++ (turned ts).map Node.id
  balance : ∃ put : Multiset Node, (∀ n ∈ put, n.kind.added = true) ∧
    (put + ts.map (·.wait)).map Node.id = c.log.drawn c'.log ∧
    has + c'.around + turned ts = had + c.around + (put + ts.map (·.wait))

variable {x y has had : Multiset Node} {ts us : List Turn} {before after : List Tree} {ids : Nat}

theorem Moves.refl (c : Cutter) (had : Multiset Node) : c.Moves c had had [] :=
  ⟨rfl, le_rfl, (append_nil _).symm, 0, by simp [turned]⟩

/-- The balances of two walks are added, and the calls that were turned are put one behind the
other. -/
theorem Moves.trans {z : Multiset Node} (h : c.Moves c₁ x y ts) (h' : c₁.Moves c₂ y z us) :
    c.Moves c₂ x z (ts ++ us) := by
  obtain ⟨put, hput, hids, hsum⟩ := h.balance
  obtain ⟨put', hput', hids', hsum'⟩ := h'.balance
  have hturned : turned (ts ++ us) = turned ts ++ turned us := flatMap_append
  refine ⟨h'.failed.trans h.failed, h.le.trans h'.le, ?_, put + put', fun n hn => ?_, ?_, ?_⟩
  · rw [h'.removed, h.removed, hturned, map_append, append_assoc]
  · exact (Multiset.mem_add.mp hn).elim (hput n) (hput' n)
  · rw [← Log.drawn_add h.le h'.le, ← hids, ← hids', map_append, ← Multiset.map_add,
      ← Multiset.coe_add]
    exact congrArg _ (add_add_add_comm _ _ _ _)
  · rw [hturned, map_append, ← Multiset.coe_add, ← Multiset.coe_add]
    calc z + c₂.around + (turned ts + turned us : Multiset Node)
        = z + c₂.around + turned us + turned ts := by abel
      _ = y + c₁.around + turned ts + (put' + us.map (·.wait)) := by rw [hsum', add_right_comm]
      _ = x + c.around + (put + put' + (ts.map (·.wait) + us.map (·.wait))) := by
        rw [hsum]
        abel

theorem Moves.add {x' y' : Multiset Node} (h : c.Moves c' x y ts) (rest : Multiset Node)
    (hx : x' = x + rest) (hy : y' = y + rest) : c.Moves c' x' y' ts := by
  obtain ⟨put, hput, hids, hsum⟩ := h.balance
  refine { h with balance := ⟨put, hput, hids, ?_⟩ }
  rw [hx, hy, add_right_comm y, add_right_comm (y + _), hsum]
  abel

theorem Moves.node (h : c.Moves c' (beneath cs) (beneath cs') ts) (n : Node) :
    c.Moves c' (Tree.mk n cs).nodes (Tree.mk n cs').nodes ts := by
  rw [nodes_mk, nodes_mk]
  exact h.add _ (add_comm _ _) (add_comm _ _)

theorem Moves.append {ds ds' : Children} (h : c.Moves c₁ (beneath cs) (beneath cs') ts)
    (h' : c₁.Moves c₂ (beneath ds) (beneath ds') us) :
    c.Moves c₂ (beneath (cs ++ ds)) (beneath (cs' ++ ds')) (ts ++ us) := by
  rw [beneath_append, beneath_append]
  exact (h.add _ rfl rfl).trans (h'.add _ (add_comm _ _) (add_comm _ _))

theorem Moves.cons {r r' : Role} (h : c.Moves c₁ t.nodes t'.nodes ts)
    (hs : c₁.Moves c₂ (beneath cs) (beneath cs') us) :
    c.Moves c₂ (beneath ((r, t) :: cs)) (beneath ((r', t') :: cs')) (ts ++ us) :=
  (h.add 0 (beneath_cons r t []) (beneath_cons r' t' [])).append hs

theorem Moves.only (h : c.Moves c' t.nodes t'.nodes ts) (n : Node) (r : Role) :
    c.Moves c' (Tree.mk n [(r, t)]).nodes (Tree.mk n [(r, t')]).nodes ts :=
  (h.add 0 (beneath_cons r t []) (beneath_cons r t' [])).node n

theorem Moves.persistence {p : Persistence} (h : Moves { c with persistence := p } c' x y ts) :
    c.Moves c' x y ts :=
  ⟨h.failed, h.le, h.removed, h.balance⟩

/-- Nodes that are put in are all new, and get the next numbers. -/
theorem moves_made (c : Cutter) (put : List Node) (hput : put.all (·.kind.added) = true)
    (hids : put.map Node.id = range' c.log.nextId ids)
    (h : has + nodesOf before + nodesOf after = had + put) :
    c.Moves (c.made ids before after) had has [] := by
  refine ⟨rfl, Nat.le_add_right _ _, (append_nil _).symm, put, all_eq_true.mp hput, ?_, ?_⟩
  · simp [Log.drawn, made, hids]
  · calc has + nodesOf (c.before ++ before ++ (c.after ++ after)) + 0
        = has + nodesOf before + nodesOf after + c.around := by
          simp only [around, nodesOf_append]
          abel
      _ = had + c.around + (put + 0) := by
          rw [h]
          abel

theorem moves_cut (c : Cutter) (put : List Node) (hput : put.all (·.kind.added) = true)
    (hids : put.map Node.id = range' c.log.nextId ids)
    (h : has + nodesOf before + nodesOf after = had + put) :
    c.Moves (c.cut ids before after) had has [] :=
  have hmade := moves_made c put hput hids h
  ⟨hmade.failed, hmade.le, hmade.removed, hmade.balance⟩

end Cutter

namespace Cutting

theorem nodes_withMachine (id : NodeId) :
    (withMachine id (.mk n [(.argumentList, .mk a as)])).nodes =
      (Tree.mk n [(.argumentList, .mk a as)]).nodes + {.blank id .machineArgument n.origin} := by
  have hmap : withMachine id (.mk n [(.argumentList, .mk a as)]) =
      .mk n [(.argumentList, .mk a ((.arguments, .mk (.blank id .machineArgument n.origin) []) ::
        as))] := rfl
  simp only [hmap, nodes_mk, beneath_cons, beneath_nil]
  abel

/-! ## Operands -/

/-- A call that is taken out of an expression stands in front of the statement, and its result in
its place. -/
theorem moves_taken (c : Cutter) (stmt : Origin) :
    c.Moves (c.cut 3 [takenOut c.log.nextId stmt (c.states + 1) (.mk n [(.argumentList, .mk a as)])]
      []) (Tree.mk n [(.argumentList, .mk a as)]).nodes (resultOf c.log.nextId n.origin).nodes
      [] := by
  refine Cutter.moves_cut c [.blank c.log.nextId .machineArgument n.origin,
    (cutNode .callSub (c.log.nextId + 1) stmt (c.states + 1)).named s!"zc_tmp{c.states + 1}",
    (Node.blank (c.log.nextId + 2) .callSubResult n.origin).setLink .declaration
      (some (c.log.nextId + 1))] rfl rfl ?_
  rw [takenOut, resultOf, nodesOf_cons, nodes_mk, nodes_mk, beneath_cons, nodes_withMachine]
  simp only [← Multiset.cons_coe, ← Multiset.singleton_add, Multiset.coe_nil, beneath_nil,
    nodesOf_nil]
  abel

mutual

/-- A walk through an operand turns no call. -/
theorem CutsOperand.moves {stmt : Origin} {c c' : Cutter} {t t' : Tree}
    (h : CutsOperand stmt c t t' c') : c.Moves c' t.nodes t'.nodes [] := by
  cases h with
  | bare hk => exact .refl _ _
  | use hk => exact (Cutter.Moves.refl _ _).persistence
  | inner hk h => exact h.moves.node _
  | call hk ha h hm => exact (h.moves.node _).only _ _
  | taken hk ha h hm => exact ((h.moves.node _).only _ _).trans (moves_taken ..)

theorem CutsOperands.moves {stmt : Origin} {c c' : Cutter} {cs cs' : Children}
    (h : CutsOperands stmt c cs cs' c') : c.Moves c' (beneath cs) (beneath cs') [] := by
  cases h with
  | nil => exact .refl _ _
  | cons h hs => exact h.moves.cons hs.moves

end

theorem operand_of_cuts (h : CutsOperand stmt c t t' c') : t.kind.operand = true := by
  have hbare : ∀ k : Kind, k.bare = true → k.operand = true := by
    intro k
    cases k <;> decide
  have hinner : ∀ k : Kind, k.inner = true → k.operand = true := by
    intro k
    cases k <;> decide
  cases h with
  | bare hk => exact hbare _ hk
  | inner hk h => exact hinner _ hk
  | use hk | call hk | taken hk => rw [kind, node, hk]; rfl

theorem CutsOperands.no_statements {stmt : Origin} {c c' : Cutter} {cs cs' : Children}
    (h : CutsOperands stmt c cs cs' c') (hu : ∀ p ∈ cs, p.2.uncut = true) :
    cs.flatMap (·.2.blockingStatements) = [] :=
  match h with
  | .nil => rfl
  | .cons h hs => by
    obtain ⟨hut, hucs⟩ := forall_mem_cons.mp hu
    rw [flatMap_cons, blockingStatements_operand hut (operand_of_cuts h), nil_append]
    exact hs.no_statements hucs

/-! ## Statements -/

theorem moves_paused (o : Origin) (c : Cutter) (had : Multiset Node) :
    c.Moves (paused o c) had had [] := by
  unfold paused
  split
  · exact Cutter.moves_cut c [cutNode .debugState c.log.nextId o (c.states + 1)] rfl rfl (by simp)
  · exact .refl _ _

theorem moves_surrounded (o : Origin) (c : Cutter) :
    c.Moves (surrounded o c) (Tree.mk n [(.argumentList, .mk a as)]).nodes
      (withMachine c.log.nextId (.mk n [(.argumentList, .mk a as)])).nodes [] := by
  refine Cutter.moves_cut c [.blank c.log.nextId .machineArgument n.origin,
    cutNode .beforeSub (c.log.nextId + 1) o (c.states + 1),
    .blank (c.log.nextId + 2) .afterSub o] rfl rfl ?_
  rw [nodes_withMachine]
  simp only [← Multiset.cons_coe, ← Multiset.singleton_add, Multiset.coe_nil, nodesOf_cons,
    nodes_mk, beneath_nil, nodesOf_nil]
  abel

theorem WaitNode.is_wait {v : Node} (h : WaitNode c n m v) :
    (v.kind = .papiSleep ∨ v.kind = .papiWait) ∧ v.id = c.log.nextId := by
  cases h
  · exact ⟨.inl rfl, rfl⟩
  · exact ⟨.inr rfl, rfl⟩

/-- A blocking call and its statement are taken out, and a wait is put in. -/
theorem moves_waited (x : Turn) (hv : x.wait.id = c.log.nextId) (args : Tree) :
    c.Moves (waited x.statement.id x.call.id c)
      (Tree.mk x.statement [(.expression, .mk x.call [(.argumentList, args)])]).nodes
      (Tree.mk x.wait [(.argumentList, args)]).nodes [x] := by
  refine ⟨rfl, Nat.le_add_right _ _, rfl, 0, by simp, ?_, ?_⟩
  · simp [Log.drawn, waited, Cutter.cut, Cutter.made, hv]
  · have haround : (waited x.statement.id x.call.id c).around = c.around := by
      simp [Cutter.around, waited, Cutter.cut, Cutter.made]
    simp only [haround, map_singleton, ← Multiset.cons_coe,
      ← Multiset.singleton_add, Multiset.coe_nil, nodes_mk, beneath_cons, beneath_nil]
    abel

theorem moves_wasReset (o : Origin) (c : Cutter) (had : Multiset Node) :
    c.Moves (wasReset o c) had had [] := by
  unfold wasReset
  split
  · exact .refl _ _
  · exact Cutter.moves_made c [.blank c.log.nextId .beforeReturn o] rfl rfl (by simp)

theorem moves_row {ts : List Turn}
    (h : Cutter.Moves { c with before := [], after := [] } c₁ t.nodes t'.nodes ts) :
    c.Moves { c₁ with before := c.before, after := c.after } t.nodes
      (beneath ((c₁.before ++ t' :: c₁.after).map (Role.statements, ·))) ts := by
  obtain ⟨put, hput, hids, hsum⟩ := h.balance
  refine ⟨h.failed, h.le, h.removed, put, hput, hids, ?_⟩
  have hrow : beneath ((c₁.before ++ t' :: c₁.after).map (Role.statements, ·)) =
      t'.nodes + c₁.around := by
    simp only [beneath, map_map, Function.comp_def, map_id', nodesOf_append, nodesOf_cons,
      Cutter.around]
    abel
  rw [hrow, add_right_comm, hsum]
  change t.nodes + 0 + _ + c.around = _
  rw [add_zero, add_right_comm]

/-- If no statement is left as a blocking call, then all of them became waits. -/
def Complete (ts : List Turn) (cs cs' : Children) : Prop :=
  (∀ p ∈ cs, p.2.uncut = true) → (∀ p ∈ cs', p.2.unblocked = true) →
    ts.map (·.call.id) = cs.flatMap (·.2.blockingStatements)

theorem Complete.compound {ts : List Turn} {ops ops' blocks blocks' : Children}
    (h : Complete ts blocks blocks') (h₁ : CutsOperands stmt c ops ops' c₁)
    (hu : (mk n (ops ++ blocks)).uncut = true) (hb : (mk n (ops' ++ blocks')).unblocked = true)
    (hk : (n.kind.compound && n.kind != .callStatement) = true) :
    ts.map (·.call.id) = (mk n (ops ++ blocks)).blockingStatements := by
  obtain ⟨hk, hne⟩ := Bool.and_eq_true_iff.mp hk
  rw [blockingStatements_inner (bne_iff_ne.mp hne), flatMap_append,
    h₁.no_statements fun p hp => uncut_child hu (mem_append_left _ hp)]
  exact h (fun p hp => uncut_child hu (mem_append_right _ hp)) fun p hp =>
    (unblocked_compound hk).mp hb p (mem_append_right _ hp)

mutual

/-- The balance of a walk through a statement. -/
theorem CutsStatement.moves {c c' : Cutter} {t t' : Tree} (h : CutsStatement c t t' c') :
    ∃ ts : List Turn, c.Moves c' t.nodes t'.nodes ts ∧
      (t.uncut = true → t'.unblocked = true → ts.map (·.call.id) = t.blockingStatements) :=
  match h with
  | .nop hk => ⟨[], .refl _ _, fun hu _ => (blockingStatements_simple hu hk rfl).symm⟩
  | .block hk h => by
    obtain ⟨ts, hmoves, hcalls⟩ := h.moves
    refine ⟨ts, hmoves.node _, fun hu hb => ?_⟩
    rw [blockingStatements_inner (by rw [hk]; decide)]
    exact hcalls (fun p hp => uncut_child hu hp) ((unblocked_compound (by rw [hk]; rfl)).mp hb)
  | .declaration hk _ _ h => ⟨[], (h.moves.persistence.node _).trans (moves_paused ..),
      fun hu _ => (blockingStatements_simple hu hk rfl).symm⟩
  | .machineDeclaration (m := m) (a := a) hk _ _ _ _ h => by
    -- the type stays, and the call gets the machine
    have hargs := (h.moves.persistence.node a).only m .argumentList
    exact ⟨[], ((Cutter.Moves.refl _ _).cons ((hargs.trans (moves_surrounded ..)).cons
      (.refl _ _))).node _, fun hu _ => (blockingStatements_simple hu hk rfl).symm⟩
  | .expression hk h => ⟨[], (h.moves.node _).trans (moves_paused ..),
      fun hu _ => (blockingStatements_simple hu hk rfl).symm⟩
  | .call hk hcall _ h _ hb => by
    refine ⟨[], (((h.moves.node _).only _ _).only _ _).trans (moves_paused ..), fun hu _ => ?_⟩
    rw [blockingStatements_call hu hk hcall, Node.flag, hb]
    rfl
  | .machineCall (m := m) hk hcall _ h _ => by
    refine ⟨[], (((h.moves.node _).only _ _).trans (moves_surrounded ..)).only _ _,
      fun hu hb => ?_⟩
    rw [blockingStatements_call hu hk hcall, Node.flag,
      show m.flags.lookup _ = _ from (unblocked_call hk).mp hb]
    rfl
  | .wait (n := n) (m := m) (a := a) (w := v) hk hcall _ h _ hb hw => by
    have hflag : m.flag .blocking = true := by rw [Node.flag, hb]; rfl
    refine ⟨[⟨n, m, v, hk, hcall, hflag, hw.is_wait.1⟩],
      (((h.moves.node a).only m .argumentList).only n .expression).trans
        (moves_waited ⟨n, m, v, hk, hcall, hflag, hw.is_wait.1⟩ hw.is_wait.2 _), fun hu _ => ?_⟩
    rw [blockingStatements_call hu hk hcall, hflag]
    rfl
  | .branch (n := n) hk h₁ h₂ => by
    obtain ⟨ts, hmoves, hcalls⟩ := h₂.moves
    refine ⟨ts, (h₁.moves.append hmoves).node _, fun hu hb => ?_⟩
    exact hcalls.compound h₁ hu hb (by rw [hk]; rfl)
  | .loop (n := n) hk h₁ h₂ _ => by
    obtain ⟨ts, hmoves, hcalls⟩ := h₂.moves
    have hparts := (h₁.moves.persistence.append hmoves).node n
    refine ⟨ts, ⟨hparts.failed, hparts.le, hparts.removed, hparts.balance⟩, fun hu hb => ?_⟩
    exact hcalls.compound h₁ hu hb (by revert hk; cases n.kind <;> decide)
  | .leave hk h => ⟨[], (h.moves.node _).trans (moves_wasReset ..),
      fun hu _ => (blockingStatements_simple hu hk rfl).symm⟩

theorem CutsStatements.moves {c c' : Cutter} {cs cs' : Children}
    (h : CutsStatements c cs cs' c') :
    ∃ ts : List Turn, c.Moves c' (beneath cs) (beneath cs') ts ∧ Complete ts cs cs' :=
  match h with
  | .nil => ⟨[], .refl _ _, fun _ _ => rfl⟩
  | .cons h hs => by
    obtain ⟨ts, hmoves, hcalls⟩ := h.moves
    obtain ⟨us, hmoves', hcalls'⟩ := hs.moves
    refine ⟨ts ++ us, ?_, fun hu hb => ?_⟩
    · rw [beneath_cons, beneath_append]
      exact ((moves_row hmoves).add _ rfl rfl).trans
        (hmoves'.add _ (add_comm _ _) (add_comm _ _))
    · obtain ⟨hut, hucs⟩ := forall_mem_cons.mp hu
      obtain ⟨hbrow, hbcs⟩ := forall_mem_append.mp hb
      rw [map_append, flatMap_cons, hcalls hut (hbrow _ (mem_map_of_mem (by simp))),
        hcalls' hucs hbcs]

theorem CutsBlocks.moves {c c' : Cutter} {cs cs' : Children} (h : CutsBlocks c cs cs' c') :
    ∃ ts : List Turn, c.Moves c' (beneath cs) (beneath cs') ts ∧ Complete ts cs cs' :=
  match h with
  | .nil => ⟨[], .refl _ _, fun _ _ => rfl⟩
  | .cons hk h hs => by
    obtain ⟨ts, hmoves, hcalls⟩ := h.moves
    obtain ⟨us, hmoves', hcalls'⟩ := hs.moves
    refine ⟨ts ++ us, (hmoves.node _).cons hmoves', fun hu hb => ?_⟩
    obtain ⟨hut, hucs⟩ := forall_mem_cons.mp hu
    obtain ⟨hbt, hbcs⟩ := forall_mem_cons.mp hb
    rw [map_append, flatMap_cons, blockingStatements_inner (by rw [hk]; decide),
      hcalls (fun p hp => uncut_child hut hp) ((unblocked_compound (by rw [hk]; rfl)).mp hbt),
      hcalls' hucs hbcs]

end

/-- The balance of a row of statements, in numbers. -/
theorem CutsStatements.gains (h : CutsStatements c cs cs' c') :
    c.Gains c' (under cs) (under cs') := by
  obtain ⟨ts, hmoves, -⟩ := h.moves
  obtain ⟨put, -, hids, hsum⟩ := hmoves.balance
  have hbeside : ∀ c : Cutter, c.around.map Node.id = c.beside := fun c => by
    rw [Cutter.around, map_id_nodesOf, bags_append, Cutter.beside]
  have hnumbers := congrArg (Multiset.map Node.id) hsum
  rw [Multiset.map_add, Multiset.map_add, Multiset.map_add, Multiset.map_add, hids, hbeside,
    hbeside, beneath, beneath, map_id_nodesOf, map_id_nodesOf, Multiset.map_coe] at hnumbers
  refine ⟨hmoves.failed, hmoves.le, ?_⟩
  rw [hmoves.removed, ← Multiset.coe_add, add_right_comm _ (c.log.removed : Multiset NodeId),
    under, under, ← hnumbers]
  abel

end Cutting

end Resumable
