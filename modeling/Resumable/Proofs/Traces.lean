import Mathlib.Data.Set.NAry
import Resumable.Proofs.Meaning
import Resumable.Proofs.Sparse

/-!
# The calls that a function makes

How often a call of a function with states is made, and after which decisions, can be seen from the
traces of a function: the lists of such calls and of the decisions of its statements that its runs
leave. A run goes on behind every label, so that a function and what it is cut into have traces that
can be compared.

Operators such as `&&` and `?:` decide too, in the middle of an expression. How they decide may be
known or not, and what is known is a parameter.

* `Tree.evaluated`: the traces of an expression, with every decision of its operators.
* `Tree.ran`: the traces of a statement.
* `Tree.evaluated_of_steady`: a steady expression makes the calls in its text, in their order.
* `Tree.ran_mapNodes`: traces do not depend on names.
-/

namespace Resumable

open List

variable {cs : Children} {r : Role} {t : Tree}

/-! ## Traces -/

/-- What can be seen of a run: a call that is made, or how a statement decides. -/
inductive Act where
  | call (id : NodeId)
  | choice (id : NodeId) (yes : Bool)
deriving Repr, DecidableEq

/-- The traces of a statement. Each one tells whether the function was left. -/
abbrev Runs := Set (List Act × Bool)

namespace Act

/-- A trace of the one, and then one of the other. -/
def join (A B : Set (List Act)) : Set (List Act) := Set.image2 (· ++ ·) A B

/-- One of two expressions is evaluated, maybe a known one. -/
def either (known : Option Bool) (A B : Set (List Act)) : Set (List Act) :=
  match known with
  | none => A ∪ B
  | some true => A
  | some false => B

@[simp] theorem either_self (known : Option Bool) (A : Set (List Act)) :
    either known A A = A := by
  unfold either
  split
  · exact Set.union_self A
  · rfl
  · rfl

@[simp] theorem join_singleton (a b : List Act) : join {a} {b} = {a ++ b} :=
  Set.image2_singleton

theorem join_nil (A : Set (List Act)) : join A {[]} = A := by
  simp [join]

theorem nil_join (A : Set (List Act)) : join {[]} A = A := by
  simp [join]

end Act

namespace Runs

open Act

/-- The function is left, or it is not, after an expression was evaluated. -/
def upon (left : Bool) (A : Set (List Act)) : Runs := {x | x.1 ∈ A ∧ x.2 = left}

/-- One statement is executed after the other, if the function is not left. -/
def andThen (A B : Runs) : Runs :=
  {x | x ∈ A ∧ x.2 = true ∨ ∃ a b, (a, false) ∈ A ∧ (b, x.2) ∈ B ∧ x.1 = a ++ b}

/-- The rounds of a loop: its condition is evaluated and decides whether there is another one. -/
inductive Rounds (id : NodeId) (test : Set (List Act)) (round : Runs) : List Act × Bool → Prop
  | stop {a : List Act} (ha : a ∈ test) : Rounds id test round (a ++ [choice id false], false)
  | left {a b : List Act} (ha : a ∈ test) (hb : (b, true) ∈ round) :
      Rounds id test round (a ++ choice id true :: b, true)
  | next {a b : List Act} {x : List Act × Bool} (ha : a ∈ test) (hb : (b, false) ∈ round)
      (hx : Rounds id test round x) :
      Rounds id test round (a ++ choice id true :: (b ++ x.1), x.2)

/-- What a loop may do, with any number of rounds. -/
def rounds (id : NodeId) (test : Set (List Act)) (round : Runs) : Runs :=
  {x | Rounds id test round x}

/-- To do nothing and go on. -/
def skip : Runs := upon false {[]}

theorem upon_nil : upon false {[]} = skip := rfl

/-- Doing one after the other is associative. -/
theorem andThen_assoc (A B C : Runs) : (A.andThen B).andThen C = A.andThen (B.andThen C) := by
  ext ⟨x, left⟩
  constructor
  · rintro (⟨⟨hA, -⟩ | ⟨a, b, ha, hb, rfl⟩, rfl⟩ |
      ⟨ab, c, ⟨-, hfalse⟩ | ⟨a, b, ha, hb, rfl⟩, hc, rfl⟩)
    · exact Or.inl ⟨hA, rfl⟩
    · exact Or.inr ⟨a, b, ha, Or.inl ⟨hb, rfl⟩, rfl⟩
    · cases hfalse
    · exact Or.inr ⟨a, b ++ c, ha, Or.inr ⟨b, c, hb, hc, rfl⟩, append_assoc a b c⟩
  · rintro (⟨hA, rfl⟩ | ⟨a, bc, ha, ⟨hb, rfl⟩ | ⟨b, c, hb, hc, rfl⟩, rfl⟩)
    · exact Or.inl ⟨Or.inl ⟨hA, rfl⟩, rfl⟩
    · exact Or.inl ⟨Or.inr ⟨a, bc, ha, hb, rfl⟩, rfl⟩
    · exact Or.inr ⟨a ++ b, c, Or.inr ⟨a, b, ha, hb, rfl⟩, hc, (append_assoc a b c).symm⟩

@[simp] theorem skip_andThen (A : Runs) : skip.andThen A = A := by
  ext ⟨x, left⟩
  constructor
  · rintro (⟨⟨-, hfalse⟩, rfl⟩ | ⟨a, b, ⟨ha, -⟩, hb, rfl⟩)
    · cases hfalse
    · rw [Set.mem_singleton_iff] at ha
      subst ha
      exact hb
  · exact fun hx => Or.inr ⟨[], x, ⟨rfl, rfl⟩, hx, rfl⟩

@[simp] theorem andThen_skip (A : Runs) : A.andThen skip = A := by
  ext ⟨x, left⟩
  constructor
  · rintro (⟨hx, -⟩ | ⟨a, b, ha, ⟨hb, rfl⟩, rfl⟩)
    · exact hx
    · rw [Set.mem_singleton_iff] at hb
      subst hb
      rwa [append_nil]
  · intro hx
    cases left with
    | true => exact Or.inl ⟨hx, rfl⟩
    | false => exact Or.inr ⟨x, [], hx, ⟨rfl, rfl⟩, (append_nil x).symm⟩

/-- Two traces that go on make one. -/
theorem upon_andThen (A B : Set (List Act)) (left : Bool) :
    (upon false A).andThen (upon left B) = upon left (join A B) := by
  ext ⟨x, l⟩
  constructor
  · rintro (⟨⟨-, hfalse⟩, rfl⟩ | ⟨a, b, ⟨ha, -⟩, ⟨hb, rfl⟩, rfl⟩)
    · cases hfalse
    · exact ⟨⟨a, ha, b, hb, rfl⟩, rfl⟩
  · rintro ⟨⟨a, ha, b, hb, rfl⟩, rfl⟩
    exact Or.inr ⟨a, b, ⟨ha, rfl⟩, ⟨hb, rfl⟩, rfl⟩

end Runs

open Act Runs

/-! ## What trees do -/

/-- Whether an operator evaluates its second operand only if the first one does not decide. -/
def Node.lazy (n : Node) : Bool :=
  (n.kind == .operator || n.kind == .binaryOperator) &&
    (Sense.sign n == some "&&" || Sense.sign n == some "||")

namespace Tree

variable (ms : Machines) (known : NodeId → Option Bool)

/-- The traces of an expression. -/
def evaluated : Tree → Set (List Act)
  | mk n cs =>
    match n.kind with
    | .conditional =>
      join (inRole .condition cs)
        (either (known n.id) (inRole .whenTrue cs) (inRole .whenFalse cs))
    | .call =>
      join (all cs) {if ms.hasStates (n.link? .declaration) then [.call n.id] else []}
    | _ => if n.lazy then lazily n.id cs else all cs
where
  all : Children → Set (List Act)
    | [] => {[]}
    | (_, t) :: rest => join t.evaluated (all rest)
  inRole (r : Role) : Children → Set (List Act)
    | [] => {[]}
    | (r', t) :: rest => if r' = r then join t.evaluated (inRole r rest) else inRole r rest
  lazily (id : NodeId) : Children → Set (List Act)
    | [] => {[]}
    | (_, mk a as) :: rest =>
      join (if a.kind = .argumentList then first id as else (mk a as).evaluated) (lazily id rest)
  /-- The first argument is evaluated, and the others if it does not decide. -/
  first (id : NodeId) : Children → Set (List Act)
    | [] => {[]}
    | (_, t) :: rest => join t.evaluated (either (known id) {[]} (all rest))

/-- The traces of a statement, each with whether the function is left. -/
def ran : Tree → Runs
  | mk n cs =>
    match n.kind with
    | .statementList => inList cs
    | .ifElse =>
      (upon false (evaluated.all ms known (operandsIn cs))).andThen
        ((upon false {[choice n.id true]}).andThen (inPart .thenBranch cs) ∪
          (upon false {[choice n.id false]}).andThen (inPart .elseBranch cs))
    | .whileLoop =>
      rounds n.id (evaluated.all ms known (operandsIn cs)) (inPart .body cs)
    | .doWhileLoop =>
      (inPart .body cs).andThen
        (rounds n.id (evaluated.all ms known (operandsIn cs)) (inPart .body cs))
    | .forLoop =>
      (upon false (evaluated.inRole ms known .start (operandsIn cs))).andThen
        (rounds n.id (evaluated.inRole ms known .condition (operandsIn cs))
          ((inPart .body cs).andThen
            (upon false (evaluated.inRole ms known .iteration (operandsIn cs)))))
    | .returnStatement => upon true (evaluated.all ms known cs)
    | _ => upon false (evaluated.all ms known cs)
where
  inList : Children → Runs
    | [] => skip
    | (_, t) :: rest => t.ran.andThen (inList rest)
  inPart (r : Role) : Children → Runs
    | [] => skip
    | (r', t) :: rest =>
      if r' = r ∧ t.kind = .statementList then t.ran.andThen (inPart r rest) else inPart r rest

/-! ## Calls in the text -/

/-- The calls of functions with states in an expression, in the order of the text. -/
def calls : Tree → List NodeId
  | mk n cs =>
    go cs ++ if n.kind = .call ∧ ms.hasStates (n.link? .declaration) = true then [n.id] else []
where
  go : Children → List NodeId
    | [] => []
    | (_, t) :: rest => t.calls ++ go rest

/-- Whether there is no such call in what a node evaluates repeatedly, or not at all. -/
def steadyHere (n : Node) (cs : Children) : Bool :=
  match n.kind with
  | .conditional => cs.all fun p => p.1 == .condition || (p.2.calls ms).isEmpty
  | .whileLoop | .doWhileLoop => (operandsIn cs).all fun p => (p.2.calls ms).isEmpty
  | .forLoop => (operandsIn cs).all fun p => p.1 == .start || (p.2.calls ms).isEmpty
  | _ =>
    !n.lazy || cs.all fun p => (p.2.children.drop 1).all fun q => (q.2.calls ms).isEmpty

/-- Whether each call is made once and whatever the operators decide. -/
def steady : Tree → Bool
  | mk n cs => steadyHere ms n cs && go cs
where
  go : Children → Bool
    | [] => true
    | (_, t) :: rest => t.steady && go rest

variable {ms known}

theorem gathers_calls : Gathers (calls.go ms) (calls ms) := ⟨rfl, fun _ _ => rfl⟩

@[simp] theorem calls_go_append (xs ys : Children) :
    calls.go ms (xs ++ ys) = calls.go ms xs ++ calls.go ms ys := gathers_calls.append xs ys

theorem steady_go_iff : steady.go ms cs = true ↔ ∀ p ∈ cs, p.2.steady ms = true :=
  go_iff rfl fun _ _ => rfl

theorem calls_of_kind {n : Node} (hk : n.kind ≠ .call) : (mk n cs).calls ms = calls.go ms cs := by
  rw [calls, if_neg fun h => hk h.1, append_nil]

/-- A tree without calls is steady. -/
theorem steady_of_silent (h : t.calls ms = []) : t.steady ms = true := by
  induction t using ofChildren with
  | step n cs ih =>
    rw [calls, append_eq_nil_iff] at h
    have hall := gathers_calls.eq_nil.mp h.1
    have hlist : ∀ {xs : Children}, (∀ p ∈ xs, p ∈ cs) →
        (xs.all fun p => (p.2.calls ms).isEmpty) = true := by
      intro xs hxs
      rw [all_eq_true]
      intro p hp
      rw [hall p (hxs p hp)]
      rfl
    have hops : ∀ p ∈ operandsIn cs, p ∈ cs := fun p hp => (mem_filter.mp hp).1
    rw [steady, Bool.and_eq_true]
    refine ⟨?_, steady_go_iff.mpr fun p hp => ih p hp (hall p hp)⟩
    unfold steadyHere
    split
    · refine all_eq_true.mpr fun p hp => ?_
      simp [hall p hp]
    · exact hlist hops
    · exact hlist hops
    · refine all_eq_true.mpr fun p hp => ?_
      simp [hall p (hops p hp)]
    · -- Arguments of an operator that may skip its right side: no later one has a call.
      rw [Bool.or_eq_true]
      refine Or.inr (all_eq_true.mpr fun p hp => all_eq_true.mpr fun q hq => ?_)
      have hchild : calls.go ms p.2.children = [] := by
        have hp := hall p hp
        obtain ⟨r, m, ds⟩ := p
        exact (append_eq_nil_iff.mp hp).1
      simp [gathers_calls.eq_nil.mp hchild q (mem_of_mem_drop hq)]

theorem all_eq (h : ∀ p ∈ cs, p.2.evaluated ms known = {(p.2.calls ms).map Act.call}) :
    evaluated.all ms known cs = {(calls.go ms cs).map Act.call} := by
  induction cs with
  | nil => rfl
  | cons p cs ih =>
    obtain ⟨hp, hcs⟩ := forall_mem_cons.mp h
    rw [evaluated.all, hp, ih hcs, join_singleton, calls.go, map_append]

theorem inRole_eq (h : ∀ p ∈ cs, p.2.evaluated ms known = {(p.2.calls ms).map Act.call}) :
    evaluated.inRole ms known r cs =
      {(calls.go ms (cs.filter fun p => p.1 = r)).map Act.call} := by
  induction cs with
  | nil => rfl
  | cons p cs ih =>
    obtain ⟨r', t⟩ := p
    obtain ⟨hp, hcs⟩ := forall_mem_cons.mp h
    rw [evaluated.inRole, ih hcs]
    split
    · next heq =>
      rw [hp, join_singleton, filter_cons_of_pos (by simpa using heq), calls.go,
        map_append]
    · next hne => rw [filter_cons_of_neg (by simpa using hne)]

/-- An operator whose later operands make no calls makes those of its first operand. -/
theorem lazily_eq {id : NodeId}
    (h : ∀ p ∈ cs, p.2.evaluated ms known = {(p.2.calls ms).map Act.call})
    (hparts : ∀ p ∈ cs, ∀ q ∈ p.2.children,
      q.2.evaluated ms known = {(q.2.calls ms).map Act.call})
    (hlater : ∀ p ∈ cs, ∀ q ∈ p.2.children.drop 1, q.2.calls ms = []) :
    evaluated.lazily ms known id cs = {(calls.go ms cs).map Act.call} := by
  induction cs with
  | nil => rfl
  | cons p cs ih =>
    obtain ⟨r, a, as⟩ := p
    obtain ⟨hp, hcs⟩ := forall_mem_cons.mp h
    obtain ⟨hpart, hparts⟩ := forall_mem_cons.mp hparts
    obtain ⟨hlate, hlater⟩ := forall_mem_cons.mp hlater
    have hfirst : (if a.kind = .argumentList then evaluated.first ms known id as
        else (mk a as).evaluated ms known) = {((mk a as).calls ms).map Act.call} := by
      split
      · next hk =>
        rw [calls_of_kind (by rw [hk]; decide)]
        cases as with
        | nil => rfl
        | cons q as =>
          obtain ⟨r', t⟩ := q
          obtain ⟨hq, has⟩ := forall_mem_cons.mp hpart
          -- With no call in the later arguments, skipping them or not gives one trace.
          have hnone : calls.go ms as = [] := gathers_calls.eq_nil.mpr hlate
          rw [evaluated.first, hq, all_eq has, hnone, calls.go, hnone, append_nil,
            map_nil, either_self, join_nil]
      · exact hp
    rw [evaluated.lazily, hfirst, ih hcs hparts hlater, join_singleton, calls.go, map_append]

theorem evaluated_of_steady (h : t.steady ms = true) :
    t.evaluated ms known = {(t.calls ms).map Act.call} := by
  induction t using ofSmaller with
  | step t ih =>
    obtain ⟨n, cs⟩ := t
    rw [steady, Bool.and_eq_true] at h
    have hsteady := steady_go_iff.mp h.2
    have hcs : ∀ p ∈ cs, p.2.evaluated ms known = {(p.2.calls ms).map Act.call} := fun p hp =>
      ih p.2 (sizeOf_child hp) (hsteady p hp)
    have hhere := h.1
    unfold steadyHere at hhere
    rw [evaluated]
    split
    · next hk =>
      rw [hk] at hhere
      have hsilent : ∀ p ∈ cs, p.1 = .condition ∨ p.2.calls ms = [] := by
        intro p hp
        simpa using all_eq_true.mp hhere p hp
      -- neither branch makes a call, so it does not matter which one is taken
      have hbranch : ∀ r, r ≠ .condition → evaluated.inRole ms known r cs = {[]} := by
        intro r hr
        rw [inRole_eq hcs, gathers_calls.eq_nil.mpr fun p hp => ?_, map_nil]
        obtain ⟨hp, heq⟩ := mem_filter.mp hp
        refine (hsilent p hp).resolve_left fun hc => hr ?_
        rw [← hc]
        exact (of_decide_eq_true heq).symm
      have hcondition : calls.go ms (cs.filter fun p => p.1 = .condition) = calls.go ms cs :=
        gathers_calls.filter fun p hp => (hsilent p hp).imp_left fun h => by simpa using h
      rw [hbranch .whenTrue (by decide), hbranch .whenFalse (by decide), either_self, join_nil,
        inRole_eq hcs, hcondition, calls_of_kind (by rw [hk]; decide)]
    · next hk =>
      rw [all_eq hcs, join_singleton, calls, map_append]
      cases hm : ms.hasStates (n.link? .declaration) <;> simp [hk]
    · next hconditional hcall =>
      rw [calls_of_kind hcall]
      split
      · next hlazy =>
        have hkind : n.kind = .operator ∨ n.kind = .binaryOperator := by
          have hboth := hlazy
          rw [Node.lazy, Bool.and_eq_true, Bool.or_eq_true, beq_iff_eq, beq_iff_eq] at hboth
          exact hboth.1
        have hlater : ∀ p ∈ cs, ∀ q ∈ p.2.children.drop 1, q.2.calls ms = [] := by
          have hall : (cs.all fun p => (p.2.children.drop 1).all fun q =>
              (q.2.calls ms).isEmpty) = true := by
            rcases hkind with hk | hk <;> simpa [hk, hlazy] using hhere
          intro p hp q hq
          simpa using all_eq_true.mp (all_eq_true.mp hall p hp) q hq
        refine lazily_eq hcs (fun p hp q hq => ?_) hlater
        have hp' := hsteady p hp
        have hsize : sizeOf p.2 < sizeOf (mk n cs) := sizeOf_child hp
        obtain ⟨r, m, ds⟩ := p
        rw [steady, Bool.and_eq_true] at hp'
        exact ih q.2 (Nat.lt_trans (sizeOf_child hq) hsize) (steady_go_iff.mp hp'.2 q hq)
      · exact all_eq hcs

theorem evaluated_of_silent (h : t.calls ms = []) : t.evaluated ms known = {[]} := by
  rw [evaluated_of_steady (steady_of_silent h), h, map_nil]

theorem all_of_silent (h : calls.go ms cs = []) : evaluated.all ms known cs = {[]} := by
  have hcs := gathers_calls.eq_nil.mp h
  rw [all_eq fun p hp => evaluated_of_steady (steady_of_silent (hcs p hp)), h, map_nil]

/-- A part without calls leaves an empty trace. -/
theorem inRole_of_silent (h : ∀ p ∈ cs, p.1 = r → p.2.calls ms = []) :
    evaluated.inRole ms known r cs = {[]} := by
  induction cs with
  | nil => rfl
  | cons p cs ih =>
    obtain ⟨r', t⟩ := p
    obtain ⟨hp, hcs⟩ := forall_mem_cons.mp h
    rw [evaluated.inRole, ih hcs]
    split
    · next heq => rw [evaluated_of_silent (hp heq), join_nil]
    · rfl

/-! ## Lists of statements -/

/-- The traces of a list, part by part. -/
theorem ran_inList_append (xs ys : Children) :
    ran.inList ms known (xs ++ ys) =
      (ran.inList ms known xs).andThen (ran.inList ms known ys) := by
  induction xs with
  | nil => exact (skip_andThen _).symm
  | cons p xs ih =>
    obtain ⟨r, t⟩ := p
    rw [cons_append, ran.inList, ran.inList, ih, andThen_assoc]

theorem ran_inList_single (r : Role) (t : Tree) :
    ran.inList ms known [(r, t)] = t.ran ms known := by
  rw [ran.inList, ran.inList, andThen_skip]

theorem ran_inPart_append (r : Role) (xs ys : Children) :
    ran.inPart ms known r (xs ++ ys) =
      (ran.inPart ms known r xs).andThen (ran.inPart ms known r ys) := by
  induction xs with
  | nil => exact (skip_andThen _).symm
  | cons p xs ih =>
    obtain ⟨r', t⟩ := p
    rw [cons_append, ran.inPart, ran.inPart, ih]
    split
    · rw [andThen_assoc]
    · rfl

theorem ran_inPart_of_operands {xs : Children} (h : ∀ p ∈ xs, p.2.kind ≠ .statementList) :
    ran.inPart ms known r xs = skip := by
  induction xs with
  | nil => rfl
  | cons p xs ih =>
    obtain ⟨hp, hxs⟩ := forall_mem_cons.mp h
    rw [ran.inPart, if_neg fun h => hp h.2, ih hxs]

/-- A plain statement evaluates its parts. -/
theorem ran_of_plain (hk : t.kind.plain = true) :
    t.ran ms known = upon false (evaluated.all ms known t.children) := by
  obtain ⟨n, cs⟩ := t
  have hk : n.kind.plain = true := hk
  rw [ran]
  split
  case h_1 h | h_2 h | h_3 h | h_4 h | h_5 h | h_6 h =>
    rw [h] at hk
    cases hk
  case h_7 => rfl

end Tree

/-! ## Names have no traces -/

section Names

variable {ms : Machines} {known : NodeId → Option Bool} {g : Node → Node}

theorem Renames.lazy (hg : Renames g) (n : Node) : (g n).lazy = n.lazy := by
  rw [Node.lazy, hg.kind, hg.sign, Node.lazy]

namespace Tree

theorem evaluated_all_mapNodes
    (ih : ∀ p ∈ cs, (p.2.mapNodes g).evaluated ms known = p.2.evaluated ms known) :
    evaluated.all ms known (mapNodes.go g cs) = evaluated.all ms known cs :=
  go_mapNodes (fun hp hcs => by rw [evaluated.all, evaluated.all, hp, hcs]) ih

theorem evaluated_inRole_mapNodes
    (ih : ∀ p ∈ cs, (p.2.mapNodes g).evaluated ms known = p.2.evaluated ms known) :
    evaluated.inRole ms known r (mapNodes.go g cs) = evaluated.inRole ms known r cs :=
  go_mapNodes (fun hp hcs => by rw [evaluated.inRole, evaluated.inRole, hp, hcs]) ih

theorem evaluated_lazily_mapNodes (hg : Renames g) {id : NodeId}
    (ih : ∀ p ∈ cs, (p.2.mapNodes g).evaluated ms known = p.2.evaluated ms known)
    (ihparts : ∀ p ∈ cs, ∀ q ∈ p.2.children,
      (q.2.mapNodes g).evaluated ms known = q.2.evaluated ms known) :
    evaluated.lazily ms known id (mapNodes.go g cs) = evaluated.lazily ms known id cs := by
  induction cs with
  | nil => rfl
  | cons p cs ihcs =>
    obtain ⟨r, a, as⟩ := p
    obtain ⟨hp, hcs⟩ := forall_mem_cons.mp ih
    obtain ⟨hparts, hpartss⟩ := forall_mem_cons.mp ihparts
    have hfirst : evaluated.first ms known id (mapNodes.go g as) =
        evaluated.first ms known id as := by
      cases as with
      | nil => rfl
      | cons q as =>
        obtain ⟨hq, has⟩ := forall_mem_cons.mp hparts
        rw [mapNodes.go, evaluated.first, evaluated.first, hq, evaluated_all_mapNodes has]
    rw [mapNodes] at hp
    rw [mapNodes.go, mapNodes, evaluated.lazily, evaluated.lazily, hg.kind, hfirst, hp,
      ihcs hcs hpartss]

/-- Names do not matter for what an expression does. -/
theorem evaluated_mapNodes (hg : Renames g) (t : Tree) :
    (t.mapNodes g).evaluated ms known = t.evaluated ms known := by
  induction t using ofSmaller with
  | step t ih =>
    obtain ⟨n, cs⟩ := t
    have hcs : ∀ p ∈ cs, (p.2.mapNodes g).evaluated ms known = p.2.evaluated ms known :=
      fun p hp => ih p.2 (sizeOf_child hp)
    have hparts : ∀ p ∈ cs, ∀ q ∈ p.2.children,
        (q.2.mapNodes g).evaluated ms known = q.2.evaluated ms known := by
      intro p hp q hq
      have hsize : sizeOf p.2 < sizeOf (mk n cs) := sizeOf_child hp
      obtain ⟨r, m, ds⟩ := p
      exact ih q.2 (Nat.lt_trans (sizeOf_child hq) hsize)
    rw [mapNodes, evaluated, evaluated, hg.kind, hg.lazy, hg.link?, hg.id]
    simp only [evaluated_all_mapNodes hcs, evaluated_inRole_mapNodes hcs,
      evaluated_lazily_mapNodes hg hcs hparts]

theorem operandsIn_mapNodes (hg : Renames g) (cs : Children) :
    operandsIn (mapNodes.go g cs) = mapNodes.go g (operandsIn cs) := by
  simp only [operandsIn, mapNodes_go_eq_map, filter_map, Function.comp_def, hg.kind_mapNodes]

theorem ran_inList_mapNodes (ih : ∀ p ∈ cs, (p.2.mapNodes g).ran ms known = p.2.ran ms known) :
    ran.inList ms known (mapNodes.go g cs) = ran.inList ms known cs :=
  go_mapNodes (fun hp hcs => by rw [ran.inList, ran.inList, hp, hcs]) ih

theorem ran_inPart_mapNodes (hg : Renames g) (r : Role)
    (ih : ∀ p ∈ cs, (p.2.mapNodes g).ran ms known = p.2.ran ms known) :
    ran.inPart ms known r (mapNodes.go g cs) = ran.inPart ms known r cs := by
  induction cs with
  | nil => rfl
  | cons p cs ihcs =>
    obtain ⟨hp, hcs⟩ := forall_mem_cons.mp ih
    rw [mapNodes.go, ran.inPart, ran.inPart, hp, hg.kind_mapNodes, ihcs hcs]

theorem ran_mapNodes (hg : Renames g) (t : Tree) :
    (t.mapNodes g).ran ms known = t.ran ms known := by
  induction t using ofChildren with
  | step n cs ih =>
    have hall : ∀ ds : Children,
        evaluated.all ms known (mapNodes.go g ds) = evaluated.all ms known ds := fun ds =>
      evaluated_all_mapNodes fun p _ => evaluated_mapNodes hg p.2
    have hrole : ∀ r (ds : Children),
        evaluated.inRole ms known r (mapNodes.go g ds) = evaluated.inRole ms known r ds :=
      fun r ds => evaluated_inRole_mapNodes fun p _ => evaluated_mapNodes hg p.2
    rw [mapNodes, ran, ran, hg.kind, hg.id]
    simp only [ran_inList_mapNodes ih, ran_inPart_mapNodes hg _ ih, operandsIn_mapNodes hg, hall,
      hrole]

end Tree

end Names

end Resumable
