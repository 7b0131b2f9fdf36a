import Resumable.Proofs.Numbering
import Resumable.Proofs.Renaming

/-!
# The way through a function

A function is carried out as a list of jobs. Each job evaluates some expressions and puts other
jobs in its place. A function with states leaves in the middle: it stores the number of the state
in which it wants to go on, and when it is called again it jumps to the label with this number.

Which branch is taken and whether a wait is over is left open here, so that all ways through the
function are covered, including those that go round its loops any number of times.

* `Reaches`: the points that a function can come to, from its entry or from a label.
* `Reaches.invariant`: what holds at the entry and at the labels, and goes from point to point,
  holds everywhere.
* `Reaches.follow`: a point that a given way leads to.
-/

namespace Resumable

open Resumable.Tree

variable {k : Int} {yes : Bool} {body t : Tree}

namespace Tree

theorem isCut_mapNodes {g : Node → Node} (hg : Renames g) (t : Tree) :
    (t.mapNodes g).isCut = t.isCut := by
  have hmark : ∀ n, (g n).mark? = n.mark? := hg.congr fun _ _ => rfl
  rw [isCut, isCut, labels, labels, marks_mapNodes hmark]

end Tree

/-! ## Jobs -/

/-- Something that a function has to do. -/
inductive Job where
  | run (t : Tree)
  | test (t : Tree)
  | iterate (t : Tree)
  | wait (t : Tree)
  /-- Makes the call behind the label of a call that was taken out of an expression. -/
  | call (t : Tree)
deriving Inhabited

variable {ts : List Job} {j : Job}

namespace Job

def tree : Job → Tree
  | run t | test t | iterate t | wait t | call t => t

/-- What comes after a round of a loop. -/
def afterRound (t : Tree) : Job := if t.kind = .forLoop then iterate t else test t

def runIn (t : Tree) (r : Role) : List Job := (t.child? r).toList.map run

def runAll (cs : Children) : List Job := cs.map fun p => run p.2

def argumentsOf (t : Tree) : List Tree :=
  ((t.child? .argumentList).map (·.inRole .arguments)).getD []

/-- The expressions that a job evaluates. Behind its label, a wait for a transfer evaluates its
first argument again, and a wait for some time does not. -/
def operands : Job → List Tree
  | run t =>
    match t.kind with
    | .variableDeclaration => (t.child? .initializer).toList
    | .expressionStatement | .callStatement | .returnStatement | .ifElse =>
      (t.child? .expression).toList
    | .forLoop => (t.child? .start).toList
    | .papiSleep => (argumentsOf t).take 1
    | .papiWait => argumentsOf t
    | _ => []
  | test t => (t.child? (if t.kind = .forLoop then .condition else .expression)).toList
  | iterate t => (t.child? .iteration).toList
  | wait t => if t.kind = .papiWait then (argumentsOf t).take 1 else []
  | call t => (t.child? .expression).toList

end Job

open Job

section Names

variable {g : Node → Node}

theorem Tree.child?_mapNodes (t : Tree) (r : Role) :
    (t.mapNodes g).child? r = (t.child? r).map (mapNodes g) := by
  obtain ⟨n, cs⟩ := t
  exact lookup_mapNodes g r cs

theorem Job.argumentsOf_mapNodes (t : Tree) :
    argumentsOf (t.mapNodes g) = (argumentsOf t).map (mapNodes g) := by
  rw [argumentsOf, child?_mapNodes, argumentsOf]
  cases t.child? .argumentList with
  | none => rfl
  | some a => exact inRole_mapNodes g a .arguments

/-- With other names, a job has the same operands with other names. -/
theorem Job.operands_mapNodes (hg : Renames g) (t : Tree) :
    (run (t.mapNodes g)).operands = (run t).operands.map (mapNodes g) ∧
      (test (t.mapNodes g)).operands = (test t).operands.map (mapNodes g) ∧
      (iterate (t.mapNodes g)).operands = (iterate t).operands.map (mapNodes g) ∧
      (wait (t.mapNodes g)).operands = (wait t).operands.map (mapNodes g) ∧
      (call (t.mapNodes g)).operands = (call t).operands.map (mapNodes g) := by
  have hpart : ∀ r, ((t.mapNodes g).child? r).toList =
      (t.child? r).toList.map (mapNodes g) := by
    intro r
    rw [child?_mapNodes, Option.toList_map]
  have htake : (argumentsOf (t.mapNodes g)).take 1 =
      ((argumentsOf t).take 1).map (mapNodes g) := by
    rw [argumentsOf_mapNodes, List.map_take]
  simp only [operands, hg.kind_mapNodes]
  refine ⟨?_, hpart _, hpart _, ?_, hpart _⟩
  · split
    -- A part in a role is evaluated, and for a wait its arguments.
    case h_1 | h_2 | h_3 | h_4 | h_5 | h_6 => exact hpart _
    case h_7 => exact htake
    case h_8 => exact argumentsOf_mapNodes t
    case h_9 => rfl
  · split
    · exact htake
    · rfl

end Names

/-- The jobs behind the label of a state. -/
def Tree.seek (k : Int) : Tree → Option (List Job)
  | mk n cs =>
    match n.kind with
    | .debugState | .beforeSub => if n.number? .nextState = some k then some [] else none
    | .papiSleep | .papiWait =>
      if n.number? .nextState = some k then some [wait (mk n cs)] else none
    | .callSub => if n.number? .nextState = some k then some [call (mk n cs)] else none
    | .statementList => inList cs
    | .ifElse => (inPart .thenBranch cs).or (inPart .elseBranch cs)
    | .whileLoop | .doWhileLoop | .forLoop =>
      (inPart .body cs).map (· ++ [afterRound (mk n cs)])
    | _ => none
where
  inList : Children → Option (List Job)
    | [] => none
    | (_, t) :: rest =>
      match t.seek k with
      | some ts => some (ts ++ runAll rest)
      | none => inList rest
  inPart (r : Role) : Children → Option (List Job)
    | [] => none
    | (r', t) :: rest => if r = r' then t.seek k else inPart r rest

theorem Tree.seek_inPart (k : Int) (r : Role) (cs : Children) :
    seek.inPart k r cs = (cs.lookup r).bind (seek k) := by
  rw [eq_lookup (F := seek.inPart k r) rfl (fun _ _ _ => rfl)]
  cases cs.lookup r <;> rfl

namespace Tree

theorem mem_marks_of_seek_inList {cs : Children}
    (ih : ∀ p ∈ cs, ∀ ts, p.2.seek k = some ts → .cut (some k) ∈ p.2.marks)
    (h : seek.inList k cs = some ts) : .cut (some k) ∈ marks.go cs := by
  induction cs generalizing ts with
  | nil => cases h
  | cons p cs ihcs =>
    obtain ⟨r, t⟩ := p
    obtain ⟨iht, ih⟩ := List.forall_mem_cons.mp ih
    rw [seek.inList] at h
    cases ht : t.seek k with
    | none =>
      rw [ht] at h
      exact List.mem_append_right _ (ihcs ih h)
    | some us => exact List.mem_append_left _ (iht us ht)

/-- A label that is found is one of the marks of the tree. -/
theorem mem_marks_of_seek (h : t.seek k = some ts) : .cut (some k) ∈ t.marks := by
  induction t using ofChildren generalizing ts with
  | step n cs ih =>
    -- A label in a part is a label of the whole.
    have hpart : ∀ {r ts}, seek.inPart k r cs = some ts → .cut (some k) ∈ (mk n cs).marks := by
      intro r ts h
      rw [seek_inPart] at h
      obtain ⟨b, hb, h⟩ := Option.bind_eq_some_iff.mp h
      exact List.mem_append_right _ (gathers_marks.mem.mpr ⟨_, mem_of_lookup hb,
        ih _ (mem_of_lookup hb) h⟩)
    rw [seek] at h
    split at h
    case h_1 hk | h_2 hk | h_3 hk | h_4 hk | h_5 hk =>
      split at h
      · next hnext => simp [marks, Node.mark?, hk, Kind.cuts, hnext]
      · cases h
    case h_6 =>
      exact List.mem_append_right _ (mem_marks_of_seek_inList (fun p hp _ => ih p hp) h)
    case h_7 =>
      rcases Option.or_eq_some_iff.mp h with h | ⟨-, h⟩
      · exact hpart h
      · exact hpart h
    case h_8 | h_9 | h_10 =>
      obtain ⟨us, h, -⟩ := Option.map_eq_some_iff.mp h
      exact hpart h
    case h_11 => cases h

theorem isCut_of_seek (h : t.seek k = some ts) : t.isCut = true :=
  isCut_iff.mpr ⟨some k, mem_marks_of_seek h⟩

end Tree

/-! ## Ways -/

/-- What a job leads to. -/
inductive Flow where
  | next (ts : List Job)
  | ends
  | leave (state : Option Int)
  | store (state : Option Int) (ts : List Job)
  /-- Leaves the function with the state that is stored, or goes on. -/
  | ask
  /-- Jumps to the label of the state that is stored, if there is one. -/
  | dispatch (last : Option Int)

/-- What a job leads to, if its condition holds or does not hold. -/
def Job.flow (yes : Bool) : Job → Flow
  | run t =>
    match t.kind with
    | .statementList => .next (runAll t.children)
    | .ifElse => .next (runIn t (if yes then .thenBranch else .elseBranch))
    | .whileLoop | .forLoop => .next [test t]
    | .doWhileLoop => .next (runIn t .body ++ [afterRound t])
    | .returnStatement => .ends
    | .debugState | .papiSleep | .papiWait => .leave (t.node.number? .nextState)
    | .beforeSub => .store (t.node.number? .nextState) []
    | .callSub => .store (t.node.number? .nextState) [call t]
    | .afterSub => .ask
    | .beforeReturn => .store (some 0) []
    | .machine => .dispatch (t.node.number? .lastState)
    | _ => .next []
  | test t => .next (if yes then runIn t .body ++ [afterRound t] else [])
  | iterate t => .next [test t]
  | wait _ | call _ => .ask

/-- Only in front of calls of functions with states and of returns a state is stored without
leaving. -/
theorem Job.flow_store {k : Option Int} (h : j.flow yes = .store k ts) :
    ∃ t, j = run t ∧ (t.kind = .beforeSub ∧ ts = [] ∨ t.kind = .callSub ∧ ts = [call t] ∨
      t.kind = .beforeReturn ∧ k = some 0 ∧ ts = []) := by
  cases j with
  | run t =>
    simp only [flow] at h
    split at h <;> cases h <;> simp_all
  | test t | iterate t | wait t | call t => cases h

theorem Job.flow_ask (h : j.flow yes = .ask) :
    ∃ t, j = run t ∧ t.kind = .afterSub ∨ j = wait t ∨ j = call t := by
  cases j with
  | run t =>
    simp only [flow] at h
    split at h <;> cases h
    next hk => exact ⟨t, Or.inl ⟨rfl, hk⟩⟩
  | wait t => exact ⟨t, Or.inr (Or.inl rfl)⟩
  | call t => exact ⟨t, Or.inr (Or.inr rfl)⟩
  | test t | iterate t => cases h

theorem Job.flow_dispatch {last : Option Int} (h : j.flow yes = .dispatch last) :
    ∃ t, j = run t ∧ t.kind = .machine := by
  cases j with
  | run t =>
    simp only [flow] at h
    split at h <;> cases h
    next hk => exact ⟨t, rfl, hk⟩
  | test t | iterate t | wait t | call t => cases h

/-- A point on the way of a function from a call of it to its next return. -/
structure Point where
  work : List Job
  stored : Int
  /-- The calls that were taken out of expressions and whose results were kept since the function
  was called. -/
  results : List NodeId := []

variable {p : Point}

/-- The results that a job keeps. -/
def Job.keeps : Job → List NodeId
  | call t => [t.id]
  | _ => []

/-- One job is carried out, and the function is not left. -/
inductive Moves : Point → Point → Prop
  | next {j : Job} {w ts : List Job} {k : Int} {rs : List NodeId} {yes : Bool}
      (h : j.flow yes = .next ts) : Moves ⟨j :: w, k, rs⟩ ⟨ts ++ w, k, rs⟩
  | store {j : Job} {w ts : List Job} {k k' : Int} {rs : List NodeId} {yes : Bool}
      (h : j.flow yes = .store (some k') ts) : Moves ⟨j :: w, k, rs⟩ ⟨ts ++ w, k', rs⟩
  | ask {j : Job} {w : List Job} {k : Int} {rs : List NodeId} {yes : Bool}
      (h : j.flow yes = .ask) : Moves ⟨j :: w, k, rs⟩ ⟨w, k, j.keeps ++ rs⟩
  | dispatch {j : Job} {w : List Job} {rs : List NodeId} {yes : Bool} {last : Option Int}
      (h : j.flow yes = .dispatch last) : Moves ⟨j :: w, 0, rs⟩ ⟨w, 0, rs⟩

/-- A function that is called comes to a point. It begins at its beginning if no state is stored,
and at a label otherwise. -/
inductive Reaches (body : Tree) : Point → Prop
  | entry : Reaches body ⟨[run body], 0, []⟩
  | label {k : Int} {ts : List Job} (h : body.seek k = some ts) : Reaches body ⟨ts, k, []⟩
  | step {p q : Point} (h : Reaches body p) (hm : Moves p q) : Reaches body q

/-- Induction over the points that a function can come to. -/
theorem Reaches.invariant {I : Point → Prop} (hentry : I ⟨[run body], 0, []⟩)
    (hlabel : ∀ k ts, body.seek k = some ts → I ⟨ts, k, []⟩) (hstep : ∀ p q, I p → Moves p q → I q)
    (h : Reaches body p) : I p := by
  induction h with
  | entry => exact hentry
  | label h => exact hlabel _ _ h
  | step _ hm ih => exact hstep _ _ ih hm

def Point.returns (p : Point) : Bool :=
  match p.work with
  | .run t :: _ => t.kind == .returnStatement
  | _ => false

theorem Point.returns_iff :
    p.returns = true ↔ ∃ t w, p.work = .run t :: w ∧ t.kind = .returnStatement := by
  unfold returns
  split
  · next t w hw => simp [hw]
  · next hne =>
    refine ⟨fun h => absurd h Bool.false_ne_true, ?_⟩
    rintro ⟨t, w, hw, -⟩
    exact absurd hw (hne t w)

/-! ## Ways that are given -/

/-- The point behind the next job, if its condition holds or does not hold. -/
def Point.next? (yes : Bool) (p : Point) : Option Point :=
  match p.work with
  | [] => none
  | j :: w =>
    match j.flow yes with
    | .next ts => some { p with work := ts ++ w }
    | .store (some k) ts => some { p with work := ts ++ w, stored := k }
    | .ask => some { p with work := w, results := j.keeps ++ p.results }
    | .dispatch _ => if p.stored = 0 then some { p with work := w } else none
    | _ => none

/-- The point that is reached if conditions hold or do not hold in the given order. -/
def Point.follow : List Bool → Point → Option Point
  | [], p => some p
  | yes :: rest, p => (p.next? yes).bind (follow rest)

theorem moves_of_next? {q : Point} (h : p.next? yes = some q) : Moves p q := by
  obtain ⟨_ | ⟨j, w⟩, k, rs⟩ := p
  · cases h
  · simp only [Point.next?] at h
    split at h
    case h_1 ts hf =>
      cases h
      exact .next hf
    case h_2 k' ts hf =>
      cases h
      exact .store hf
    case h_3 hf =>
      cases h
      exact .ask hf
    case h_4 last hf =>
      split at h
      · next hk =>
        cases h
        cases hk
        exact .dispatch hf
      · cases h
    case h_5 => cases h

theorem Reaches.follow {way : List Bool} {P : Point → Bool} (h : Reaches body p)
    (hP : (p.follow way).any P = true) : ∃ q, Reaches body q ∧ P q = true := by
  induction way generalizing p with
  | nil => exact ⟨p, h, hP⟩
  | cons yes way ih =>
    rw [Point.follow] at hP
    cases hn : p.next? yes with
    | none =>
      rw [hn] at hP
      cases hP
    | some q =>
      rw [hn] at hP
      exact ih (h.step (moves_of_next? hn)) hP

theorem Reaches.follow_label {body : Tree} {k : Int} {way : List Bool} {P : Point → Bool}
    (h : ((body.seek k).bind fun ts => Point.follow way ⟨ts, k, []⟩).any P = true) :
    ∃ q, Reaches body q ∧ P q = true := by
  cases hs : body.seek k with
  | none =>
    rw [hs] at h
    cases h
  | some ts =>
    rw [hs] at h
    exact (Reaches.label hs).follow h

end Resumable
