import Mathlib.Data.List.Basic
import Mathlib.Data.List.TakeWhile
import Resumable.Tree

/-!
# Trees before they are cut

The parser gives trees whose children fill the places of the schema, in its order, and in which
none of the nodes stands that cutting or a manifest brings in. What is proved about cutting is
proved for these trees.

* `Tree.fills_mem`: every child stands in a place of the schema and is of a kind that is allowed
  there.
* `Tree.uncut_compound`: a branch or a loop has operands first, and then blocks.
-/

namespace Resumable

open List

variable {cs : Children} {n : Node} {places : List Slot} {k : Kind} {P : Tree → Prop}
  {p : Role × Tree} {s : Slot}

namespace Kind

/-- The kinds of nodes that only cutting brings into a tree. -/
def inserted : Kind → Bool
  | machine | mainFirst | initFirst | subFirst | debugState | beforeSub | afterSub | callSub
  | beforeReturn | papiWait | papiSleep | callSubResult | machineArgument => true
  | _ => false

/-- The kinds of nodes that only a manifest brings into a tree. -/
def generated : Kind → Bool
  | readFields | writeFields => true
  | _ => false

/-- The kinds of what a statement works with: expressions, their arguments and types. -/
def operand (k : Kind) : Bool := k.isA expression || k.isA typeRef || k == argumentList

/-- The kinds that hold only operands. -/
def simple (k : Kind) : Bool :=
  k.slots.all fun s =>
    s.allowed == expression || s.allowed == typeRef || s.allowed == argumentList

theorem simple_of_operand (h : k.operand = true) : k.simple = true := by
  revert h
  cases k <;> decide

def loops : Kind → Bool
  | loop | whileLoop | doWhileLoop | forLoop => true
  | _ => false

end Kind

namespace Tree

/-! ## Functions on rows of children -/

section

variable {α : Type} {r : Role}

theorem eq_map {F : Children → List α} {f : Role × Tree → α} (hnil : F [] = [])
    (hcons : ∀ r t cs, F ((r, t) :: cs) = f (r, t) :: F cs) (cs : Children) : F cs = cs.map f := by
  induction cs with
  | nil => exact hnil
  | cons p cs ih => rw [map_cons, ← ih, ← hcons]

theorem lookup_map (f : Tree → α) (r : Role) (cs : Children) :
    (cs.map fun p => (p.1, f p.2)).lookup r = (cs.lookup r).map f := by
  induction cs with
  | nil => rfl
  | cons p cs ih =>
    rw [map_cons, lookup_cons, lookup_cons, ih]
    cases r == p.1 <;> rfl

/-- A function that stops at the first child in a role is a function of what is found in this role.
-/
theorem eq_lookup {F : Children → α} {f : Tree → α} {a : α} (hnil : F [] = a)
    (hcons : ∀ r' t cs, F ((r', t) :: cs) = if r = r' then f t else F cs) (cs : Children) :
    F cs = ((cs.lookup r).map f).getD a := by
  induction cs with
  | nil => exact hnil
  | cons p cs ih =>
    rw [show p = (p.1, p.2) from rfl, hcons, lookup_cons, ih]
    by_cases h : r = p.1
    · simp [h]
    · rw [if_neg h, beq_false_of_ne h]

end

/-! ## Children in the places of the schema -/

/-- Whether children stand in the places of a schema, in their order. -/
def fills : List Slot → Children → Bool
  | [], cs => cs.isEmpty
  | s :: places, cs =>
    match s.arity, cs with
    | .one, [] => false
    | .one, (r, t) :: rest => r == s.role && t.kind.isA s.allowed && fills places rest
    | .optional, [] => fills places []
    | .optional, (r, t) :: rest =>
      if r = s.role then t.kind.isA s.allowed && fills places rest
      else fills places ((r, t) :: rest)
    | .many, cs =>
      (cs.takeWhile (·.1 == s.role)).all (·.2.kind.isA s.allowed) &&
        fills places (cs.dropWhile (·.1 == s.role))

/-- Whether a tree is as the parser gives it: the children of each node fill the places of its
kind, a statement that is a call holds a call, and no node is one that cutting or a manifest brings
in. -/
def uncut : Tree → Bool
  | mk n cs =>
    !(n.kind.inserted || n.kind.generated) && fills n.kind.slots cs &&
      (n.kind != .callStatement || cs.all (·.2.kind == .call)) && go cs
where
  go : Children → Bool
    | [] => true
    | (_, t) :: rest => t.uncut && go rest

/-! ## Induction -/

theorem ofSmaller (step : ∀ t, (∀ s, sizeOf s < sizeOf t → P s) → P t) (t : Tree) : P t :=
  (measure (sizeOf : Tree → Nat)).wf.induction t step

theorem sizeOf_child (h : p ∈ cs) : sizeOf p.2 < sizeOf (mk n cs) := by
  have hp := sizeOf_lt_of_mem h
  obtain ⟨r, t⟩ := p
  simp only [Prod.mk.sizeOf_spec, mk.sizeOf_spec] at hp ⊢
  omega

/-- Induction over trees: a statement about a node may use the one about all of its children. -/
theorem ofChildren (step : ∀ n cs, (∀ p ∈ cs, P p.2) → P (mk n cs)) (t : Tree) : P t := by
  induction t using ofSmaller with
  | step t ih =>
    obtain ⟨n, cs⟩ := t
    exact step n cs fun p hp => ih p.2 (sizeOf_child hp)

/-! ## One child after the other -/

section Gathering

variable {α : Type} {f : Tree → List α} {go : Children → List α} {q : Role × Tree → Bool}

/-- What is gathered from some children, one after the other. -/
structure Gathers (go : Children → List α) (f : Tree → List α) : Prop where
  nil : go [] = []
  cons (p : Role × Tree) (cs : Children) : go (p :: cs) = f p.2 ++ go cs

namespace Gathers

theorem eq_flatMap (h : Gathers go f) (cs : Children) : go cs = cs.flatMap fun p => f p.2 := by
  induction cs with
  | nil => exact h.nil
  | cons p cs ih => rw [h.cons, ih, flatMap_cons]

theorem append (h : Gathers go f) (xs ys : Children) : go (xs ++ ys) = go xs ++ go ys := by
  simp only [h.eq_flatMap, flatMap_append]

theorem mem (h : Gathers go f) {a : α} : a ∈ go cs ↔ ∃ p ∈ cs, a ∈ f p.2 := by
  rw [h.eq_flatMap, mem_flatMap]

theorem eq_nil (h : Gathers go f) : go cs = [] ↔ ∀ p ∈ cs, f p.2 = [] := by
  rw [h.eq_flatMap, flatMap_eq_nil_iff]

theorem filter (h : Gathers go f) (hq : ∀ p ∈ cs, q p = true ∨ f p.2 = []) :
    go (cs.filter q) = go cs := by
  induction cs with
  | nil => rfl
  | cons p cs ih =>
    obtain ⟨hp, hcs⟩ := forall_mem_cons.mp hq
    rw [filter_cons]
    split
    · rw [h.cons, h.cons, ih hcs]
    · next hne => rw [h.cons, hp.resolve_left hne, ih hcs, nil_append]

end Gathers

theorem go_iff {go : Children → Bool} {f : Tree → Bool} (hnil : go [] = true)
    (hcons : ∀ p cs, go (p :: cs) = (f p.2 && go cs)) :
    go cs = true ↔ ∀ p ∈ cs, f p.2 = true := by
  induction cs with
  | nil => simp [hnil]
  | cons p cs ih => rw [hcons, Bool.and_eq_true, ih, forall_mem_cons]

/-- A function on rows does not see a change of nodes if the function on trees does not. -/
theorem go_mapNodes {β γ : Type*} {go : Children → β} {f : Tree → γ} {g : Node → Node}
    (hcons : ∀ {r t t' cs cs'}, f t' = f t → go cs' = go cs →
      go ((r, t') :: cs') = go ((r, t) :: cs))
    (h : ∀ p ∈ cs, f (p.2.mapNodes g) = f p.2) : go (mapNodes.go g cs) = go cs := by
  induction cs with
  | nil => rfl
  | cons p cs ih =>
    obtain ⟨hp, hcs⟩ := forall_mem_cons.mp h
    exact hcons hp (ih hcs)

end Gathering

/-! ## What the check says about a node -/

theorem uncut_go_iff : uncut.go cs = true ↔ ∀ p ∈ cs, p.2.uncut = true :=
  go_iff rfl fun _ _ => rfl

theorem uncut_child (h : (mk n cs).uncut = true) (hp : p ∈ cs) : p.2.uncut = true := by
  simp only [uncut, Bool.and_eq_true] at h
  exact uncut_go_iff.mp h.2 p hp

theorem uncut_arguments {a : Node} {as : Children} {r : Role}
    (h : (mk n [(r, mk a as)]).uncut = true) : ∀ p ∈ as, p.2.uncut = true :=
  fun _ hp => uncut_child (uncut_child h mem_cons_self) hp

theorem uncut_inserted (h : (mk n cs).uncut = true) : n.kind.inserted = false := by
  simp only [uncut, Bool.and_eq_true, Bool.not_eq_true', Bool.or_eq_false_iff] at h
  exact h.1.1.1.1

theorem uncut_generated (h : (mk n cs).uncut = true) : n.kind.generated = false := by
  simp only [uncut, Bool.and_eq_true, Bool.not_eq_true', Bool.or_eq_false_iff] at h
  exact h.1.1.1.2

theorem uncut_fills (h : (mk n cs).uncut = true) : fills n.kind.slots cs = true := by
  simp only [uncut, Bool.and_eq_true] at h
  exact h.1.1.2

theorem fills_one (ha : s.arity = .one) (h : fills (s :: places) cs = true) :
    ∃ t rest, cs = (s.role, t) :: rest ∧ t.kind.isA s.allowed = true ∧
      fills places rest = true := by
  match cs, h with
  | [], h => simp [fills, ha] at h
  | (r, t) :: rest, h =>
    simp only [fills, ha, Bool.and_eq_true, beq_iff_eq] at h
    obtain ⟨⟨rfl, ht⟩, hrest⟩ := h
    exact ⟨t, rest, rfl, ht, hrest⟩

theorem fills_optional (ha : s.arity = .optional) (h : fills (s :: places) cs = true) :
    ∃ own rest, cs = own ++ rest ∧ fills places rest = true ∧
      (own = [] ∨ ∃ t, own = [(s.role, t)] ∧ t.kind.isA s.allowed = true) := by
  match cs, h with
  | [], h =>
    simp only [fills, ha] at h
    exact ⟨[], [], rfl, h, Or.inl rfl⟩
  | (r, t) :: rest, h =>
    simp only [fills, ha] at h
    split at h
    · next hr =>
      rw [Bool.and_eq_true] at h
      exact ⟨[(s.role, t)], rest, by rw [hr]; rfl, h.2, Or.inr ⟨t, rfl, h.1⟩⟩
    · exact ⟨[], (r, t) :: rest, rfl, h, Or.inl rfl⟩

theorem fills_nil (h : fills [] cs = true) : cs = [] := by
  simpa [fills] using h

/-- Every child stands in one of the places, in its role, and is of a kind that is allowed there. -/
theorem fills_mem (h : fills places cs = true) :
    ∀ p ∈ cs, ∃ s ∈ places, p.1 = s.role ∧ p.2.kind.isA s.allowed = true := by
  induction places generalizing cs with
  | nil => simp [fills_nil h]
  | cons s places ih =>
    intro p hp
    cases ha : s.arity with
    | one =>
      -- The first child takes the place, and the other ones take the places behind it.
      obtain ⟨t, rest, rfl, ht, hrest⟩ := fills_one ha h
      rcases mem_cons.mp hp with rfl | hp
      · exact ⟨s, mem_cons_self, rfl, ht⟩
      · obtain ⟨s', hs', hfit⟩ := ih hrest p hp
        exact ⟨s', mem_cons_of_mem _ hs', hfit⟩
    | optional =>
      obtain ⟨own, rest, rfl, hrest, hown⟩ := fills_optional ha h
      rcases mem_append.mp hp with hp | hp
      · rcases hown with rfl | ⟨t, rfl, ht⟩
        · simp at hp
        · rw [mem_singleton] at hp
          exact ⟨s, mem_cons_self, by rw [hp], by rw [hp]; exact ht⟩
      · obtain ⟨s', hs', hfit⟩ := ih hrest p hp
        exact ⟨s', mem_cons_of_mem _ hs', hfit⟩
    | many =>
      simp only [fills, ha, Bool.and_eq_true, all_eq_true] at h
      -- All children in the role of the place take it.
      rw [← takeWhile_append_dropWhile (p := (·.1 == s.role)) (l := cs)] at hp
      rcases mem_append.mp hp with hp | hp
      · exact ⟨s, mem_cons_self, by simpa using mem_takeWhile_imp hp, h.1 p hp⟩
      · obtain ⟨s', hs', hfit⟩ := ih h.2 p hp
        exact ⟨s', mem_cons_of_mem _ hs', hfit⟩

/-! ## Shapes -/

theorem uncut_block (h : (mk n cs).uncut = true) (hk : n.kind = .statementList) :
    ∀ p ∈ cs, p.1 = .statements ∧ p.2.kind.isA .statement = true := by
  intro p hp
  obtain ⟨s, hs, hfit⟩ := fills_mem (uncut_fills h) p hp
  rw [hk] at hs
  simp only [Kind.slots, mem_singleton] at hs
  subst hs
  exact hfit

theorem uncut_simple (h : (mk n cs).uncut = true) (hk : n.kind.simple = true) :
    ∀ p ∈ cs, p.2.kind.operand = true := by
  intro p hp
  obtain ⟨s, hs, -, hfit⟩ := fills_mem (uncut_fills h) p hp
  have hplace := all_eq_true.mp hk s hs
  simp only [Bool.or_eq_true, beq_iff_eq] at hplace
  rcases hplace with (ha | ha) | ha <;> rw [ha] at hfit
  · simp [Kind.operand, hfit]
  · simp [Kind.operand, hfit]
  · revert hfit
    cases p.2.kind <;> decide

theorem eq_statementList_of_isA (h : k.isA .statementList = true) : k = .statementList := by
  revert h
  cases k <;> decide

/-- A branch or a loop has operands first, and then blocks. -/
theorem uncut_compound (h : (mk n cs).uncut = true) (hk : n.kind = .ifElse ∨ n.kind.loops = true) :
    ∃ ops blocks, cs = ops ++ blocks ∧ (∀ p ∈ ops, p.2.kind.operand = true) ∧
      ∀ p ∈ blocks, p.2.kind = .statementList := by
  have hf := uncut_fills h
  have hop : ∀ k : Kind, k.isA .expression = true → k.operand = true := by
    intro k hk
    simp [Kind.operand, hk]
  have hown : ∀ {own : Children} {r : Role},
      (own = [] ∨ ∃ t, own = [(r, t)] ∧ t.kind.isA .expression = true) →
      ∀ p ∈ own, p.2.kind.operand = true := by
    rintro own r (rfl | ⟨t, rfl, ht⟩) p hp
    · simp at hp
    · rw [mem_singleton] at hp
      exact hp ▸ hop _ ht
  -- The children are read off from the places of the kind, one after the other.
  cases hkind : n.kind <;> simp only [hkind, Kind.loops, reduceCtorEq, or_self, or_false, false_or,
    Bool.false_eq_true] at hk <;> simp only [hkind, Kind.slots] at hf
  case ifElse =>
    obtain ⟨e, rest, rfl, he, hf⟩ := fills_one rfl hf
    obtain ⟨a, rest, rfl, ha, hf⟩ := fills_one rfl hf
    obtain ⟨own, rest, rfl, hf, hb⟩ := fills_optional rfl hf
    obtain rfl := fills_nil hf
    refine ⟨[(.expression, e)], (.thenBranch, a) :: own, by simp, ?_, ?_⟩
    · intro p hp
      rw [mem_singleton] at hp
      exact hp ▸ hop _ he
    · intro p hp
      rcases mem_cons.mp hp with rfl | hp
      · exact eq_statementList_of_isA ha
      · rcases hb with rfl | ⟨b, rfl, hb⟩
        · simp at hp
        · rw [mem_singleton] at hp
          exact hp ▸ eq_statementList_of_isA hb
  case loop => exact ⟨[], [], fills_nil hf, by simp, by simp⟩
  case whileLoop | doWhileLoop =>
    obtain ⟨e, rest, rfl, he, hf⟩ := fills_one rfl hf
    obtain ⟨b, rest, rfl, hb, hf⟩ := fills_one rfl hf
    obtain rfl := fills_nil hf
    refine ⟨[(.expression, e)], [(.body, b)], rfl, ?_, ?_⟩
    · intro p hp
      rw [mem_singleton] at hp
      exact hp ▸ hop _ he
    · intro p hp
      rw [mem_singleton] at hp
      exact hp ▸ eq_statementList_of_isA hb
  case forLoop =>
    -- None of the three expressions of a loop needs to be there.
    obtain ⟨start, rest, rfl, hf, hs⟩ := fills_optional rfl hf
    obtain ⟨condition, rest, rfl, hf, hc⟩ := fills_optional rfl hf
    obtain ⟨iteration, rest, rfl, hf, hi⟩ := fills_optional rfl hf
    obtain ⟨b, rest, rfl, hb, hf⟩ := fills_one rfl hf
    obtain rfl := fills_nil hf
    refine ⟨start ++ condition ++ iteration, [(.body, b)], by simp, ?_, ?_⟩
    · intro p hp
      rcases mem_append.mp hp with hp | hp
      · rcases mem_append.mp hp with hp | hp
        · exact hown hs p hp
        · exact hown hc p hp
      · exact hown hi p hp
    · intro p hp
      rw [mem_singleton] at hp
      exact hp ▸ eq_statementList_of_isA hb

theorem uncut_call (h : (mk n cs).uncut = true) (hk : n.kind = .call) :
    ∃ m as, cs = [(.argumentList, mk m as)] ∧ m.kind = .argumentList := by
  have hf := uncut_fills h
  simp only [hk, Kind.slots] at hf
  obtain ⟨⟨m, as⟩, rest, rfl, ha, hf⟩ := fills_one rfl hf
  obtain rfl := fills_nil hf
  refine ⟨m, as, rfl, ?_⟩
  revert ha
  simp only [kind, node]
  cases m.kind <;> decide

theorem uncut_callStatement (h : (mk n cs).uncut = true) (hk : n.kind = .callStatement) :
    ∃ m ds, cs = [(.expression, mk m ds)] ∧ m.kind = .call := by
  have hf := uncut_fills h
  simp only [uncut, Bool.and_eq_true, hk, bne_self_eq_false, Bool.false_or, all_eq_true,
    beq_iff_eq] at h
  simp only [hk, Kind.slots] at hf
  obtain ⟨⟨m, ds⟩, rest, rfl, -, hf⟩ := fills_one rfl hf
  obtain rfl := fills_nil hf
  exact ⟨m, ds, rfl, h.1.2 _ (mem_singleton_self _)⟩

theorem uncut_variableDeclaration (h : (mk n cs).uncut = true) (hk : n.kind = .variableDeclaration)
    : ∃ ty, cs = [(.declaredType, ty)] ∨ ∃ e, cs = [(.declaredType, ty), (.initializer, e)] := by
  have hf := uncut_fills h
  simp only [hk, Kind.slots] at hf
  obtain ⟨ty, rest, rfl, -, hf⟩ := fills_one rfl hf
  obtain ⟨own, rest, rfl, hf, hown⟩ := fills_optional rfl hf
  obtain rfl := fills_nil hf
  refine ⟨ty, ?_⟩
  rcases hown with rfl | ⟨e, rfl, -⟩
  · exact Or.inl rfl
  · exact Or.inr ⟨e, rfl⟩

theorem uncut_function (h : (mk n cs).uncut = true) (hk : n.kind = .functionDefinition) :
    ∃ d b ds, cs = [(.declaration, d), (.body, mk b ds)] ∧ b.kind = .statementList := by
  have hf := uncut_fills h
  simp only [hk, Kind.slots] at hf
  obtain ⟨d, rest, rfl, -, hf⟩ := fills_one rfl hf
  obtain ⟨⟨b, ds⟩, rest, rfl, hb, hf⟩ := fills_one rfl hf
  obtain rfl := fills_nil hf
  exact ⟨d, b, ds, rfl, eq_statementList_of_isA hb⟩

theorem uncut_declared {d : Tree} (h : (mk n ((.declaration, d) :: cs)).uncut = true)
    (hk : n.kind = .functionDefinition) : d.kind.isA .functionDecl = true := by
  have hf := uncut_fills h
  simp only [hk, Kind.slots] at hf
  obtain ⟨d', rest, heq, hd, -⟩ := fills_one rfl hf
  cases heq
  exact hd

theorem inRole_statements (h : (mk n cs).uncut = true) (hk : n.kind = .statementList) :
    (mk n cs).inRole .statements = cs.map (·.2) := by
  refine filterMap_eq_map_iff_forall_eq_some.mpr fun p hp => ?_
  simp [(uncut_block h hk p hp).1]

end Tree

/-! ## An example -/

namespace Sample

def node (id : NodeId) (k : Kind) : Node := .blank id k (.span ⟨0, 1⟩ ⟨0, 1⟩)

def type (id : NodeId) : Tree :=
  .mk (((node id .simpleType).named "uint8_t").setLink .typeDeclaration (some 52)) []

def zero (id : NodeId) : Tree := .mk ((node id .integerLiteral).setText .literal (some "0")) []

def used (id declaration : NodeId) (name : String) : Tree :=
  .mk (((node id .variableUse).named name).setLink .declaration (some declaration)) []

def call (id declaration arguments : NodeId) (name : String) (blocking : Bool)
    (args : List Tree) : Tree :=
  .mk (((((node id .call).named name).setLink .declaration (some declaration))).setFlag .blocking
    blocking) [(.argumentList, .mk (node arguments .argumentList) (args.map (.arguments, ·)))]

def parameter (id type : NodeId) (name : String) : Tree :=
  .mk ((node id .argumentDecl).named name) [(.parameterType, Sample.type type)]

def declared (id : NodeId) (k : Kind) (name : String) (returned list : NodeId)
    (params : List Tree) : Tree :=
  .mk ((node id k).named name) [(.returnType, type returned),
    (.parameters, .mk (node list .argumentDeclList) (params.map (.declarations, ·)))]

/-- A loop in a loop: the inner one calls a function until it has no more answer, the outer one
sleeps between two rounds. -/
def body : Tree :=
  .mk (node 19 .statementList) [
    (.statements, .mk ((node 20 .variableDeclaration).named "i") [(.declaredType, type 21),
      (.initializer, zero 22)]),
    (.statements, .mk (node 23 .whileLoop) [(.expression, used 24 17 "fb"),
      (.body, .mk (node 25 .statementList) [
        (.statements, .mk (node 26 .whileLoop) [(.expression, used 27 20 "i"),
          (.body, .mk (node 28 .statementList) [
            (.statements, .mk (node 29 .expressionStatement) [
              (.expression, .mk (node 30 .assignment) [(.left, used 31 20 "i"),
                (.right, call 32 51 33 "get" false [])])])])]),
        (.statements, .mk (node 34 .callStatement) [
          (.expression, call 35 50 36 "papi_sleep" true [used 37 17 "fb"])])])]),
    (.statements, .mk (node 38 .returnStatement) [(.expression, zero 39)])]

def handler : Tree :=
  .mk (node 1 .functionDefinition) [
    (.declaration, declared 2 .functionDecl "p_plugin_handler" 3 4 [
      parameter 5 6 "c", parameter 7 8 "ps", parameter 9 10 "st", parameter 11 12 "cmd",
      parameter 13 14 "r", parameter 15 16 "wf", parameter 17 18 "fb"]),
    (.body, body)]

def index : IdMap Tree :=
  ((IdMap.empty.insert 50 (declared 50 .papiFunctionDecl "papi_sleep" 40 41 [])).insert 51
    (declared 51 .functionDecl "get" 42 43 [])).insert 52
      (.mk ((node 52 .intDecl).named "uint8_t") [])

end Sample

end Resumable
