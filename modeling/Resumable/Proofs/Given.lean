import Resumable.Builtins
import Resumable.Manifest.Declarations
import Resumable.Proofs.Making

/-!
# The nodes of given declarations

The built-in declarations, the pointer types that are made on demand and the declarations of a
manifest are built from lines of text. Each of them hands on every node that it makes.

* `Signature.operator_makes`: a line that declares an operator makes a tree that fits.
* `Builtins.all_makes`: the built-in declarations hand on all their nodes.
* `Builtins.pointerTo_makes`: a pointer type that is made on demand is one as the parser gives it.
* `Manifest.declarations_makes`: the declarations of a manifest hand on all their nodes.
-/

namespace Resumable

open Step Resumable.Tree

/-- All nodes of the trees were drawn for them. -/
abbrev Step.Holds (ts : List Tree) (d : Multiset NodeId) : Prop := True ∧ d = bags ts

/-! ## Signatures -/

namespace Signature

variable {σ : Type} [HasLog σ] [LawfulLog σ]

/-- A node for each star of a type. -/
theorem pointersTo_makes (o : Origin) (n : Nat) (t : Tree) :
    Makes (pointersTo o n t : Step σ Tree) fun t' d => t'.bag = t.bag + d := by
  induction n generalizing t with
  | zero => exact .pure (add_zero _).symm
  | succ n ih =>
    refine (newNode_makes .pointerType o).bind fun p => (ih (.mk p [(.pointedType, t)])).weaken ?_
    rintro t' d hbag _ ⟨-, rfl⟩
    rw [hbag, bag_mk, under_cons, under_nil]
    abel

theorem finish_makes (o : Origin) (a base : Node) (word : String) (ws : List String)
    (hlater : ∀ name rest, ws = name :: rest →
      Makes (parameters o rest : Step σ Children) fun cs d => d = under cs) :
    Makes (parameters.finish o a base word ws : Step σ Children)
      fun cs d => under cs = {a.id} + {base.id} + d := by
  match ws, hlater with
  | [], _ =>
    simp only [parameters.finish]
    exact (pointersTo_makes o _ _).bind fun _ => .throw
  | name :: rest, hlater =>
    simp only [parameters.finish]
    refine (pointersTo_makes o _ _).bind fun t => (hlater name rest rfl).bind fun later => .pure ?_
    rintro _ rfl d hbag
    simp only [under_cons, bag_mk, under_nil, Node.named_id, hbag]
    abel

/-- The parameters of a function hold what is made for them. A parameter takes two or three words,
so the induction is on the number of words. -/
theorem parameters_makes (o : Origin) (ws : List String) :
    Makes (parameters o ws : Step σ Children) fun cs d => d = under cs := by
  -- A parameter takes two words or three, so the induction is on their number.
  induction hn : ws.length using Nat.strong_induction_on generalizing ws with
  | h n ih =>
    have hlater : ∀ rest : List String, rest.length < ws.length →
        Makes (parameters o rest : Step σ Children) fun cs d => d = under cs :=
      fun rest hlt => ih rest.length (hn ▸ hlt) rest rfl
    have hfinish : ∀ {cs : Children} {a base : Node} {d : Multiset NodeId},
        under cs = {a.id} + {base.id} + d → {a.id} + ({base.id} + d) = under cs := by
      intro cs a base d hbag
      rw [hbag, add_assoc]
    match ws, hlater with
    | [], _ =>
      rw [parameters]
      exact .pure under_nil.symm
    | first :: rest, hlater =>
      rw [parameters]
      refine (newNode_makes _ o).bind fun a => (newNode_makes _ o).bind fun base => ?_
      split
      · exact .throw
      · next word rest =>
        refine (finish_makes o a (base.setFlag .constant true) word rest ?_).weaken ?_
        · rintro name rest' rfl
          exact hlater rest' (by simp only [List.length_cons]; omega)
        · rintro cs d hbag _ ⟨-, rfl⟩ _ ⟨-, rfl⟩
          exact hfinish hbag
      · refine (finish_makes o a base _ _ ?_).weaken ?_
        · rintro name rest' rfl
          exact hlater rest' (by simp only [List.length_cons]; omega)
        · rintro cs d hbag _ ⟨-, rfl⟩ _ ⟨-, rfl⟩
          exact hfinish hbag

theorem function_makes (o : Origin) (text : String) :
    Makes (function o text : Step σ Tree) (Whole fun _ => True) := by
  unfold function
  split
  · refine (newNode_makes _ o).bind fun d => (newNode_makes _ o).bind fun r => ?_
    refine (newNode_makes _ o).bind fun l => (parameters_makes o _).bind fun ps => .pure ?_
    rintro _ rfl _ ⟨-, rfl⟩ _ ⟨-, rfl⟩ _ ⟨-, rfl⟩
    refine ⟨trivial, ?_⟩
    simp only [bag_mk, under_cons, under_nil, Node.named_id]
    abel
  · exact .throw

/-- Whether a word for the type of an operand has no stars. -/
def plainWord (word : String) : Bool := word == "@this-type" || (splitStars word).2 == 0

/-- Whether the types in the declaration of an operator have no stars. -/
def plainOperator (text : String) : Bool :=
  match words text with
  | result :: "@op" :: _ :: operands => plainWord result && operands.all plainWord
  | _ => true

/-- The kinds of nodes that the declaration of an operator consists of. -/
def operatorKinds : List Kind :=
  [.pointerDecl, .operatorDecl, .argumentDeclList, .argumentDecl, .refType, .simpleType]

/-- A part of an operator: it fits, and it is made of a few kinds only. -/
def Part (k : Kind) (t : Tree) : Prop :=
  (t.uncut = true ∧ t.kind.isA k = true) ∧ t.Of operatorKinds

theorem Part.of_kind {n : Node} {cs : Children} {k k' : Kind} (hn : n.kind = k)
    (hk : k ∈ operatorKinds ∧ k.isA k' = true) (hfills : fills k.slots cs = true)
    (hcs : ∀ p ∈ cs, p.2.uncut = true ∧ p.2.Of operatorKinds) : Part k' (.mk n cs) := by
  have hplain : ∀ k ∈ operatorKinds, (k.inserted || k.generated) = false ∧ k ≠ .callStatement := by
    decide
  obtain ⟨hi, hc⟩ := hplain k hk.1
  subst hn
  exact ⟨⟨uncut_of rfl hi hfills (.inl hc) fun p hp => (hcs p hp).1, hk.2⟩,
    Of.mk hk.1 fun p hp => (hcs p hp).2⟩

/-- The type of an operand is a word of the line. -/
theorem operandType_makes (o : Origin) (this : NodeId) {word : String}
    (h : plainWord word = true) :
    Makes (operandType o this word : Step σ Tree) (Whole (Part .typeRef)) := by
  unfold operandType
  refine .ite (fun _ => ?_) fun hthis => ?_
  · refine (newNode_makes _ o).bind fun t => .pure ?_
    rintro _ ⟨⟨id, rfl⟩, rfl⟩
    exact ⟨.of_kind (k := .refType) rfl (by decide) rfl (List.forall_mem_nil _), by simp⟩
  · have hstars : (splitStars word).2 = 0 := by simpa [plainWord, hthis] using h
    refine (newNode_makes _ o).bind fun t => ?_
    simp only [hstars, pointersTo]
    refine .pure ?_
    rintro _ ⟨⟨id, rfl⟩, rfl⟩
    exact ⟨.of_kind (k := .simpleType) rfl (by decide) rfl (List.forall_mem_nil _), by simp⟩

/-- An operator hands on its nodes, and fits. -/
theorem operator_makes (o : Origin) (this : NodeId) {text : String}
    (h : plainOperator text = true) :
    Makes (operator o this text : Step σ Tree) (Whole (Part .operatorDecl)) := by
  unfold operator
  split
  · next result rest hwords =>
    rw [plainOperator, hwords] at h
    refine (newNode_makes _ o).bind fun d => ?_
    match rest, h with
    | [], _ =>
      -- A line without a name is refused.
      intro x t x' hx
      obtain ⟨r, x₁, _, hthrow⟩ := Step.bind_inv hx
      cases hthrow
    | name :: operands, h =>
      simp only [Bool.and_eq_true, List.all_eq_true] at h
      refine (operandType_makes o this h.1).bind fun r => (newNode_makes _ o).bind fun l => ?_
      -- An operand is a parameter without a name.
      have hoperand : ∀ word ∈ operands, Makes (σ := σ)
          (do
            let a ← newNode .argumentDecl o
            let t ← operandType o this word
            return (Role.declarations, Tree.mk a [(.parameterType, t)]))
          fun p d => (p.1 = .declarations ∧ Part .argumentDecl p.2) ∧ d = p.2.bag := by
        intro word hword
        refine (newNode_makes _ o).bind fun a => ?_
        refine (operandType_makes o this (h.2 word hword)).bind fun t => .pure ?_
        rintro _ ⟨ht, rfl⟩ _ ⟨⟨id, rfl⟩, rfl⟩
        refine ⟨⟨rfl, .of_kind (k := .argumentDecl) rfl (by decide)
          (by simp [fills, Kind.slots, ht.1.2]) (by simp [ht.1.1, ht.2])⟩, ?_⟩
        simp only [bag_mk, under_cons, under_nil, add_zero]
      refine (Makes.mapM_children hoperand).bind fun ps => .pure ?_
      rintro _ ⟨hps, rfl⟩ _ ⟨⟨id', rfl⟩, rfl⟩ _ ⟨hr, rfl⟩ _ ⟨⟨id, rfl⟩, rfl⟩
      have hlist : Part .argumentDeclList (.mk (.blank id' .argumentDeclList o) ps) :=
        .of_kind (k := .argumentDeclList) rfl (by decide)
          (fills_many fun p hp => ⟨(hps p hp).1, Kind.isA_node _⟩)
          fun p hp => ⟨(hps p hp).2.1.1, (hps p hp).2.2⟩
      refine ⟨.of_kind (k := .operatorDecl) rfl (by decide)
        (by simp [fills, Kind.slots, hr.1.2, hlist.1.2])
        (by simp [hr.1.1, hr.2, hlist.1.1, hlist.2]), ?_⟩
      simp only [bag_mk, under_cons, under_nil, Node.named_id]
      abel
  · exact .throw

end Signature

/-! ## Built-in declarations -/

namespace Builtins

variable {σ : Type} [HasLog σ] [LawfulLog σ]

/-- The lines of all built-in operators are plain. -/
theorem operators_plain :
    (boolOperators ++ boolMembers ++ intOperators ++ intMembers ++ pointerMembers).all
      Signature.plainOperator = true := by
  decide +kernel

theorem castRule_makes (o : Origin) (type : NodeId) (source : String) :
    Makes (castRule o type source : Step σ Tree) (Whole fun _ => True) := by
  unfold castRule
  refine (newNode_makes _ o).bind fun c => (newNode_makes _ o).bind fun s => ?_
  refine (newNode_makes _ o).bind fun t => .pure ?_
  rintro _ ⟨-, rfl⟩ _ ⟨-, rfl⟩ _ ⟨-, rfl⟩
  refine ⟨trivial, ?_⟩
  simp only [bag_mk, under_cons, under_nil, Node.named_id, Node.setLink_id]
  abel

theorem operators_makes (o : Origin) (this : NodeId) {texts : List String}
    (h : texts.all Signature.plainOperator = true) :
    Makes (texts.mapM (Signature.operator o this) : Step σ (List Tree))
      fun ts d => (∀ t ∈ ts, Signature.Part .operatorDecl t) ∧ d = bags ts :=
  Makes.mapM_all fun text ht =>
    Signature.operator_makes o this (List.all_eq_true.mp h text ht)

/-- An integer type hands on its nodes, with its operators and casts. -/
theorem intType_makes (o : Origin) (name : String) {operators members : List String}
    (casts : List String) (ho : operators.all Signature.plainOperator = true)
    (hm : members.all Signature.plainOperator = true) :
    Makes (intType o name operators members casts : Step σ (List Tree)) Holds := by
  unfold intType
  refine (newNode_makes _ o).bind fun t => (newNode_makes _ o).bind fun l => ?_
  refine (operators_makes o t.id ho).bind fun outer =>
    (operators_makes o t.id hm).bind fun inner => ?_
  refine (newNode_makes _ o).bind fun c => ?_
  refine (Makes.mapM_all fun source _ => castRule_makes o t.id source).bind fun rules => .pure ?_
  rintro _ ⟨-, rfl⟩ _ ⟨-, rfl⟩ _ ⟨-, rfl⟩ _ ⟨-, rfl⟩ _ ⟨-, rfl⟩ _ ⟨-, rfl⟩
  refine ⟨trivial, ?_⟩
  simp only [bags_cons, bag_mk, under_cons, under_nil, under_map, Node.named_id]
  rw [← bags]
  abel

theorem basicType_makes (o : Origin) (name : String) :
    Makes (basicType o name : Step σ Tree) (Whole fun _ => True) := by
  unfold basicType
  refine (newNode_makes _ o).bind fun n => .pure ?_
  rintro _ ⟨-, rfl⟩
  exact ⟨trivial, by simp⟩

theorem boolLiteral_makes (o : Origin) (value : Bool) :
    Makes (boolLiteral o value : Step σ Tree) (Whole fun _ => True) := by
  unfold boolLiteral
  refine (newNode_makes _ o).bind fun d => (newNode_makes _ o).bind fun e => .pure ?_
  rintro _ ⟨-, rfl⟩ _ ⟨-, rfl⟩
  refine ⟨trivial, ?_⟩
  simp only [bag_mk, under_cons, under_nil, Node.named_id, Node.setFlag_id, Node.setText_id]
  abel

theorem all_makes (o : Origin) : Makes (all o : Step σ Tree) (Whole fun _ => True) := by
  have hplain := operators_plain
  simp only [List.all_append, Bool.and_eq_true] at hplain
  obtain ⟨⟨⟨⟨hbo, hbm⟩, hio⟩, him⟩, _⟩ := hplain
  have hint : ∀ p ∈ intTypes, Makes
      (intType o p.1 intOperators intMembers p.2 : Step σ (List Tree)) Holds :=
    fun p _ => intType_makes o p.1 p.2 hio him
  unfold all
  refine (newNode_makes _ o).bind fun l => (newNode_makes _ o).bind fun void => ?_
  refine (Makes.mapM_all fun name _ => basicType_makes o name).bind fun basics => ?_
  refine (boolLiteral_makes o true).bind fun yes => (boolLiteral_makes o false).bind fun no => ?_
  refine (intType_makes o "bool" _ hbo hbm).bind fun bool => ?_
  refine (Makes.mapM_all hint).bind fun ints => .pure ?_
  rintro _ ⟨-, rfl⟩ _ ⟨-, rfl⟩ _ ⟨-, rfl⟩ _ ⟨-, rfl⟩ _ ⟨-, rfl⟩ _ ⟨-, rfl⟩ _ ⟨-, rfl⟩
  refine ⟨trivial, ?_⟩
  simp only [bag_mk, under_map, bags_cons, bags_append, bags_nil, bags_flatten, Node.named_id,
    under_nil, List.cons_append]
  rw [← bags]
  abel

theorem fills_members {cs : Children} (h : ∀ p ∈ cs, p.1 = .members) :
    fills Kind.pointerDecl.slots cs = true := by
  have hmany := fills_many (k := .node) fun p hp => ⟨h p hp, Kind.isA_node p.2.kind⟩
  match cs, h with
  | [], _ => rfl
  | (r, t) :: rest, h =>
    obtain rfl : r = .members := h _ List.mem_cons_self
    exact hmany

/-- A pointer type that is made on demand fits, with all its operators. -/
theorem pointerTo_makes (type : NodeId) (name : String) :
    Makes (pointerTo type name : Step σ Tree) (Whole (Signature.Part .pointerDecl)) := by
  have hplain := operators_plain
  rw [List.all_append, Bool.and_eq_true] at hplain
  unfold pointerTo
  refine (newNode_makes _ _).bind fun p => ?_
  refine (operators_makes .internal p.id hplain.2).bind fun members => .pure ?_
  rintro _ ⟨hmembers, rfl⟩ _ ⟨⟨id, rfl⟩, rfl⟩
  have hall : ∀ q ∈ members.map (Role.members, ·), q.1 = .members ∧
      Signature.Part .operatorDecl q.2 := by
    intro q hq
    obtain ⟨t, ht, rfl⟩ := List.mem_map.mp hq
    exact ⟨rfl, hmembers t ht⟩
  refine ⟨.of_kind (k := .pointerDecl) rfl (by decide)
    (fills_members fun q hq => (hall q hq).1) fun q hq => ⟨(hall q hq).2.1.1, (hall q hq).2.2⟩, ?_⟩
  simp only [bag_mk, under_map, Node.setLink_id, Node.named_id, add_zero]

end Builtins

/-! ## Manifests -/

namespace Manifest

theorem structure_makes (name : String) (fields : List Field) :
    Makes (structure? name fields) Holds := by
  unfold structure?
  refine .ite (fun _ => .pure ⟨trivial, by simp⟩) fun _ => ?_
  have hfield : ∀ f ∈ fields, Makes (σ := Log)
      (do
        let a ← newNode .attributeDecl .manifest
        let t ← newNode .simpleType .manifest
        return (Role.members,
          Tree.mk (a.setText .name f.name) [(.declaredType, .mk (t.named f.type) [])]))
      fun p d => True ∧ d = p.2.bag := by
    intro f _
    refine (newNode_makes _ _).bind fun a => (newNode_makes _ _).bind fun t => .pure ?_
    rintro _ ⟨-, rfl⟩ _ ⟨-, rfl⟩
    refine ⟨trivial, ?_⟩
    simp only [bag_mk, under_cons, under_nil, Node.named_id, Node.setText_id]
    abel
  refine (newNode_makes _ _).bind fun s => (Makes.mapM_children hfield).bind fun members => ?_
  refine (newNode_makes _ _).bind fun d => (newNode_makes _ _).bind fun r => .pure ?_
  rintro _ ⟨-, rfl⟩ _ ⟨-, rfl⟩ _ ⟨-, rfl⟩ _ ⟨-, rfl⟩
  refine ⟨trivial, ?_⟩
  simp only [bags_cons, bags_nil, bag_mk, under_cons, under_nil, Node.named_id, Node.setLink_id]
  abel

theorem function_makes (signature : String) {body : Step Log Tree}
    (hbody : Makes body (Whole fun _ => True)) :
    Makes (function signature body) (Whole fun _ => True) := by
  unfold function
  refine (newNode_makes _ _).bind fun d => (newNode_makes _ _).bind fun l => ?_
  refine (Signature.function_makes _ _).bind fun f => hbody.bind fun s => .pure ?_
  rintro _ ⟨-, rfl⟩ _ ⟨-, rfl⟩ _ ⟨-, rfl⟩ _ ⟨-, rfl⟩
  have hf : (f.mapNode fun n => (n.setFlag .static true).setFlag .inlined true).bag = f.bag := by
    rw [bag_mapNode]
    exact fun _ => rfl
  refine ⟨trivial, ?_⟩
  simp only [bag_mk, under_cons, under_nil, hf]
  abel

theorem reader_makes (structName functionName : String) (fields : List Field) :
    Makes (reader structName functionName fields) Holds := by
  unfold reader
  refine .ite (fun _ => .pure ⟨trivial, by simp⟩) fun _ => ?_
  refine (structure_makes _ _).bind fun ds => (function_makes _ ?_).bind fun f => .pure ?_
  · refine (newNode_makes _ _).bind fun s => (newNode_makes _ _).bind fun t => .pure ?_
    rintro _ ⟨-, rfl⟩ _ ⟨-, rfl⟩
    refine ⟨trivial, ?_⟩
    simp only [bag_mk, under_cons, under_nil, Node.named_id]
    abel
  · rintro _ ⟨-, rfl⟩ _ ⟨-, rfl⟩
    exact ⟨trivial, by simp⟩

theorem writer_makes (functionName : String) (fields : List Field) :
    Makes (writer functionName fields) Holds := by
  unfold writer
  refine .ite (fun _ => .pure ⟨trivial, by simp⟩) fun _ => ?_
  refine (function_makes _ ?_).bind fun f => .pure ?_
  · refine (newNode_makes _ _).bind fun s => .pure ?_
    rintro _ ⟨-, rfl⟩
    exact ⟨trivial, by simp⟩
  · rintro _ ⟨-, rfl⟩
    exact ⟨trivial, by simp⟩

theorem declarations_makes (m : Manifest) (p : String) :
    Makes (m.declarations p) (Whole fun _ => True) := by
  unfold declarations
  have hnone : ∀ {α : Type} {e : Except Fault α},
      Makes (liftM e : Step Log α) fun _ d => d = 0 := .lift fun _ _ => rfl
  refine (newNode_makes _ _).bind fun n => hnone.bind fun items => hnone.bind fun request => ?_
  refine (reader_makes _ _ _).bind fun readers => hnone.bind fun reply => ?_
  refine (writer_makes _ _).bind fun writers => hnone.bind fun pins => ?_
  refine (structure_makes _ _).bind fun config => .pure ?_
  rintro _ ⟨-, rfl⟩ _ rfl _ ⟨-, rfl⟩ _ rfl _ ⟨-, rfl⟩ _ rfl _ rfl _ ⟨-, rfl⟩
  refine ⟨trivial, ?_⟩
  simp only [bag_mk, under_map, bags_append, Node.setText_id]
  abel

end Manifest

end Resumable
