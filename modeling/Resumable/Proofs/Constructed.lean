import Resumable.Construction
import Resumable.Proofs.Making
import Resumable.Proofs.Wording

/-!
# What construction builds

The syntax tree of a parse tree is a tree before cutting, its texts are texts of tokens, and it
holds every node that was made for it. All of this is said of the construction of each form of the
grammar, as long as no error is reported; here for types and expressions.

* `Tree.Read`: a tree as the parser gives it, with texts of tokens.
* `Construction.parameters_makes`, `Construction.typeName_makes`: the types and parameters of a
  declaration.
* `Construction.operatorForm_makes`: the expressions of every rule of the grammar.
-/

namespace Resumable

open List Resumable.Tree

variable {n m : Node} {t : ParseTree} {cs types : List ParseTree} {r : Rule} {f : Form}
  {type : Tree} {T : TokenKind → String → Prop}

/-! ## What is read -/

/-- A tree as it is read: before cutting, of some kind, and with texts of tokens. -/
structure Tree.Read (T : TokenKind → String → Prop) (k : Kind) (t : Tree) : Prop where
  uncut : t.uncut = true
  isA : t.kind.isA k = true
  worded : t.Worded T

/-- The kinds that are made where some kind is wanted, but for calls that are statements. -/
def Kind.made (k k' : Kind) : Bool :=
  !(k.inserted || k.generated) && k != .callStatement && k.isA k'

namespace Tree.Read

variable {k k' : Kind} {t : Tree} {cs : Children}

theorem node (h : t.Read T k) : t.Read T .node := ⟨h.uncut, Kind.isA_node _, h.worded⟩

/-- A node with its texts over children that were read. -/
theorem of_worded (hn : n.kind = k) (hk : k.made k' = true) (hw : n.Worded T)
    (hfills : fills k.slots cs = true) (hcs : ∀ p ∈ cs, p.2.Read T .node) :
    (Tree.mk n cs).Read T k' := by
  subst hn
  simp only [Kind.made, Bool.and_eq_true, Bool.not_eq_true', bne_iff_ne] at hk
  obtain ⟨⟨hplain, hcall⟩, hk'⟩ := hk
  exact ⟨uncut_of rfl hplain hfills (.inl hcall) fun p hp => (hcs p hp).uncut, hk',
    worded_mk.mpr ⟨hw, fun p hp => (hcs p hp).worded⟩⟩

/-- A node without texts over children that were read. -/
theorem of_kind (hn : n.kind = k) (hk : (k.made k' && k.wordless) = true)
    (hfills : fills k.slots cs = true) (hcs : ∀ p ∈ cs, p.2.Read T .node) :
    (Tree.mk n cs).Read T k' := by
  obtain ⟨hk, hwordless⟩ := (Bool.and_eq_true _ _).mp hk
  exact of_worded hn hk (Node.worded_of_wordless hn hwordless) hfills hcs

theorem of_list {r : Role} {s : Kind} (hn : n.kind = k) (hk : (k.made k' && k.wordless) = true)
    (hslots : k.slots = [⟨r, s, .many⟩]) (hcs : ∀ p ∈ cs, p.1 = r ∧ p.2.Read T s) :
    (Tree.mk n cs).Read T k' := by
  refine of_kind hn hk ?_ fun p hp => (hcs p hp).2.node
  rw [hslots]
  exact fills_many fun p hp => ⟨(hcs p hp).1, (hcs p hp).2.isA⟩

end Tree.Read

/-- A node that differs from another in its flags only. -/
structure Node.Alike (n m : Node) : Prop where
  id : m.id = n.id
  kind : m.kind = n.kind
  texts : m.texts = n.texts

/-! ## Steps without nodes -/

open Step

/-- The text of an identifier is a name that is not reserved. -/
theorem identifierText_makes {o : Option Token} (h : ∀ tok, o = some tok → T .identifier tok.text) :
    Makes (identifierText o) fun s d => (T .identifier s ∧ isReserved s = false) ∧ d = 0 := by
  unfold identifierText
  split
  · exact .throw
  · next tok =>
    dsimp only
    refine .ite (fun _ => ?_) fun hfree => ?_
    · exact .after_error (.pure (P := fun _ _ => True) trivial)
    · exact .pure ⟨⟨h tok rfl, Bool.eq_false_iff.mpr hfree⟩, rfl⟩

/-- A form that is not supported ends in an error. -/
theorem unsupportedForm_makes {α : Type} (t : ParseTree) {P : α → Multiset NodeId → Prop} :
    Makes (unsupportedForm t) P := by
  have hgive : ∀ P : α → Multiset NodeId → Prop, Makes
      (do reportError t.origin "Unsupported syntax!"; reject : Step Log α) P := fun P =>
    .after_error (Q := P) fun x a x' hx => by cases hx
  have hprint : ∀ text, Makes (print text : Step Log Unit) fun _ _ => True := by
    intro text x a x' hx
    cases hx
    exact ⟨rfl, fun hok => ⟨hok, 0, ⟨rfl, le_rfl, by simp [Log.drawn, HasLog.get, HasLog.set,
      Log.print]⟩, trivial⟩⟩
  unfold unsupportedForm
  split
  · exact (hprint _).bind fun _ => hgive _
  · exact hgive P

namespace Construction

/-! ## Types -/

/-- The words of a type were read. -/
def TypeWords (T : TokenKind → String → Prop) (types : List ParseTree) : Prop :=
  ∀ c ∈ types, c.Conforms (Lexed T) ∧ c.isRule .typeSpecifier = true

/-- The types among the specifiers of a declaration. -/
theorem specifiers_makes (h : t.Conforms (Lexed T)) :
    Makes (specifiers (t.childrenOf .declarationSpecifier)) fun s d =>
      TypeWords T s.types ∧ d = 0 := by
  -- The types that were collected so far are the invariant.
  have hgo : ∀ specs : List ParseTree, (∀ c ∈ specs, c.Conforms (Lexed T)) → ∀ s : Specifiers,
      TypeWords T s.types → Makes (specifiers.go s specs) fun s' d =>
        TypeWords T s'.types ∧ d = 0 := by
    intro specs
    induction specs with
    | nil => exact fun _ s hs => .pure ⟨hs, rfl⟩
    | cons spec rest ih =>
      intro hspecs s hs
      obtain ⟨hspec, hrest⟩ := forall_mem_cons.mp hspecs
      rw [specifiers.go]
      split
      · split
        · exact ih hrest _ hs
        · exact .after_error (ih hrest _ hs)
      · exact ih hrest _ hs
      · next c hc _ _ =>
        refine ih hrest _ fun c' hc' => ?_
        rcases mem_append.mp hc' with hc' | hc'
        · exact hs c' hc'
        · exact mem_singleton.mp hc' ▸ hspec.child? hc
      · exact ih hrest _ hs
      · exact .throw
  exact hgo _ (fun c hc => (h.childrenOf c hc).1) {} nofun

theorem addQualifier_makes (n : Node) (o : Origin) (q : String) :
    Makes (addQualifier n o q : Step Log Node) fun m d => n.Alike m ∧ d = 0 := by
  have hreport : Makes (do unsupportedQualifier o q; return n : Step Log Node) fun m d =>
      n.Alike m ∧ d = 0 :=
    .after_error (.pure (P := fun _ _ => True) trivial)
  unfold addQualifier
  split
  case h_1 | h_2 =>
    exact .ite (fun _ => .pure ⟨⟨rfl, rfl, rfl⟩, rfl⟩) fun _ => hreport
  case h_3 => exact .ite (fun _ => .pure ⟨⟨rfl, rfl, rfl⟩, rfl⟩) fun _ => .throw
  case h_12 => exact .throw
  all_goals exact hreport

theorem addQualifiers_makes (n : Node) (qs : List ParseTree) :
    Makes (addQualifiers n qs) fun m d => n.Alike m ∧ d = 0 := by
  unfold addQualifiers
  induction qs generalizing n with
  | nil => exact .pure ⟨⟨rfl, rfl, rfl⟩, rfl⟩
  | cons q qs ih =>
    rw [foldlM_cons]
    refine (addQualifier_makes n q.origin q.text).bind fun m => (ih m).weaken ?_
    rintro m' _ ⟨hm', rfl⟩ _ ⟨hm, rfl⟩
    exact ⟨⟨hm'.id.trans hm.id, hm'.kind.trans hm.kind, hm'.texts.trans hm.texts⟩, rfl⟩

/-- The type that the words of a declaration stand for. -/
theorem baseType_makes (T : TokenKind → String → Prop) (types qualifiers : List ParseTree) :
    Makes (baseType types qualifiers)
      (Whole fun t => TypeWords T types → t.Read T .typeRef) := by
  unfold baseType
  split
  · exact .throw
  · next spec =>
    dsimp only
    refine .ite (fun _ => ?_) fun hplain => ?_
    · -- Structures and enumerations are not supported.
      refine .after_error ((newNode_makes _ _).bind (Q := fun _ _ => True) fun n => ?_)
      exact (addQualifiers_makes n _).bind fun m => .pure fun _ _ _ _ => trivial
    · refine (newNode_makes _ _).bind fun n => (addQualifiers_makes _ _).bind fun m => .pure ?_
      rintro _ ⟨hm, rfl⟩ _ ⟨⟨id, rfl⟩, rfl⟩
      refine ⟨fun htypes => ?_, by simp [hm.id]⟩
      obtain ⟨hspec, hrule⟩ := htypes spec mem_cons_self
      simp only [Bool.or_eq_true, not_or, Bool.not_eq_true] at hplain
      refine .of_worded hm.kind rfl (Node.Worded.congr ?_ hm.kind hm.texts) rfl (forall_mem_nil _)
      exact ⟨spec.text, Node.text_setText _ _ _,
        text_typeSpecifier hspec hrule hplain.1 hplain.2⟩
  · exact .throw

/-- A node for each star of a declarator. -/
theorem pointers_makes (T : TokenKind → String → Prop) (pointer : Option ParseTree) (t : Tree) :
    Makes (pointers pointer t) fun t' d => t'.bag = t.bag + d ∧
      (t.Read T .typeRef → t'.Read T .typeRef) := by
  have hgo : ∀ (p : ParseTree) (k : Nat) (t : Tree), Makes (pointers.go p k t) fun t' d =>
      t'.bag = t.bag + d ∧ (t.Read T .typeRef → t'.Read T .typeRef) := by
    intro p k
    induction k with
    | zero => exact fun t => .pure ⟨by simp, id⟩
    | succ k ih =>
      intro t
      rw [pointers.go]
      refine (newNode_makes _ _).bind fun n => (addQualifiers_makes n _).bind fun m => ?_
      refine (ih _).weaken ?_
      rintro t' d ⟨hbag, hread⟩ _ ⟨hm, rfl⟩ _ ⟨⟨id, rfl⟩, rfl⟩
      refine ⟨?_, fun ht => hread (.of_kind hm.kind rfl ?_ (by simpa using ht.node))⟩
      · rw [hbag]
        simp only [bag_mk, under_cons, under_nil, hm.id]
        abel
      · simp [fills, Kind.slots, ht.isA]
  unfold pointers
  split
  · exact .pure ⟨by simp, id⟩
  · exact hgo _ _ t

mutual

theorem types_specifierRow : (t : ParseTree) → t.Conforms (Lexed T) →
    TypeWords T (specifierRow t).1
  | .leaf _, _ => nofun
  | .node _ cs, h => types_specifierRow_go cs h.children

theorem types_specifierRow_go : (cs : List ParseTree) → (∀ c ∈ cs, c.Conforms (Lexed T)) →
    TypeWords T (specifierRow.go cs).1
  | [], _ => nofun
  | c :: cs, h => by
    obtain ⟨hc, hrest⟩ := forall_mem_cons.mp h
    have hgo := types_specifierRow_go cs hrest
    rw [specifierRow.go]
    dsimp only
    split
    · next hr => exact forall_mem_cons.mpr ⟨⟨hc, hr⟩, hgo⟩
    · split
      · exact hgo
      · split
        · exact types_specifierRow c hc
        · exact hgo

end

theorem typeName_makes (h : t.Conforms (Lexed T)) :
    Makes (typeName t) (Whole (Tree.Read T .typeRef)) := by
  unfold typeName
  split
  next types qualifiers hrow =>
  have htypes : TypeWords T types := by
    split at hrow
    · next row hchild =>
      have htypes := types_specifierRow row (h.child? hchild).1
      rwa [hrow] at htypes
    · cases hrow
      nofun
  refine (baseType_makes T types qualifiers).bind fun base => ?_
  split
  · refine .pure ?_
    rintro _ ⟨hread, rfl⟩
    exact ⟨hread htypes, by simp⟩
  · split
    · exact .after_error (.pure (P := fun _ _ => True) trivial)
    · refine (pointers_makes T _ base).weaken ?_
      rintro type d ⟨hbag, htype⟩ _ ⟨hbase, rfl⟩
      exact ⟨htype (hbase htypes), hbag.symm⟩

theorem read_parameter (hk : m.kind = .argumentDecl) (hname : m.name? = none ∨ m.Named T)
    (htype : type.Read T .typeRef) : (mk m [(.parameterType, type)]).Read T .node := by
  refine .of_worded hk rfl (by rw [Node.Worded, hk]; exact hname) ?_ (by simpa using htype.node)
  simp [fills, Kind.slots, htype.isA]

/-- The parameters of a function, with or without names. -/
theorem parameters_makes {list : Option ParseTree}
    (h : ∀ l, list = some l → l.Conforms (Lexed T)) :
    Makes (parameters list) fun ps d =>
      (∀ q ∈ ps, q.1 = .declarations ∧ q.2.Read T .node) ∧ d = under ps := by
  unfold parameters
  split
  · exact .pure ⟨nofun, by simp⟩
  · next l =>
    refine .mapM_children fun p hp => ?_
    have hconf := ((h l rfl).childrenOf p hp).1
    refine (newNode_makes _ _).bind fun arg => (specifiers_makes hconf).bind fun specs => ?_
    refine (addQualifiers_makes arg _).bind fun m => (baseType_makes T _ _).bind fun base => ?_
    have hnone : ∀ id o, (Node.blank id .argumentDecl o).Alike m → m.name? = none :=
      fun id o hm => by rw [Node.name?, hm.texts]; exact Node.name?_blank _ _ _
    dsimp only
    split
    · next d hd =>
      refine (pointers_makes T _ base).bind fun type => ?_
      have hname : ∀ tok, (d.child? .directDeclarator).bind (·.token? .identifier) = some tok →
          T .identifier tok.text := by
        intro tok htok
        obtain ⟨direct, hdirect, htok⟩ := Option.bind_eq_some_iff.mp htok
        exact ((hconf.child? hd).1.child? hdirect).1.identifier htok
      have hend : Makes (do
          let name ← identifierText ((d.child? .directDeclarator).bind (·.token? .identifier))
          return (Role.declarations, Tree.mk (m.named name) [(.parameterType, type)]))
          fun q d' => d' = 0 ∧ ∃ name, (T .identifier name ∧ isReserved name = false) ∧
            q = (.declarations, .mk (m.named name) [(.parameterType, type)]) := by
        refine (identifierText_makes hname).bind fun name => .pure ?_
        rintro _ ⟨hfree, rfl⟩
        exact ⟨rfl, name, hfree, rfl⟩
      -- A declarator that is no plain name is an error, and nothing is asked of what comes then.
      refine .ite (fun _ => .after_error hend) fun _ => hend.weaken ?_
      rintro _ _ ⟨rfl, name, hfree, rfl⟩ _ ⟨hbag, htype⟩ _ ⟨hbase, rfl⟩ _ ⟨hm, rfl⟩ _
        ⟨htypes, rfl⟩ _ ⟨⟨id, rfl⟩, rfl⟩
      exact ⟨⟨rfl, read_parameter hm.kind (.inr (Node.named_of hfree)) (htype (hbase htypes))⟩,
        by simp [hm.id, hbag]⟩
    · refine (pointers_makes T _ base).bind fun type => ?_
      refine .ite (fun _ => .after_error (.pure (P := fun _ _ => True) trivial)) fun _ => .pure ?_
      rintro _ ⟨hbag, htype⟩ _ ⟨hbase, rfl⟩ _ ⟨hm, rfl⟩ _ ⟨htypes, rfl⟩ _ ⟨⟨id, rfl⟩, rfl⟩
      exact ⟨⟨rfl, read_parameter hm.kind (.inl (hnone _ _ hm)) (htype (hbase htypes))⟩,
        by simp [hm.id, hbag]⟩
    · refine .pure ?_
      rintro _ ⟨hbase, rfl⟩ _ ⟨hm, rfl⟩ _ ⟨htypes, rfl⟩ _ ⟨⟨id, rfl⟩, rfl⟩
      exact ⟨⟨rfl, read_parameter hm.kind (.inl (hnone _ _ hm)) (hbase htypes)⟩, by simp [hm.id]⟩

/-! ## Parts -/

/-- The rules of the grammar whose forms stand for expressions. -/
def valued : Rule → Bool
  | .argumentExpressionList | .castExpression | .logicalOrExpression | .conditionalExpression
  | .assignmentExpression | .expression | .constantExpression | .initExpression
  | .iterationExpression | .defineConstantDirective | .initializer | .initDeclarator
  | .initDeclaratorList | .unaryExpression => true
  | _ => false

/-- What the rule of a parse tree says about the kind of a tree that it stands for. -/
def suits (r : Rule) (k : Kind) : Bool :=
  match r with
  | .compoundStatement => k.isA .statementList
  | r => !valued r || k.isA .expression

/-- The kind of a tree is one that its rule may give. -/
def Suits (t : ParseTree) (k : Kind) : Prop := ∃ r, t.isRule r = true ∧ suits r k = true

theorem Suits.of_rule {k : Kind} (h : Suits t k) (hr : t.isRule r = true) : suits r k = true := by
  obtain ⟨r', hr', hk⟩ := h
  rw [ParseTree.isRule, eq_of_beq hr', beq_iff_eq] at hr
  exact Option.some.inj hr ▸ hk

/-- A part is sound if what it builds is read and suits its rule. -/
def Sound (T : TokenKind → String → Prop) (p : Constituent) : Prop :=
  Makes p.build fun ts d => (∀ t ∈ ts, t.Read T .node ∧ Suits p.parse t.kind) ∧ d = bags ts

variable {p : Constituent} {parts : List Constituent}

theorem mem_of_first? (h : Constituent.first? parts r = some p) :
    p ∈ parts ∧ p.parse.isRule r = true := by
  unfold Constituent.first? at h
  have hrule := find?_some h
  exact ⟨mem_of_find?_eq_some h, hrule⟩

theorem mem_of_ofRule (h : p ∈ Constituent.ofRule parts r) : p ∈ parts ∧ p.parse.isRule r = true :=
  mem_filter.mp h

/-- A constituent that has to give one tree. -/
theorem one_makes (hp : Sound T p) :
    Makes p.one (Whole fun t => t.Read T .node ∧ Suits p.parse t.kind) := by
  unfold Constituent.one
  refine hp.bind fun ts => ?_
  split
  · refine .pure ?_
    rintro _ ⟨hts, rfl⟩
    exact ⟨hts _ mem_cons_self, by simp⟩
  · exact .throw

theorem Suits.isA {k : Kind} (h : Suits t k) (hr : t.isRule r = true) (hv : valued r = true) :
    k.isA .expression = true := by
  replace h := h.of_rule hr
  unfold suits at h
  split at h
  case h_2 => simpa [hv] using h
  all_goals cases hv

theorem value_makes (hparts : ∀ p ∈ parts, Sound T p) (hr : valued r = true)
    (hp : p ∈ parts ∧ p.parse.isRule r = true) : Makes p.one (Whole (Tree.Read T .expression)) :=
  (one_makes (hparts p hp.1)).weaken fun _ _ ⟨⟨ht, hsuits⟩, hbag⟩ =>
    ⟨{ ht with isA := hsuits.isA hp.2 hr }, hbag⟩

/-- A constituent that has to be there. -/
theorem need_makes (hparts : ∀ p ∈ parts, Sound T p) (hr : valued r = true) :
    Makes (Constituent.need (Constituent.first? parts r)) (Whole (Tree.Read T .expression)) := by
  cases h : Constituent.first? parts r with
  | none => exact .throw
  | some p => exact value_makes hparts hr (mem_of_first? h)

/-! ## Expressions -/

theorem argumentList_makes (o : Origin) {ps : List Constituent}
    (hps : ∀ p ∈ ps, Makes p.one (Whole (Tree.Read T .expression))) :
    Makes (argumentList o ps) (Whole (Tree.Read T .argumentList)) := by
  unfold argumentList
  have hargs : Makes (ps.mapM fun p => do return (Role.arguments, ← p.one))
      fun cs d => (∀ q ∈ cs, q.1 = .arguments ∧ q.2.Read T .expression) ∧ d = under cs := by
    refine .mapM_children fun p hp => (hps p hp).bind fun t => .pure ?_
    rintro _ ⟨ht, rfl⟩
    exact ⟨⟨rfl, ht⟩, by simp⟩
  refine (newNode_makes _ _).bind fun n => hargs.bind fun cs => .pure ?_
  rintro _ ⟨hcs, rfl⟩ _ ⟨⟨id, rfl⟩, rfl⟩
  exact ⟨.of_list rfl rfl rfl hcs, by simp⟩

theorem errorExpression_makes (t : ParseTree) (message : String)
    {P : Tree → Multiset NodeId → Prop} : Makes (errorExpression t message) P := by
  unfold errorExpression
  refine .after_error ((newNode_makes _ _).bind (Q := fun _ _ => True) fun n => ?_)
  exact .pure fun _ _ => trivial

/-- An operator with one operand in front, and arguments behind it. -/
theorem memberOperator_makes {kind : Kind} {op : String} (t : ParseTree)
    {operand : Option Constituent} {arguments : List Constituent}
    (hkind : kind.made .expression = true)
    (hslots : kind.slots = Kind.index.slots)
    (hop : ∀ n : Node, n.kind = kind → (n.setText .operator (some op)).Worded T)
    (hoperand : Makes (Constituent.need operand) (Whole (Tree.Read T .expression)))
    (harguments : ∀ p ∈ arguments, Makes p.one (Whole (Tree.Read T .expression))) :
    Makes (memberOperator kind op t operand arguments) (Whole (Tree.Read T .expression)) := by
  unfold memberOperator
  refine (newNode_makes _ _).bind fun n => hoperand.bind fun e => ?_
  refine (argumentList_makes _ harguments).bind fun args => .pure ?_
  rintro _ ⟨hargs, rfl⟩ _ ⟨he, rfl⟩ _ ⟨⟨id, rfl⟩, rfl⟩
  refine ⟨.of_worded (k := kind) rfl hkind (hop _ rfl) ?_ (by simp [he.node, hargs.node]), by simp⟩
  rw [hslots]
  simp [Kind.slots, fills, he.isA, hargs.isA]

/-- A call of a function that is named. -/
theorem call_makes (ht : t.Conforms (Lexed T)) (hparts : ∀ p ∈ parts, Sound T p) :
    Makes (call t parts) (Whole (Tree.Read T .expression)) := by
  have hname : ∀ tok, calledName (t.child? .unaryExpression) = some tok →
      T .identifier tok.text := by
    intro tok htok
    obtain ⟨callee, hcallee, htok⟩ := Option.bind_eq_some_iff.mp htok
    have hconf := (ht.child? hcallee).1
    split at htok
    · exact hconf.identifier htok
    · exact hconf.identifier htok
    · exact hconf.identifier htok
    · cases htok
  -- Whatever the arguments are, the call itself has to fit.
  have hcall : ∀ (n m : Node) (name : String) (args : Tree), m.kind = .call →
      m.texts = (n.named name).texts → T .identifier name ∧ isReserved name = false →
      args.Read T .argumentList → (Tree.mk m [(.argumentList, args)]).Read T .expression := by
    intro n m name args hm htexts hname hargs
    refine .of_worded hm rfl ?_ ?_ (by simpa using hargs.node)
    · rw [Node.Worded, hm]
      exact ⟨name, by rw [Node.text, htexts]; exact n.text_setText _ _, hname⟩
    · simp [fills, Kind.slots, hargs.isA]
  unfold call
  refine .reported ?_
  refine (newNode_makes _ _).bind fun n => (identifierText_makes hname).bind fun name => ?_
  cases hlist : Constituent.first? parts .argumentExpressionList with
  | none =>
    refine (argumentList_makes (T := T) _ (by simp)).bind fun args => .pure ?_
    rintro _ ⟨hargs, rfl⟩ _ ⟨hname, rfl⟩ _ ⟨⟨id, rfl⟩, rfl⟩
    exact ⟨hcall _ _ name _ rfl rfl hname hargs, by simp⟩
  | some list =>
    obtain ⟨hmem, hrule⟩ := mem_of_first? hlist
    refine (newNode_makes _ _).bind fun l => (hparts list hmem).bind fun es => .pure ?_
    rintro _ ⟨hes, rfl⟩ _ ⟨⟨id', rfl⟩, rfl⟩ _ ⟨hname, rfl⟩ _ ⟨⟨id, rfl⟩, rfl⟩
    refine ⟨hcall _ _ name _ rfl rfl hname (.of_list rfl rfl rfl fun q hq => ?_), by simp⟩
    obtain ⟨e, he, rfl⟩ := mem_map.mp hq
    obtain ⟨hread, hsuits⟩ := hes e he
    exact ⟨rfl, { hread with isA := hsuits.isA hrule rfl }⟩

theorem memberAccess_makes (arrow : Bool) (ht : t.Conforms (Lexed T))
    (hparts : ∀ p ∈ parts, Sound T p) :
    Makes (memberAccess arrow t parts) (Whole (Tree.Read T .expression)) := by
  unfold memberAccess
  refine (newNode_makes _ _).bind fun n => (need_makes hparts rfl).bind fun e => ?_
  refine (identifierText_makes fun tok => ht.identifier).bind fun name => .pure ?_
  rintro _ ⟨hname, rfl⟩ _ ⟨he, rfl⟩ _ ⟨⟨id, rfl⟩, rfl⟩
  have hnamed : ((Node.blank id .memberAccess t.origin).named name).Worded T := Node.named_of hname
  refine ⟨.of_worded (k := .memberAccess) rfl rfl (hnamed.congr rfl rfl) ?_
    (by simpa using he.node),
    by simp⟩
  simp [fills, Kind.slots, he.isA]

theorem prefixed_makes (ht : (ParseTree.node .unaryOperatorExpression cs).Conforms (Lexed T))
    (hparts : ∀ p ∈ parts, Sound T p) :
    Makes (prefixed (.node .unaryOperatorExpression cs) parts)
      (Whole (Tree.Read T .expression)) := by
  -- Two of the signs have a kind of their own; the others are operators.
  have hone : ∀ kind : Kind, kind.slots = Kind.dereference.slots →
      (kind.made .expression && kind.wordless) = true → Makes
      (do
        let n ← newNode kind (ParseTree.node .unaryOperatorExpression cs).origin
        return .mk n [(.expression, ← Constituent.need (Constituent.first? parts .castExpression))])
      (Whole (Tree.Read T .expression)) := by
    intro kind hslots hkind
    refine (newNode_makes _ _).bind fun n => (need_makes hparts rfl).bind fun e => .pure ?_
    rintro _ ⟨he, rfl⟩ _ ⟨⟨id, rfl⟩, rfl⟩
    refine ⟨.of_kind (k := kind) rfl hkind ?_ (by simpa using he.node), by simp⟩
    rw [hslots]
    simp [Kind.slots, fills, he.isA]
  unfold prefixed
  dsimp only
  split
  · exact hone .dereference rfl rfl
  · exact hone .addressOf rfl rfl
  · refine memberOperator_makes _ rfl rfl (fun n hn => ?_) (need_makes hparts rfl) (by simp)
    obtain ⟨tok, e, rfl, ⟨p, hp, hkind⟩, -⟩ := Form.allows_unaryOperator ht.allows
    rw [Node.Worded, Node.setText_kind, hn]
    refine signed_of_leaf (i := 0) ht rfl ⟨p, ?_, hkind⟩ fun s => s
    exact mem_cons_of_mem _ (mem_cons_of_mem _ hp)

/-- The forms of a unary expression. -/
theorem unaryForm_makes (ht : (ParseTree.node f cs).Conforms (Lexed T))
    (hparts : ∀ p ∈ parts, Sound T p) :
    Makes (unaryForm f (.node f cs) parts) (Whole (Tree.Read T .expression)) := by
  unfold unaryForm
  dsimp only
  split
  · split
    · exact .throw
    · next tok htok =>
      have hname : ∀ tok', some tok = some tok' → T .identifier tok'.text := by
        rintro tok' ⟨⟩
        exact ht.identifier htok
      refine (newNode_makes _ _).bind fun n => (identifierText_makes hname).bind fun name =>
        .pure ?_
      rintro _ ⟨hname, rfl⟩ _ ⟨⟨id, rfl⟩, rfl⟩
      exact ⟨.of_worded (k := .variableUse) rfl rfl (Node.named_of hname) rfl (forall_mem_nil _),
        by simp⟩
  · refine (newNode_makes _ _).bind fun n => .pure ?_
    rintro _ ⟨⟨id, rfl⟩, rfl⟩
    obtain ⟨tok, rfl, hkind⟩ := Form.allows_integerLiteral ht.allows
    refine ⟨.of_worded (k := .integerLiteral) rfl rfl ⟨_, Node.text_setText _ _ _, ?_⟩ rfl
      (forall_mem_nil _), by simp⟩
    cases ht.children _ mem_cons_self with
    | leaf hP =>
      rw [Lexed, hkind] at hP
      simpa [ParseTree.text, ParseTree.tokens, ParseTree.tokens.go, String.join] using hP
  iterate 4
    · exact errorExpression_makes _ _
  · refine (need_makes hparts rfl).bind fun e => .pure ?_
    rintro _ ⟨he, rfl⟩
    -- Brackets are remembered at the node that they enclose.
    obtain ⟨n, ds⟩ := e
    obtain ⟨hn, hds⟩ := Tree.worded_mk.mp he.worded
    exact ⟨⟨he.uncut, he.isA, Tree.worded_mk.mpr ⟨hn.congr rfl rfl, hds⟩⟩, by simp [mapNode]⟩
  · refine memberOperator_makes _ rfl rfl (fun n hn => ?_) (need_makes hparts rfl) fun p hp =>
      value_makes hparts rfl (mem_of_ofRule hp)
    exact Node.worded_of_wordless hn rfl
  · exact call_makes ht hparts
  · exact memberAccess_makes _ ht hparts
  · exact memberAccess_makes _ ht hparts
  · refine memberOperator_makes _ rfl rfl (fun n hn => ?_) (need_makes hparts rfl) (by simp)
    obtain ⟨e, tok, rfl, -, hsign⟩ := Form.allows_postIncrement ht.allows
    rw [Node.Worded, Node.setText_kind, hn]
    -- Postfix operators are told apart by a word before their sign.
    exact signed_of_leaf ht rfl hsign ("post" ++ ·)
  · refine memberOperator_makes _ rfl rfl (fun n hn => ?_) (need_makes hparts rfl) (by simp)
    obtain ⟨tok, e, rfl, ⟨p, hp, hkind⟩, -⟩ := Form.allows_preIncrement ht.allows
    rw [Node.Worded, Node.setText_kind, hn]
    refine signed_of_leaf (i := 0) ht rfl ⟨p, ?_, hkind⟩ fun s => s
    exact mem_append_left [.and, .star, .plus, .minus, .tilde, .not] hp
  · exact prefixed_makes ht hparts
  · exact unsupportedForm_makes _

theorem operatorForm_makes (ht : (ParseTree.node (.of r) cs).Conforms (Lexed T))
    (hcs : parts.map Constituent.parse = cs) (hparts : ∀ p ∈ parts, Sound T p) :
    Makes (operatorForm r (.node (.of r) cs) parts) (Whole (Tree.Read T .expression)) := by
  unfold operatorForm
  split
  · -- a cast
    split
    · next p hp => exact value_makes hparts rfl (mem_of_first? hp)
    · refine (newNode_makes _ _).bind fun n => ?_
      cases hname : (ParseTree.node (.of .castExpression) cs).child? .typeName with
      | none => exact .throw
      | some name =>
        refine (typeName_makes (ht.child? hname).1).bind fun type => ?_
        refine (need_makes hparts rfl).bind fun e => .pure ?_
        rintro _ ⟨he, rfl⟩ _ ⟨htype, rfl⟩ _ ⟨⟨id, rfl⟩, rfl⟩
        refine ⟨.of_kind (k := .cast) rfl rfl ?_ (by simp [he.node, htype.node]), by simp⟩
        simp [fills, Kind.slots, he.isA, htype.isA]
  · -- an operator between two operands
    split
    · next p hp => exact value_makes hparts rfl (mem_of_first? hp)
    · have hrest : Makes
          (do
            let n ← newNode .binaryOperator (ParseTree.node (.of .logicalOrExpression) cs).origin
            let args ← argumentList (ParseTree.node (.of .logicalOrExpression) cs).origin
              (Constituent.ofRule parts .logicalOrExpression)
            return Tree.mk
              (n.setText .operator (some (textAt (.node (.of .logicalOrExpression) cs) 1)))
              [(.argumentList, args)])
          fun t d => textAt (.node (.of .logicalOrExpression) cs) 1 ∈ binaryOperators →
            Whole (Tree.Read T .expression) t d := by
        refine (newNode_makes _ _).bind fun n => ?_
        refine (argumentList_makes _ fun p hp => value_makes hparts rfl (mem_of_ofRule hp)).bind
          fun args => .pure ?_
        rintro _ ⟨hargs, rfl⟩ _ ⟨⟨id, rfl⟩, rfl⟩ hop
        refine ⟨.of_worded (k := .binaryOperator) rfl rfl ⟨_, hop, Node.text_setText _ _ _⟩ ?_
          (by simpa using hargs.node), by simp⟩
        simp [fills, Kind.slots, hargs.isA]
      refine .ite (fun hop => hrest.weaken fun t d ht => ht ?_) fun _ => .after_error hrest
      simpa using hop
  · -- a conditional
    split
    · exact need_makes hparts rfl
    · next p hp =>
      refine (newNode_makes _ _).bind fun n => (need_makes hparts rfl).bind fun c => ?_
      refine (value_makes hparts rfl (mem_of_first? hp)).bind fun a => ?_
      refine (need_makes hparts rfl).bind fun b => .pure ?_
      rintro _ ⟨hb, rfl⟩ _ ⟨ha, rfl⟩ _ ⟨hc, rfl⟩ _ ⟨⟨id, rfl⟩, rfl⟩
      refine ⟨.of_kind (k := .conditional) rfl rfl ?_ (by simp [ha.node, hb.node, hc.node]),
        by simp⟩
      simp [fills, Kind.slots, ha.isA, hb.isA, hc.isA]
  · -- an assignment
    split
    · next p hp => exact value_makes hparts rfl (mem_of_first? hp)
    · next hnone =>
      refine .ite (fun _ => ?_) fun _ => ?_
      · refine (newNode_makes _ _).bind fun n => (need_makes hparts rfl).bind fun l => ?_
        refine (need_makes hparts rfl).bind fun r => .pure ?_
        rintro _ ⟨hr, rfl⟩ _ ⟨hl, rfl⟩ _ ⟨⟨id, rfl⟩, rfl⟩
        refine ⟨.of_kind (k := .assignment) rfl rfl ?_ (by simp [hl.node, hr.node]), by simp⟩
        simp [fills, Kind.slots, hl.isA, hr.isA]
      · refine memberOperator_makes _ rfl rfl (fun n hn => ?_) (need_makes hparts rfl) fun p hp =>
          value_makes hparts rfl (mem_of_first? (Option.mem_toList.mp hp))
        rcases Form.allows_assignment ht.allows with
          ⟨e, rfl, he⟩ | ⟨l, tok, r, rfl, -, hsign, -⟩
        · -- a node with a conditional only has been left before
          obtain ⟨q, rfl, rfl⟩ : ∃ q, parts = [q] ∧ q.parse = e := by
            simpa [map_eq_singleton_iff] using hcs
          simp [Constituent.first?, he] at hnone
        · rw [Node.Worded, Node.setText_kind, hn]
          exact signed_of_leaf (i := 1) ht rfl hsign fun s => s
  · -- expressions in a row
    split
    · next p hp => exact value_makes hparts rfl (mem_of_ofRule (hp ▸ mem_cons_self))
    · exact .throw
  · exact need_makes hparts rfl
  · exact unsupportedForm_makes _

end Construction

end Resumable
