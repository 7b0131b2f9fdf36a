import Resumable.Proofs.Constructed

/-!
# The construction of programs

What is built for statements and declarations, and for a whole text.

* `Construction.statementForm_makes`: the statements of every form.
* `Construction.declaration_makes`, `Construction.functionDefinition_makes`: declarations.
* `Construction.form_makes`: the construction of any form, from what was built for its parts.
* `Construction.unit_read`: the tree of a whole text.
-/

namespace Resumable

open List Step Resumable.Tree

variable {m n : Node} {f : Form} {p : Option Constituent} {name : String}

namespace Construction

variable {T : TokenKind → String → Prop} {parts : List Constituent}
  {r : Rule} {t : ParseTree} {cs : List ParseTree}

/-! ## Statements -/

/-- A statement that has to be a list is put into one. -/
theorem asList_makes (T : TokenKind → String → Prop) (t : Tree) :
    Makes (asList t) fun t' d => t'.bag = t.bag + d ∧
      (t.Read T .node → t'.Read T .statementList) := by
  unfold asList
  refine .ite (fun hk => ?_) fun _ => .throw
  refine .ite (fun hlist => .pure ⟨by simp, fun h => ?_⟩) fun _ => ?_
  · exact { h with isA := by rw [hlist]; rfl }
  · refine (newNode_makes _ _).bind fun n => .pure ?_
    rintro _ ⟨⟨id, rfl⟩, rfl⟩
    refine ⟨by simp [add_comm], fun h => .of_list rfl rfl rfl ?_⟩
    simpa using { h with isA := hk }

theorem body_makes (message : String) (hp : ∀ q, p = some q → Sound T q) :
    Makes (body message p) (Whole (Tree.Read T .statementList)) := by
  unfold body
  split
  · exact .throw
  · next q =>
    refine (one_makes (hp q rfl)).bind fun s => ?_
    refine .ite (fun _ => (asList_makes T s).weaken ?_) fun _ => .after_error (asList_makes T s)
    rintro t d ⟨hbag, ht⟩ _ ⟨⟨hs, -⟩, rfl⟩
    exact ⟨ht hs, hbag.symm⟩

/-- At most one expression in the role. -/
def AtMost (T : TokenKind → String → Prop) (role : Role)
    (cs : Children) : Prop :=
  cs = [] ∨ ∃ t, cs = [(role, t)] ∧ t.kind.isA .expression = true ∧ t.Read T .node

theorem optional_makes (role : Role)
    (hp : ∀ q, p = some q → Makes q.one (Whole (Tree.Read T .expression))) :
    Makes (optional role p) fun cs d => AtMost T role cs ∧ d = under cs := by
  unfold optional
  split
  · exact .pure ⟨.inl rfl, by simp⟩
  · next q =>
    refine (hp q rfl).bind fun t => .pure ?_
    rintro _ ⟨ht, rfl⟩
    exact ⟨.inr ⟨t, rfl, ht.isA, ht.node⟩, by simp⟩

/-- Everything in a list has to be a statement. -/
theorem asStatements_makes (T : TokenKind → String → Prop) (ts : List Tree) :
    Makes (asStatements ts) fun cs d => under cs = bags ts + d ∧
      ((∀ t ∈ ts, t.Read T .node) → ∀ q ∈ cs, q.1 = .statements ∧ q.2.Read T .statement) := by
  unfold asStatements
  induction ts with
  | nil =>
    rw [mapM_nil]
    exact .pure ⟨by simp, nofun⟩
  | cons t ts ih =>
    rw [mapM_cons]
    have hhere : Makes (if t.kind.isA .statement then return (Role.statements, t)
        else throw .wrongKind : Step Log (Role × Tree)) fun q d =>
        q = (.statements, t) ∧ t.kind.isA .statement = true ∧ d = 0 :=
      .ite (fun hk => .pure ⟨rfl, hk, rfl⟩) fun _ => .throw
    refine hhere.bind fun q => ih.bind fun cs => .pure ?_
    rintro _ ⟨hbag, hcs⟩ _ ⟨rfl, hk, rfl⟩
    refine ⟨by simp [hbag, add_assoc], fun hts => ?_⟩
    obtain ⟨ht, hts⟩ := forall_mem_cons.mp hts
    exact forall_mem_cons.mpr ⟨⟨rfl, { ht with isA := hk }⟩, hcs hts⟩

theorem expressionStatement_makes (t : ParseTree) (hparts : ∀ p ∈ parts, Sound T p) :
    Makes (expressionStatement t parts) (Whole (Tree.Read T .node)) := by
  unfold expressionStatement
  split
  · refine (newNode_makes _ _).bind fun n => .pure ?_
    rintro _ ⟨⟨id, rfl⟩, rfl⟩
    exact ⟨.of_kind (k := .nop) rfl rfl rfl (forall_mem_nil _), by simp⟩
  · next p hp =>
    refine (value_makes hparts rfl (mem_of_first? hp)).bind fun e => ?_
    dsimp only
    refine (newNode_makes _ _).bind fun n => .pure ?_
    rintro _ ⟨⟨id, rfl⟩, rfl⟩ _ ⟨he, rfl⟩
    refine ⟨?_, by simp [add_comm]⟩
    -- a call makes the statement a call
    by_cases hcall : e.kind = .call
    · simp only [if_pos hcall]
      refine ⟨?_, rfl, ?_⟩
      · exact uncut_of (k := .callStatement) rfl rfl (by simp [fills, Kind.slots, he.isA])
          (.inr (by simpa using hcall)) (by simpa using he.uncut)
      · exact worded_mk.mpr ⟨Node.worded_of_wordless (k := .callStatement) rfl rfl,
          by simpa using he.worded⟩
    · simp only [if_neg hcall]
      refine .of_kind (k := .expressionStatement) rfl rfl ?_ (by simpa using he.node)
      simp [fills, Kind.slots, he.isA]

theorem ifStatement_makes (t : ParseTree) (hparts : ∀ p ∈ parts, Sound T p) :
    Makes (ifStatement t parts) (Whole (Tree.Read T .node)) := by
  unfold ifStatement
  refine (newNode_makes _ _).bind fun n => (need_makes hparts rfl).bind fun c => ?_
  split
  · exact .throw
  · next first rest hrule =>
    have hmem : ∀ q ∈ first :: rest, Sound T q := fun q hq =>
      hparts q (mem_of_ofRule (hrule ▸ hq)).1
    refine (body_makes (T := T) _ ?_).bind fun a => ?_
    · rintro q ⟨⟩
      exact hmem _ mem_cons_self
    · split
      · refine .pure ?_
        rintro _ ⟨ha, rfl⟩ _ ⟨hc, rfl⟩ _ ⟨⟨id, rfl⟩, rfl⟩
        refine ⟨.of_kind (k := .ifElse) rfl rfl ?_ (by simp [ha.node, hc.node]), by simp⟩
        simp [fills, Kind.slots, ha.isA, hc.isA]
      · next second _ =>
        refine (body_makes (T := T) _ ?_).bind fun b => .pure ?_
        · rintro q ⟨⟩
          exact hmem _ (mem_cons_of_mem _ mem_cons_self)
        · rintro _ ⟨hb, rfl⟩ _ ⟨ha, rfl⟩ _ ⟨hc, rfl⟩ _ ⟨⟨id, rfl⟩, rfl⟩
          refine ⟨.of_kind (k := .ifElse) rfl rfl ?_ (by simp [ha.node, hb.node, hc.node]), by simp⟩
          simp [fills, Kind.slots, ha.isA, hb.isA, hc.isA]

theorem whileStatement_makes (kind : Kind) (hslots : kind.slots = Kind.whileLoop.slots)
    (hkind : (kind.made .node && kind.wordless) = true) (t : ParseTree)
    (hparts : ∀ p ∈ parts, Sound T p) :
    Makes (whileStatement kind t parts) (Whole (Tree.Read T .node)) := by
  unfold whileStatement
  refine (newNode_makes _ _).bind fun n => (need_makes hparts rfl).bind fun c => ?_
  refine (body_makes _ fun q hq => hparts q (mem_of_first? hq).1).bind fun b => .pure ?_
  rintro _ ⟨hb, rfl⟩ _ ⟨hc, rfl⟩ _ ⟨⟨id, rfl⟩, rfl⟩
  refine ⟨.of_kind (k := kind) rfl hkind ?_ (by simp [hb.node, hc.node]), by simp⟩
  rw [hslots]
  simp [fills, Kind.slots, hb.isA, hc.isA]

/-- A loop with a start, from the parts that it has. -/
theorem forLoop_makes (n : Node) (start : Children)
    (hparts : ∀ p ∈ parts, Sound T p) :
    Makes (forLoop n start parts) fun t d => t.bag = {n.id} + under start + d ∧
      (n.kind = .forLoop → AtMost T .start start → t.Read T .statement) := by
  unfold forLoop
  have hvalue : ∀ {r : Rule}, valued r = true → ∀ q, Constituent.first? parts r = some q →
      Makes q.one (Whole (Tree.Read T .expression)) := fun hr q hq =>
    value_makes hparts hr (mem_of_first? hq)
  refine (optional_makes _ (hvalue rfl)).bind fun c => ?_
  refine (optional_makes _ (hvalue rfl)).bind fun i => ?_
  refine (body_makes _ fun q hq => hparts q (mem_of_first? hq).1).bind fun b => .pure ?_
  rintro _ ⟨hb, rfl⟩ _ ⟨hi, rfl⟩ _ ⟨hc, rfl⟩
  refine ⟨?_, fun hn hstart => .of_kind hn rfl ?_ ?_⟩
  · simp only [bag_mk, under_append, under_cons, under_nil]
    abel
  · -- All three parts of the head may be missing.
    have hisA := hb.isA
    rcases hstart with rfl | ⟨s, rfl, hs, -⟩ <;> rcases hc with rfl | ⟨c, rfl, hc, -⟩ <;>
      rcases hi with rfl | ⟨i, rfl, hi, -⟩ <;> simp [fills, Kind.slots, *]
  · have hnode := hb.node
    rcases hstart with rfl | ⟨s, rfl, -, hs⟩ <;> rcases hc with rfl | ⟨c, rfl, -, hc⟩ <;>
      rcases hi with rfl | ⟨i, rfl, -, hi⟩ <;> simp [*]

theorem statementForm_makes (f : Form) (t : ParseTree) (hparts : ∀ p ∈ parts, Sound T p) :
    Makes (statementForm f t parts) (Whole fun t => t.Read T .node ∧
      (f = .of .compoundStatement → t.kind.isA .statementList = true)) := by
  have hplain : ∀ {s : Step Log Tree}, (f = .of .compoundStatement → False) →
      Makes s (Whole (Tree.Read T .node)) → Makes s (Whole fun t => t.Read T .node ∧
        (f = .of .compoundStatement → t.kind.isA .statementList = true)) := fun hf hs =>
    hs.weaken fun _ _ ⟨ht, hbag⟩ => ⟨⟨ht, fun h => (hf h).elim⟩, hbag⟩
  have hitem : ∀ p ∈ parts, Makes (do asStatements (← p.build) : Step Log Children)
      fun cs d => (∀ q ∈ cs, q.1 = .statements ∧ q.2.Read T .statement) ∧ d = under cs := by
    intro p hp
    refine (hparts p hp).bind fun ts => (asStatements_makes T ts).weaken ?_
    rintro cs d ⟨hbag, hcs⟩ _ ⟨hts, rfl⟩
    exact ⟨hcs fun t ht => (hts t ht).1, hbag.symm⟩
  unfold statementForm
  split
  · -- a block
    refine (newNode_makes _ _).bind fun n => ?_
    refine (Makes.mapM_all fun p hp => hitem p (mem_of_ofRule hp).1).bind fun items => .pure ?_
    rintro _ ⟨hitems, rfl⟩ _ ⟨⟨id, rfl⟩, rfl⟩
    refine ⟨⟨.of_list rfl rfl rfl fun q hq => ?_, fun _ => rfl⟩, by simp⟩
    obtain ⟨cs, hcs, hq⟩ := mem_flatten.mp hq
    exact hitems cs hcs q hq
  · exact hplain nofun (expressionStatement_makes t hparts)
  · exact hplain nofun (ifStatement_makes t hparts)
  · exact hplain nofun (whileStatement_makes .whileLoop rfl rfl t hparts)
  · exact hplain nofun (whileStatement_makes .doWhileLoop rfl rfl t hparts)
  · -- a loop with a first expression
    refine hplain nofun ((newNode_makes _ _).bind fun n => ?_)
    refine (optional_makes .start fun q hq => value_makes hparts rfl (mem_of_first? hq)).bind
      fun start => (forLoop_makes n start hparts).weaken ?_
    rintro t d ⟨hbag, ht⟩ _ ⟨hstart, rfl⟩ _ ⟨⟨id, rfl⟩, rfl⟩
    exact ⟨(ht rfl hstart).node, by rw [hbag, add_assoc]⟩
  · -- a loop in the block of its declaration
    refine hplain nofun ((newNode_makes _ _).bind fun l => ?_)
    cases hd : Constituent.first? parts .declaration with
    | none => exact .throw
    | some p =>
      refine (hparts p (mem_of_first? hd).1).bind fun ts =>
        (asStatements_makes T ts).bind fun ds => ?_
      refine (newNode_makes _ _).bind fun n => (forLoop_makes n [] hparts).bind fun loop => .pure ?_
      rintro _ ⟨hbag, hloop⟩ _ ⟨⟨id', rfl⟩, rfl⟩ _ ⟨hbags, hds⟩ _ ⟨hts, rfl⟩ _ ⟨⟨id, rfl⟩, rfl⟩
      refine ⟨.of_list rfl rfl rfl fun q hq => ?_, ?_⟩
      · rcases mem_append.mp hq with hq | hq
        · exact hds (fun t ht => (hts t ht).1) q hq
        · rw [mem_singleton.mp hq]
          exact ⟨rfl, hloop rfl (.inl rfl)⟩
      · simp [hbag, hbags, add_assoc]
  · -- a return
    refine hplain nofun ((newNode_makes _ _).bind fun n => ?_)
    refine (optional_makes _ fun q hq => value_makes hparts rfl (mem_of_first? hq)).bind
      fun cs => .pure ?_
    rintro _ ⟨hcs, rfl⟩ _ ⟨⟨id, rfl⟩, rfl⟩
    refine ⟨.of_kind (k := .returnStatement) rfl rfl ?_ ?_, by simp⟩
    · rcases hcs with rfl | ⟨e, rfl, he, -⟩ <;> simp [fills, Kind.slots, *]
    · rcases hcs with rfl | ⟨e, rfl, -, he⟩ <;> simp [*]
  · exact unsupportedForm_makes t

/-! ## Declarations -/

/-- All the trees were read, and hand on the nodes that were made. -/
def ReadAll (T : TokenKind → String → Prop) (ts : List Tree) (d : Multiset NodeId) : Prop :=
  (∀ t ∈ ts, t.Read T .node) ∧ d = bags ts

/-- A declaration that is dropped is an error. -/
theorem dropped_makes (t : ParseTree) (message : String) {P : List Tree → Multiset NodeId → Prop} :
    Makes (dropped t message) P := by
  unfold dropped
  exact .after_error (.pure (P := fun _ _ => True) trivial)

theorem parameterList_makes (h : t.Conforms (Lexed T)) :
    Makes (parameterList t) (Whole (Tree.Read T .argumentDeclList)) := by
  unfold parameterList
  refine (newNode_makes _ _).bind fun n => ?_
  refine (parameters_makes fun l hl => (h.child? hl).1).bind fun cs => .pure ?_
  rintro _ ⟨hcs, rfl⟩ _ ⟨⟨id, rfl⟩, rfl⟩
  exact ⟨.of_list rfl rfl rfl hcs, by simp⟩

/-- A type definition or a variable, from its name and its type. -/
theorem read_typed {k : Kind} {role : Role} {type : Tree} {init : Children}
    (hk : (k = .typedefStatement ∧ role = .aliasedType ∧ init = []) ∨
      (k = .variableDeclaration ∧ role = .declaredType)) (hn : n.kind = k)
    (hm : (n.named name).Alike m) (hname : T .identifier name ∧ isReserved name = false)
    (hinit : AtMost T .initializer init) (htype : type.Read T .typeRef) :
    (mk m ((role, type) :: init)).Read T .node := by
  have hkind : m.kind = k := hm.kind.trans hn
  have hworded : (n.named name).Worded T := by
    rw [Node.Worded, Node.named_kind, hn]
    rcases hk with ⟨rfl, -⟩ | ⟨rfl, -⟩ <;> exact Node.named_of hname
  refine .of_worded rfl ?_ (hworded.congr hm.kind hm.texts) ?_ ?_
  · rw [hkind]
    rcases hk with ⟨rfl, -⟩ | ⟨rfl, -⟩ <;> rfl
  · have hisA := htype.isA
    rw [hkind]
    rcases hk with ⟨rfl, rfl, rfl⟩ | ⟨rfl, rfl⟩
    · simp [fills, Kind.slots, hisA]
    · rcases hinit with rfl | ⟨e, rfl, he, -⟩ <;> simp [fills, Kind.slots, *]
  · have hnode := htype.node
    rcases hinit with rfl | ⟨e, rfl, -, he⟩ <;> simp [*]

theorem read_function {type l : Tree} (hn : n.kind = .functionDecl)
    (hm : (n.named name).Alike m) (hname : T .identifier name ∧ isReserved name = false)
    (htype : type.Read T .typeRef) (hl : l.Read T .argumentDeclList) :
    (mk m [(.returnType, type), (.parameters, l)]).Read T .functionDecl := by
  refine .of_worded (hm.kind.trans hn) rfl (Node.Worded.congr ?_ hm.kind hm.texts) ?_
    (by simp [htype.node, hl.node])
  · rw [Node.Worded, Node.named_kind, hn]
    exact Node.named_of hname
  · simp [fills, Kind.slots, htype.isA, hl.isA]

theorem plainTypedef_makes (t : ParseTree) (specs : Specifiers) :
    Makes (plainTypedef t specs) fun ts d => TypeWords T specs.types → ReadAll T ts d := by
  unfold plainTypedef
  split
  · next last first rest hrev =>
    split
    · exact dropped_makes _ _
    · next newName hnew =>
      have hmem : TypeWords T specs.types → TypeWords T (last :: first :: rest) :=
        fun hwords c hc =>
        hwords c (mem_reverse.mp (hrev ▸ hc))
      refine (newNode_makes _ _).bind fun n =>
        (identifierText_makes (T := fun k w => TypeWords T specs.types → T k w)
          fun tok htok hwords => ?_).bind fun name => ?_
      · exact ((hmem hwords last mem_cons_self).1.child? hnew).1.identifier htok
      refine (baseType_makes T _ _).bind fun type => (addQualifiers_makes _ _).bind fun m => ?_
      refine .pure ?_
      rintro _ ⟨hm, rfl⟩ _ ⟨hread, rfl⟩ _ ⟨hname, rfl⟩ _ ⟨⟨id, rfl⟩, rfl⟩ hwords
      -- the last type is the new name, and the others are what it stands for
      have htype := hread fun c hc => hmem hwords c (mem_cons_of_mem _ (mem_reverse.mp hc))
      refine ⟨forall_mem_singleton.mpr ?_, by simp [hm.id]⟩
      exact read_typed (.inl ⟨rfl, rfl, rfl⟩) rfl hm ⟨hname.1 hwords, hname.2⟩ (.inl rfl) htype
  · exact dropped_makes _ _

/-- One declarator of a declaration: a type definition, a variable or a function. -/
theorem declared_makes (isTypedef : Bool) {item : ParseTree} (specs : Specifiers)
    {initializer : Option Constituent} (hitem : item.Conforms (Lexed T))
    (hinit : ∀ p, initializer = some p → Makes p.one (Whole (Tree.Read T .expression))) :
    Makes (declared isTypedef t item specs initializer) fun ts d =>
      TypeWords T specs.types → ReadAll T ts d := by
  unfold declared
  split
  · exact .throw
  · next declarator hdeclarator =>
    have hparsed := (hitem.child? hdeclarator).1
    split
    · exact .throw
    · next direct hdirect =>
      have hinner := (hparsed.child? hdirect).1
      have hplain : ∀ tok, direct.token? .identifier = some tok → T .identifier tok.text :=
        fun tok => hinner.identifier
      refine (baseType_makes T _ _).bind fun base => ?_
      refine (pointers_makes T (declarator.child? .pointer) base).bind fun type => ?_
      dsimp only
      -- A type definition, a variable, or a function without a body.
      refine .ite (fun _ => ?_) fun _ => .ite (fun _ => ?_) fun hnone => ?_
      · refine (newNode_makes _ _).bind fun n => (identifierText_makes hplain).bind fun name => ?_
        refine (addQualifiers_makes _ _).bind fun m => .pure ?_
        rintro _ ⟨hm, rfl⟩ _ ⟨hname, rfl⟩ _ ⟨⟨id, rfl⟩, rfl⟩ _ ⟨hbag, htype⟩ _ ⟨hbase, rfl⟩ hwords
        have htop := read_typed (.inl ⟨rfl, rfl, rfl⟩) rfl hm hname (.inl rfl)
          (htype (hbase hwords))
        refine ⟨forall_mem_singleton.mpr htop, ?_⟩
        simp only [bags_cons, bags_nil, bag_mk, under_cons, under_nil, hm.id, hbag, Node.named_id,
          Node.blank_id]
        abel
      · refine (newNode_makes _ _).bind fun n => (identifierText_makes hplain).bind fun name => ?_
        refine (optional_makes _ hinit).bind fun init => (addQualifiers_makes _ _).bind fun m =>
          .pure ?_
        rintro _ ⟨hm, rfl⟩ _ ⟨hinit, rfl⟩ _ ⟨hname, rfl⟩ _ ⟨⟨id, rfl⟩, rfl⟩ _ ⟨hbag, htype⟩ _
          ⟨hbase, rfl⟩ hwords
        have htop := read_typed (.inr ⟨rfl, rfl⟩) (n := .blank id _ t.origin) rfl
          ⟨hm.id, hm.kind, hm.texts⟩ hname hinit (htype (hbase hwords))
        refine ⟨forall_mem_singleton.mpr htop, ?_⟩
        simp only [bags_cons, bags_nil, bag_mk, under_cons, hm.id, hbag, Node.named_id,
          Node.blank_id]
        abel
      · split
        · exact dropped_makes _ _
        · next inner hin =>
          split
          · exact dropped_makes _ _
          · next tok htok =>
            have hname : ∀ tok', some tok = some tok' → T .identifier tok'.text := by
              rintro _ ⟨⟩
              exact (hinner.child? hin).1.identifier htok
            refine (newNode_makes _ _).bind fun n =>
              (identifierText_makes hname).bind fun name => ?_
            refine (parameterList_makes hinner).bind fun l =>
              (addQualifiers_makes _ _).bind fun m => ?_
            refine .pure ?_
            rintro _ ⟨hm, rfl⟩ _ ⟨hl, rfl⟩ _ ⟨hname, rfl⟩ _ ⟨⟨id, rfl⟩, rfl⟩ _ ⟨hbag, htype⟩ _
              ⟨hbase, rfl⟩ hwords
            have hread := read_function rfl hm hname (htype (hbase hwords)) hl
            refine ⟨forall_mem_singleton.mpr hread.node, ?_⟩
            simp only [bags_cons, bags_nil, bag_mk, under_cons, under_nil, hm.id, hbag,
              Node.named_id, Node.blank_id]
            abel

theorem declaration_makes (ht : (ParseTree.node (.of .declaration) cs).Conforms (Lexed T))
    (hcs : parts.map Constituent.parse = cs) (hparts : ∀ p ∈ parts, Sound T p) :
    Makes (declaration (.node (.of .declaration) cs) parts) (ReadAll T) := by
  unfold declaration
  refine (specifiers_makes ht).bind fun specs => ?_
  have hend : ∀ {s : Step Log (List Tree)}, Makes s (fun ts d =>
      TypeWords T specs.types → ReadAll T ts d) →
      Makes s fun ts d' => ∀ d, TypeWords T specs.types ∧ d = 0 → ReadAll T ts (d + d') := by
    intro s hs
    refine hs.weaken ?_
    rintro ts d' hts _ ⟨htypes, rfl⟩
    exact (zero_add d').symm ▸ hts htypes
  dsimp only
  split
  · exact .ite (fun _ => hend (plainTypedef_makes _ specs)) fun _ => dropped_makes _ _
  · next list hfirst =>
    obtain ⟨hmem, hrule⟩ := mem_of_first? hfirst
    split
    · next item hitems =>
      have hlist := ht.children _ (hcs ▸ mem_map_of_mem hmem)
      have hitem := (hlist.childrenOf item (hitems ▸ mem_cons_self)).1
      refine hend (declared_makes _ specs hitem fun p hp => ?_)
      -- the initializer is built by the list that it stands in
      obtain ⟨init, _, rfl⟩ := Option.map_eq_some_iff.mp hp
      have hvalue := value_makes hparts rfl (mem_of_first? hfirst)
      exact hvalue
    · exact dropped_makes _ _

/-- A function with its body. -/
theorem functionDefinition_makes (ht : t.Conforms (Lexed T)) (hparts : ∀ p ∈ parts, Sound T p) :
    Makes (functionDefinition t parts) (ReadAll T) := by
  have hblock : Makes (Constituent.need (Constituent.first? parts .compoundStatement))
      (Whole (Tree.Read T .statementList)) := by
    cases h : Constituent.first? parts .compoundStatement with
    | none => exact .throw
    | some p =>
      obtain ⟨hmem, hrule⟩ := mem_of_first? h
      refine (one_makes (hparts p hmem)).weaken ?_
      rintro _ _ ⟨⟨ht, hsuits⟩, hbag⟩
      exact ⟨{ ht with isA := hsuits.of_rule hrule }, hbag⟩
  unfold functionDefinition
  refine .ite (fun _ => dropped_makes _ _) fun _ => ?_
  split
  · exact .throw
  · next declarator hdeclarator =>
    split
    · exact .throw
    · next direct hdirect =>
      have hinner := ((ht.child? hdeclarator).1.child? hdirect).1
      refine .ite (fun _ => dropped_makes _ _) fun hnone => ?_
      split
      · exact .throw
      · next inner hin =>
        split
        · exact dropped_makes _ _
        · next tok htok =>
          -- Every other form of a declarator has been refused.
          have hname : ∀ tok', some tok = some tok' → T .identifier tok'.text := by
            rintro _ ⟨⟩
            exact (hinner.child? hin).1.identifier htok
          refine (newNode_makes _ _).bind fun f => (newNode_makes _ _).bind fun n => ?_
          refine (identifierText_makes hname).bind fun name =>
            (specifiers_makes ht).bind fun specs => ?_
          refine (addQualifiers_makes _ _).bind fun m => (baseType_makes T _ _).bind fun base => ?_
          refine (pointers_makes T (declarator.child? .pointer) base).bind
            fun type => (parameterList_makes hinner).bind fun l => hblock.bind fun body => .pure ?_
          rintro _ ⟨hbody, rfl⟩ _ ⟨hl, rfl⟩ _ ⟨hbag, htype⟩ _ ⟨hbase, rfl⟩ _ ⟨hm, rfl⟩ _
            ⟨htypes, rfl⟩ _ ⟨hname, rfl⟩ _ ⟨⟨id', rfl⟩, rfl⟩ _ ⟨⟨id, rfl⟩, rfl⟩
          have hread := read_function rfl hm hname (htype (hbase htypes)) hl
          refine ⟨forall_mem_singleton.mpr (.of_kind (k := .functionDefinition) rfl rfl ?_
            (by simp [hread.node, hbody.node])), ?_⟩
          · simp [fills, Kind.slots, hread.isA, hbody.isA]
          · simp only [bags_cons, bags_nil, bag_mk, under_cons, under_nil, hm.id, hbag,
              Node.named_id, Node.blank_id]
            abel

theorem directive_makes (ht : t.Conforms (Lexed T)) (hparts : ∀ p ∈ parts, Sound T p) :
    Makes (directive t parts) (ReadAll T) := by
  unfold directive
  split
  · next file hfile =>
    refine (newNode_makes _ _).bind fun n => .pure ?_
    rintro _ ⟨⟨id, rfl⟩, rfl⟩
    refine ⟨forall_mem_singleton.mpr (.of_worded (k := .includeFile) rfl rfl ?_ rfl
      (forall_mem_nil _)), by simp⟩
    intro s hs
    rw [Node.text_setText] at hs
    obtain ⟨tok, htok, rfl⟩ := Option.map_eq_some_iff.mp (Except.ok.inj hs)
    obtain ⟨hP, hk⟩ := (ht.child? hfile).1.token? htok
    exact hk ▸ hP
  · -- The definition of a constant has a name and a value.
    next constant hconstant _ =>
    have hname := (ht.child? hconstant).1
    refine (newNode_makes _ _).bind fun n => ?_
    refine (identifierText_makes fun tok => hname.identifier).bind fun name => ?_
    refine (need_makes hparts rfl).bind fun e => .pure ?_
    rintro _ ⟨he, rfl⟩ _ ⟨hname, rfl⟩ _ ⟨⟨id, rfl⟩, rfl⟩
    refine ⟨forall_mem_singleton.mpr (.of_worded (k := .constantDefine) rfl rfl
      (Node.named_of hname) ?_ (by simpa using he.node)), by simp⟩
    simp [fills, Kind.slots, he.isA]
  · refine (newNode_makes _ _).bind fun n => .pure ?_
    rintro _ ⟨⟨id, rfl⟩, rfl⟩
    exact ⟨forall_mem_singleton.mpr (.of_kind (k := .directive) rfl rfl rfl (forall_mem_nil _)),
      by simp⟩

/-! ## Whole parse trees -/

theorem single_makes {s : Step Log Tree} {P Q : Tree → Prop} (hs : Makes s (Whole P))
    (hPQ : ∀ t, P t → Q t) :
    Makes (do return [← s] : Step Log (List Tree)) fun ts d => (∀ t ∈ ts, Q t) ∧ d = bags ts := by
  refine hs.bind fun t => .pure ?_
  rintro _ ⟨ht, rfl⟩
  exact ⟨forall_mem_singleton.mpr (hPQ t ht), by simp⟩

theorem flatten_makes (hparts : ∀ p ∈ parts, Sound T p) {Q : Tree → Prop} (r : Rule)
    (hQ : ∀ t, t.Read T .node → suits r t.kind = true → Q t) :
    Makes (do return (← (Constituent.ofRule parts r).mapM Constituent.build).flatten :
      Step Log (List Tree)) fun ts d => (∀ t ∈ ts, Q t) ∧ d = bags ts := by
  have hpart : ∀ p ∈ Constituent.ofRule parts r,
      Makes p.build fun ts d => (∀ t ∈ ts, Q t) ∧ d = bags ts := by
    intro p hp
    obtain ⟨hmem, hrule⟩ := mem_of_ofRule hp
    exact (hparts p hmem).weaken fun ts d ⟨hts, hbag⟩ =>
      ⟨fun t ht => hQ t (hts t ht).1 ((hts t ht).2.of_rule hrule), hbag⟩
  refine (Makes.mapM_all hpart).bind fun tss => .pure ?_
  rintro _ ⟨htss, rfl⟩
  refine ⟨fun t ht => ?_, by simp⟩
  obtain ⟨ts, hts, ht⟩ := mem_flatten.mp ht
  exact htss ts hts t ht

theorem suits_named (hf : ∀ r, f = .of r → False) (hr : f.rule ≠ .unaryExpression) (k : Kind) :
    suits f.rule k = true := by
  cases f <;> first
    | exact (hf _ rfl).elim
    | exact absurd rfl hr
    | rfl

/-- Each form of the grammar is constructed from its parts. -/
theorem form_makes (ht : (ParseTree.node f cs).Conforms (Lexed T))
    (hcs : parts.map Constituent.parse = cs)
    (hparts : ∀ p ∈ parts, Sound T p) :
    Makes (form f (.node f cs) parts) fun ts d =>
      (∀ t ∈ ts, t.Read T .node ∧ suits f.rule t.kind = true) ∧ d = bags ts := by
  have hnone : ∀ P : Tree → Prop, Makes (pure [] : Step Log (List Tree))
      fun ts d => (∀ t ∈ ts, P t) ∧ d = bags ts := fun P => .pure ⟨nofun, rfl⟩
  have hvalue : ∀ {r : Rule} {s : Step Log Tree}, (∀ k : Kind, k.isA .expression = true →
      suits r k = true) → Makes s (Whole (Tree.Read T .expression)) → Makes (do return [← s])
      fun ts d => (∀ t ∈ ts, t.Read T .node ∧ suits r t.kind = true) ∧ d = bags ts :=
    fun hr hs => single_makes hs fun t ht => ⟨ht.node, hr _ ht.isA⟩
  -- rules of which nothing is said
  have hplain : ∀ {r : Rule} {s : Step Log (List Tree)}, (∀ k, suits r k = true) →
      Makes s (ReadAll T) → Makes s fun ts d =>
        (∀ t ∈ ts, t.Read T .node ∧ suits r t.kind = true) ∧ d = bags ts :=
    fun hr hs => hs.weaken fun ts d ⟨hts, hbag⟩ => ⟨fun t ht => ⟨hts t ht, hr _⟩, hbag⟩
  have hpart : ∀ p ∈ parts, Makes p.build (ReadAll T) := fun p hp =>
    (hparts p hp).weaken fun ts d ⟨hts, hbag⟩ => ⟨fun t ht => (hts t ht).1, hbag⟩
  unfold form
  dsimp only
  split
  · exact flatten_makes hparts _ fun t ht hk => ⟨ht, hk⟩
  iterate 6
    · exact hvalue (fun k hk => hk) (operatorForm_makes ht hcs hparts)
  iterate 3
    · exact hvalue (fun k hk => hk) (need_makes hparts rfl)
  · split
    · next p hp => exact hvalue (fun k hk => hk) (value_makes hparts rfl (mem_of_first? hp))
    · exact unsupportedForm_makes _
  · split
    · next p hp =>
      obtain ⟨hmem, hrule⟩ := mem_of_first? hp
      exact (hparts p hmem).weaken fun ts d ⟨hts, hbag⟩ =>
        ⟨fun t ht => ⟨(hts t ht).1, (hts t ht).2.isA hrule rfl⟩, hbag⟩
    · exact hnone _
  · exact flatten_makes hparts _ fun t ht hk => ⟨ht, hk⟩
  · split
    · exact hplain (fun _ => rfl) (hpart _ mem_cons_self)
    · exact hnone _
  · split
    · exact hplain (fun _ => rfl) (hpart _ mem_cons_self)
    · exact hnone _
  · exact hplain (fun _ => rfl) (declaration_makes ht hcs hparts)
  · exact hplain (fun _ => rfl) (functionDefinition_makes ht hparts)
  · exact hplain (fun _ => rfl) (directive_makes ht hparts)
  · split
    · exact hplain (fun _ => rfl) (hpart _ mem_cons_self)
    · exact hnone _
  · exact flatten_makes hparts _ fun t ht hk => ⟨ht, hk⟩
  · exact single_makes (statementForm_makes _ _ hparts) fun t ht => ⟨ht.1, ht.2 rfl⟩
  · exact single_makes (statementForm_makes _ _ hparts) fun t ht => ⟨ht.1, rfl⟩
  · exact unsupportedForm_makes _
  · -- what is left are the named alternatives
    have hnamed : ∀ r, f = .of r → False := by assumption
    split
    · next hr =>
      rw [hr]
      exact hvalue (fun k hk => hk) (unaryForm_makes ht hparts)
    · next hr =>
      exact single_makes (statementForm_makes f _ hparts) fun t ht =>
        ⟨ht.1, suits_named hnamed hr _⟩

theorem map_parse_go (cs : List ParseTree) : (build.go cs).map Constituent.parse = cs := by
  induction cs with
  | nil => rfl
  | cons c cs ih => rw [build.go, map_cons, ih]

mutual

/-- What is built for a parse tree was read. -/
theorem build_sound : (t : ParseTree) → t.Conforms (Lexed T) → Sound T ⟨t, build t⟩
  | .leaf _, _ => .pure ⟨nofun, rfl⟩
  | .node f cs, ht => by
    refine (form_makes ht (map_parse_go cs) (build_go_sound cs ht.children)).weaken ?_
    rintro ts d ⟨hts, hbag⟩
    exact ⟨fun t ht => ⟨(hts t ht).1, f.rule, by simp [ParseTree.isRule, ParseTree.rule?],
      (hts t ht).2⟩, hbag⟩

theorem build_go_sound : (cs : List ParseTree) → (∀ c ∈ cs, c.Conforms (Lexed T)) →
    ∀ p ∈ build.go cs, Sound T p
  | [], _ => by simp [build.go]
  | c :: cs, hcs => by
    obtain ⟨hc, hrest⟩ := forall_mem_cons.mp hcs
    exact forall_mem_cons.mpr ⟨build_sound c hc, build_go_sound cs hrest⟩

end

/-- The tree of a text that was parsed. -/
theorem unit_read (name : String) (ht : t.Conforms (Lexed T)) {x x' : Log} {s : Tree}
    (h : unit name t x = .ok s x') :
    s.Read T .pluginSource ∧ x.failed = false ∧ x'.failed = false ∧ x.Grows x' 0 s.bag := by
  unfold unit at h
  obtain ⟨n, x₁, hn, h⟩ := Step.bind_inv h
  obtain ⟨l, x₂, hl, h⟩ := Step.bind_inv h
  obtain ⟨ds, x₃, hds, h⟩ := Step.bind_inv h
  obtain ⟨_, x₄, hcheck, hend⟩ := Step.bind_inv h
  obtain ⟨rfl, hok⟩ := checkStage_inv hcheck
  cases hend
  -- No error at the end means that there was none before, step by step backwards.
  obtain ⟨hok₂, _, hgrows₂, hds, rfl⟩ := (build_sound t ht x₂ ds _ hds).2 hok
  obtain ⟨hok₁, _, hgrows₁, ⟨id', rfl⟩, rfl⟩ := (newNode_makes _ _ x₁ l x₂ hl).2 hok₂
  obtain ⟨hok₀, _, hgrows₀, ⟨id, rfl⟩, rfl⟩ := (newNode_makes _ _ x n x₁ hn).2 hok₁
  have hlist : (mk (.blank id' .declarationList t.origin) (ds.map (Role.declarations, ·))).Read
      T .declarationList := by
    refine .of_list rfl rfl rfl fun q hq => ?_
    obtain ⟨d, hd, rfl⟩ := mem_map.mp hq
    exact ⟨rfl, (hds d hd).1⟩
  refine ⟨.of_kind (k := .pluginSource) rfl rfl ?_ (by simpa using hlist.node), hok₀, hok, ?_⟩
  · simp [fills, Kind.slots, hlist.isA]
  · have hgrows := (hgrows₀.add hgrows₁).add hgrows₂
    refine ⟨hgrows.removed, hgrows.le, Eq.trans ?_ hgrows.has⟩
    simp only [bag_mk, under_cons, under_nil, under_map, Node.blank_id, Node.setText_id]
    abel

end Construction

end Resumable
