import Resumable.Construction.Constituent
import Resumable.Proofs.Derivation

/-!
# The children of a node, form by form

What the grammar says of the children of a node is read off the bodies of its form, once for each
form of expressions and of type names.

* `Form.allows_assignment`, `Form.allows_unaryOperator`: the children of expressions.
* `Form.allows_typeSpecifier`: the words of a type.
-/

namespace Resumable

open List

variable {r : Rule} {f : Form} {k : TokenKind}

/-! ## Bodies -/

namespace Body

variable {a b : Body} {ts : List ParseTree}

@[simp] theorem derives_token : (Body.token k).Derives ts ↔ ∃ t, ts = [.leaf t] ∧ t.kind = k := by
  constructor
  · rintro (_ | ⟨h⟩)
    exact ⟨_, rfl, h⟩
  · rintro ⟨t, rfl, h⟩
    exact .token h

@[simp] theorem derives_rule {level : Nat} :
    (Body.rule r level).Derives ts ↔ ∃ t, ts = [t] ∧ t.isRule r = true := by
  constructor
  · rintro (_ | _ | ⟨h⟩)
    exact ⟨_, rfl, h⟩
  · rintro ⟨t, rfl, h⟩
    exact .rule h

@[simp] theorem derives_seq :
    (Body.seq a b).Derives ts ↔ ∃ us vs, ts = us ++ vs ∧ a.Derives us ∧ b.Derives vs := by
  constructor
  · rintro (_ | _ | _ | ⟨ha, hb⟩)
    exact ⟨_, _, rfl, ha, hb⟩
  · rintro ⟨us, vs, rfl, ha, hb⟩
    exact .seq ha hb

@[simp] theorem derives_alt : (Body.alt a b).Derives ts ↔ a.Derives ts ∨ b.Derives ts := by
  constructor
  · rintro (_ | _ | _ | _ | h | h)
    · exact Or.inl h
    · exact Or.inr h
  · rintro (h | h)
    · exact .altLeft h
    · exact .altRight h

/-- One of several tokens. -/
theorem derives_any {α : Type} (kind : α → TokenKind) {xs : List α} (h : xs ≠ []) :
    (Body.any (xs.map fun x => .token (kind x))).Derives ts ↔
      ∃ x ∈ xs, ∃ t, ts = [.leaf t] ∧ t.kind = kind x := by
  induction xs with
  | nil => exact absurd rfl h
  | cons x xs ih =>
    cases xs with
    | nil => simp [Body.any]
    | cons y ys =>
      have hrest := ih (by simp)
      rw [map_cons] at hrest
      rw [map_cons, map_cons, Body.any, derives_alt, derives_token, hrest]
      · constructor
        · rintro (hx | ⟨z, hz, ht⟩)
          · exact ⟨x, mem_cons_self, hx⟩
          · exact ⟨z, mem_cons_of_mem _ hz, ht⟩
        · rintro ⟨z, hz, ht⟩
          rcases mem_cons.mp hz with rfl | hz
          · exact Or.inl ht
          · exact Or.inr ⟨z, hz, ht⟩
      · simp

theorem derives_oneOf {ps : List Punct} (h : ps ≠ []) :
    (Grammar.oneOf ps).Derives ts ↔ ∃ p ∈ ps, ∃ t, ts = [.leaf t] ∧ t.kind = .punct p :=
  derives_any .punct h

theorem derives_wordOf {ks : List Keyword} (h : ks ≠ []) :
    (Grammar.wordOf ks).Derives ts ↔ ∃ k ∈ ks, ∃ t, ts = [.leaf t] ∧ t.kind = .keyword k :=
  derives_any .keyword h

end Body

/-! ## Parts of a node -/

namespace ParseTree

variable {P : Token → Prop} {t c : ParseTree}

theorem Conforms.children (h : t.Conforms P) : ∀ c ∈ t.children, c.Conforms P := by
  cases h with
  | leaf h => nofun
  | node hf hcs => exact hcs

theorem Conforms.child? (h : t.Conforms P) (hc : t.child? r = some c) :
    c.Conforms P ∧ c.isRule r = true :=
  ⟨h.children c (mem_of_find?_eq_some hc), find?_some hc⟩

theorem Conforms.childrenOf (h : t.Conforms P) :
    ∀ c ∈ t.childrenOf r, c.Conforms P ∧ c.isRule r = true := by
  intro c hc
  obtain ⟨hmem, hrule⟩ := mem_filter.mp hc
  exact ⟨h.children c hmem, hrule⟩

/-- A token of a conforming tree. -/
theorem Conforms.token? (h : t.Conforms P) {tok : Token} (htok : t.token? k = some tok) :
    P tok ∧ tok.kind = k := by
  obtain ⟨c, hc, hsome⟩ := exists_of_findSome?_eq_some htok
  cases c with
  | node f cs => cases hsome
  | leaf tok' =>
    rw [Option.ite_none_right_eq_some] at hsome
    obtain ⟨hkind, ⟨⟩⟩ := hsome
    cases h.children _ hc with
    | leaf hP => exact ⟨hP, eq_of_beq hkind⟩

/-- The tree of a rule with one form. -/
theorem eq_of_isRule (h : t.isRule r = true) (hr : ∀ f : Form, f.rule = r → f = .of r) :
    t = .node (.of r) t.children := by
  cases t with
  | leaf tok => cases h
  | node f cs =>
    have hf : f.rule = r := by simpa [isRule, rule?] using h
    rw [hr f hf]
    rfl

theorem Conforms.allows {cs : List ParseTree} (h : (ParseTree.node f cs).Conforms P) :
    f.Allows cs := by
  cases h with
  | node hf hcs => exact hf

@[simp] theorem text_leaf (tok : Token) : (leaf tok).text = tok.text := by
  simp [text, tokens, String.join]

end ParseTree

/-! ## Expressions -/

namespace Form

open ParseTree Body

variable {cs : List ParseTree}

theorem derives_of_allows {b : Body} (hb : f.bodies = [b]) (h : f.Allows cs) : b.Derives cs := by
  obtain ⟨b', hb', hd⟩ := h
  rw [hb, mem_singleton] at hb'
  exact hb' ▸ hd

theorem allows_integerLiteral (h : Form.integerLiteralExpression.Allows cs) :
    ∃ tok, cs = [.leaf tok] ∧ tok.kind = .integerConstant :=
  derives_token.mp (derives_of_allows rfl h)

/-- A sign and an operand. -/
theorem allows_preIncrement (h : Form.preIncrementExpression.Allows cs) :
    ∃ tok e, cs = [.leaf tok, e] ∧
      (∃ p ∈ [Punct.plusPlus, .minusMinus], tok.kind = .punct p) ∧
      e.isRule .unaryExpression = true := by
  obtain ⟨us, vs, rfl, hus, hvs⟩ := derives_seq.mp (derives_of_allows rfl h)
  obtain ⟨p, hp, tok, rfl, hk⟩ := (derives_oneOf (by simp)).mp hus
  obtain ⟨e, rfl, he⟩ := derives_rule.mp hvs
  exact ⟨tok, e, rfl, ⟨p, hp, hk⟩, he⟩

theorem allows_unaryOperator (h : Form.unaryOperatorExpression.Allows cs) :
    ∃ tok e, cs = [.leaf tok, e] ∧
      (∃ p ∈ [Punct.and, .star, .plus, .minus, .tilde, .not], tok.kind = .punct p) ∧
      e.isRule .castExpression = true := by
  obtain ⟨us, vs, rfl, hus, hvs⟩ := derives_seq.mp (derives_of_allows rfl h)
  obtain ⟨p, hp, tok, rfl, hk⟩ := (derives_oneOf (by simp)).mp hus
  obtain ⟨e, rfl, he⟩ := derives_rule.mp hvs
  exact ⟨tok, e, rfl, ⟨p, hp, hk⟩, he⟩

theorem allows_postIncrement (h : Form.postIncrementExpression.Allows cs) :
    ∃ e tok, cs = [e, .leaf tok] ∧ e.isRule .unaryExpression = true ∧
      ∃ p ∈ [Punct.plusPlus, .minusMinus], tok.kind = .punct p := by
  obtain ⟨us, vs, rfl, hus, hvs⟩ := derives_seq.mp (derives_of_allows rfl h)
  obtain ⟨e, rfl, he⟩ := derives_rule.mp hus
  obtain ⟨p, hp, tok, rfl, hk⟩ := (derives_oneOf (by simp)).mp hvs
  exact ⟨e, tok, rfl, he, p, hp, hk⟩

/-- An expression, or a target, a sign and a value. -/
theorem allows_assignment (h : (Form.of .assignmentExpression).Allows cs) :
    (∃ e, cs = [e] ∧ e.isRule .conditionalExpression = true) ∨
      ∃ l tok r, cs = [l, .leaf tok, r] ∧ l.isRule .unaryExpression = true ∧
        (∃ p ∈ Grammar.assignments, tok.kind = .punct p) ∧
        r.isRule .assignmentExpression = true := by
  obtain ⟨b, hb, hd⟩ := h
  rw [show Form.bodies (.of .assignmentExpression) = [Grammar.ref .conditionalExpression,
    .seq (Grammar.ref .unaryExpression)
      (.seq (Grammar.oneOf Grammar.assignments) (Grammar.ref .assignmentExpression))] from
      rfl] at hb
  simp only [mem_cons, not_mem_nil, or_false] at hb
  rcases hb with rfl | rfl
  · exact Or.inl (derives_rule.mp hd)
  · obtain ⟨us, _, rfl, hus, hrest⟩ := derives_seq.mp hd
    obtain ⟨vs, ws, rfl, hvs, hws⟩ := derives_seq.mp hrest
    obtain ⟨l, rfl, hl⟩ := derives_rule.mp hus
    obtain ⟨p, hp, tok, rfl, hk⟩ := (derives_oneOf (by decide)).mp hvs
    obtain ⟨r, rfl, hr⟩ := derives_rule.mp hws
    exact Or.inr ⟨l, tok, r, rfl, hl, ⟨p, hp, hk⟩, hr⟩

/-! ## Types -/

theorem eq_of_rule (h : f.rule = r)
    (hr : r ∈ [Rule.typeSpecifier, .typedefName, .declarationSpecifier, .parameterDeclaration]) :
    f = .of r := by
  simp only [mem_cons, not_mem_nil, or_false] at hr
  rcases hr with rfl | rfl | rfl | rfl <;> cases f <;> first
    | (cases h; done)
    | exact congrArg _ h

theorem allows_typedefName (h : (Form.of .typedefName).Allows cs) :
    ∃ tok, cs = [.leaf tok] ∧ tok.kind = .identifier :=
  derives_token.mp (derives_of_allows rfl h)

/-- A word of the language, or a name for a type. -/
theorem allows_typeSpecifier (h : (Form.of .typeSpecifier).Allows cs) :
    (∃ k ∈ Grammar.typeWords, ∃ tok, cs = [.leaf tok] ∧ tok.kind = .keyword k) ∨
      ∃ c, cs = [c] ∧ (c.isRule .structOrUnionSpecifier = true ∨ c.isRule .enumSpecifier = true ∨
        c.isRule .typedefName = true) := by
  obtain ⟨b, hb, hd⟩ := h
  rw [show Form.bodies (.of .typeSpecifier) = [Grammar.wordOf Grammar.typeWords,
    Grammar.ref .structOrUnionSpecifier, Grammar.ref .enumSpecifier, Grammar.ref .typedefName]
    from rfl] at hb
  simp only [mem_cons, not_mem_nil, or_false] at hb
  rcases hb with rfl | rfl | rfl | rfl
  · exact Or.inl ((derives_wordOf (by decide)).mp hd)
  · obtain ⟨c, rfl, hc⟩ := derives_rule.mp hd
    exact Or.inr ⟨c, rfl, .inl hc⟩
  · obtain ⟨c, rfl, hc⟩ := derives_rule.mp hd
    exact Or.inr ⟨c, rfl, .inr (.inl hc)⟩
  · obtain ⟨c, rfl, hc⟩ := derives_rule.mp hd
    exact Or.inr ⟨c, rfl, .inr (.inr hc)⟩

end Form

end Resumable
