import Resumable.Construction.Expressions
import Resumable.Proofs.Forms
import Resumable.Proofs.Holding
import Resumable.Proofs.Naming

/-!
# The words of a syntax tree

The texts that a syntax tree keeps are texts of tokens of the source: names are names that are not
reserved, literals are numbers, and operators are signs.

* `Tree.Worded`: all texts of the tree are texts of tokens, as their kinds ask for.
* `Node.worded_of_wordedBy`: a check for it.
* `text_typeSpecifier`, `signed_of_leaf`: texts that are taken out of a parse tree.
-/

namespace Resumable

open List

variable {n : Node} {t : ParseTree} {cs : List ParseTree} {r : Rule}
  {words : List (TokenKind × String)} {s : String} {tok : Token}

/-! ## Nodes and their words -/

theorem Node.name?_blank (id : NodeId) (k : Kind) (o : Origin) :
    (Node.blank id k o).name? = none := by
  have h : ∀ ks : List TextKey,
      ((ks.map fun k => (k, (none : Option String))).lookup .name).join = none := by
    intro ks
    induction ks with
    | nil => rfl
    | cons k ks ih =>
      rw [map_cons, lookup_cons]
      split
      · rfl
      · exact ih
  exact h k.texts

/-- Kinds of nodes of a text whose texts are not spoken of. -/
def Kind.wordless (k : Kind) : Bool :=
  k ∈ [.addressOf, .argumentDeclList, .argumentList, .assignment, .callStatement, .cast,
    .conditional, .declarationList, .dereference, .directive, .doWhileLoop, .errorExpression,
    .expressionStatement, .forLoop, .functionDefinition, .ifElse, .index, .invalidType, .nop,
    .pluginSource, .pointerType, .returnStatement, .statementList, .whileLoop]

section

variable (T : TokenKind → String → Prop)

/-- The name is the text of an identifier and not reserved. -/
def Node.Named (n : Node) : Prop :=
  ∃ s, n.text .name = .ok (some s) ∧ T .identifier s ∧ isReserved s = false

/-- The operator is written as one of the signs. -/
def Node.Signed (n : Node) (signs : List Punct) (written : String → String) : Prop :=
  ∃ p ∈ signs, ∃ s, T (.punct p) s ∧ n.text .operator = .ok (some (written s))

/-- A node is one of a text, and its texts are those of tokens of the right kind. -/
def Node.Worded (n : Node) : Prop :=
  match n.kind with
  | .variableUse | .call | .memberAccess | .variableDeclaration | .functionDecl
  | .constantDefine | .typedefStatement => n.Named T
  | .argumentDecl => n.name? = none ∨ n.Named T
  | .simpleType => ∃ s, n.text .name = .ok (some s) ∧
      (T .identifier s ∨ ∃ k ∈ Grammar.typeWords, T (.keyword k) s)
  | .integerLiteral => ∃ s, n.text .literal = .ok (some s) ∧ T .integerConstant s
  | .binaryOperator => ∃ s ∈ Construction.binaryOperators, n.text .operator = .ok (some s)
  | .memberBinary => n.Signed T Grammar.assignments fun s => s
  | .unary =>
    n.Signed T [.plusPlus, .minusMinus, .and, .star, .plus, .minus, .tilde, .not] fun s => s
  | .postUnary => n.Signed T [.plusPlus, .minusMinus] ("post" ++ ·)
  | .includeFile => ∀ s, n.text .fileName = .ok (some s) → T .stringLiteral s
  | k => k.wordless = true

/-- All nodes of the tree have words of the text. -/
def Tree.Worded (t : Tree) : Prop := ∀ s ∈ t.subtrees, s.node.Worded T

end

variable {T : TokenKind → String → Prop}

namespace Node

/-- Nodes of many kinds have no words. -/
theorem worded_of_wordless {k : Kind} (hn : n.kind = k) (h : k.wordless = true) : n.Worded T := by
  subst hn
  unfold Worded
  split <;> first
    | exact h
    | (rename_i heq; rw [heq] at h; cases h)

theorem Worded.congr {m : Node} (h : n.Worded T) (hk : m.kind = n.kind) (ht : m.texts = n.texts) :
    m.Worded T := by
  have htext : ∀ k, m.text k = n.text k := fun k => by rw [Node.text, Node.text, ht]
  have hname : m.name? = n.name? := by rw [Node.name?, Node.name?, ht]
  unfold Worded Signed Named at *
  rw [hk]
  simpa only [htext, hname] using h

end Node

namespace Tree

theorem worded_mk {cs : Children} :
    (mk n cs).Worded T ↔ n.Worded T ∧ ∀ p ∈ cs, p.2.Worded T := by
  simp only [Worded, mem_subtrees_mk]
  constructor
  · intro h
    exact ⟨h _ (.inl rfl), fun p hp s hs => h s (.inr ⟨p, hp, hs⟩)⟩
  · rintro ⟨hn, hcs⟩ s (rfl | ⟨p, hp, hs⟩)
    · exact hn
    · exact hcs p hp s hs

end Tree

/-! ## Checking -/

/-- Whether a text of the node is one of the words. -/
def Node.spelledBy (n : Node) (key : TextKey) (words : List String) : Bool :=
  match n.text key with
  | .ok (some s) => words.contains s
  | _ => false

/-- The words of a kind. -/
def wordsOf (words : List (TokenKind × String)) (k : TokenKind) : List String :=
  (words.filter (·.1 == k)).map (·.2)

/-- Whether the texts of a node are among the words. -/
def Node.wordedBy (words : List (TokenKind × String)) (n : Node) : Bool :=
  let names := (wordsOf words .identifier).filter (!isReserved ·)
  let signs (ps : List Punct) := ps.flatMap fun p => wordsOf words (.punct p)
  match n.kind with
  | .variableUse | .call | .memberAccess | .variableDeclaration | .functionDecl
  | .constantDefine | .typedefStatement => n.spelledBy .name names
  | .argumentDecl => n.name?.isNone || n.spelledBy .name names
  | .simpleType => n.spelledBy .name (wordsOf words .identifier ++
      Grammar.typeWords.flatMap fun k => wordsOf words (.keyword k))
  | .integerLiteral => n.spelledBy .literal (wordsOf words .integerConstant)
  | .binaryOperator => n.spelledBy .operator Construction.binaryOperators
  | .memberBinary => n.spelledBy .operator (signs Grammar.assignments)
  | .unary => n.spelledBy .operator
      (signs [.plusPlus, .minusMinus, .and, .star, .plus, .minus, .tilde, .not])
  | .postUnary => n.spelledBy .operator ((signs [.plusPlus, .minusMinus]).map ("post" ++ ·))
  | .includeFile => n.spelledBy .fileName (wordsOf words .stringLiteral)
  | k => k.wordless

theorem Node.spelledBy_iff {key : TextKey} {words : List String} :
    n.spelledBy key words = true ↔ ∃ s ∈ words, n.text key = .ok (some s) := by
  unfold spelledBy
  split
  · next s hs => simp [hs]
  · next hs =>
    simp only [Bool.false_eq_true, false_iff, not_exists, not_and]
    exact fun s _ h => hs s h

theorem mem_wordsOf {k : TokenKind} : s ∈ wordsOf words k ↔ (k, s) ∈ words := by
  simp [wordsOf]

/-- A node that passes the check has words of the text. -/
theorem Node.worded_of_wordedBy (hT : ∀ w ∈ words, T w.1 w.2) (h : n.wordedBy words = true) :
    n.Worded T := by
  have hword : ∀ {k s}, s ∈ wordsOf words k → T k s := fun hs => hT _ (mem_wordsOf.mp hs)
  have hnamed : n.spelledBy .name ((wordsOf words .identifier).filter (!isReserved ·)) = true →
      n.Named T := by
    intro h
    obtain ⟨s, hs, htext⟩ := spelledBy_iff.mp h
    obtain ⟨hs, hfree⟩ := mem_filter.mp hs
    exact ⟨s, htext, hword hs, by simpa using hfree⟩
  have hsigned : ∀ (ps : List Punct) (written : String → String), n.spelledBy .operator
      ((ps.flatMap fun p => wordsOf words (.punct p)).map written) = true →
        n.Signed T ps written := by
    intro ps written h
    obtain ⟨_, hmem, htext⟩ := spelledBy_iff.mp h
    obtain ⟨s, hmem', rfl⟩ := mem_map.mp hmem
    obtain ⟨p, hp, hs⟩ := mem_flatMap.mp hmem'
    exact ⟨p, hp, s, hword hs, htext⟩
  unfold wordedBy at h
  unfold Worded
  dsimp only at h
  split at h
  -- A parameter may do without a name.
  case h_8 => exact ((Bool.or_eq_true _ _).mp h).imp (by simp) hnamed
  case h_9 =>
    obtain ⟨s, hs, htext⟩ := spelledBy_iff.mp h
    refine ⟨s, htext, (mem_append.mp hs).imp hword fun hs => ?_⟩
    obtain ⟨k, hk, hs⟩ := mem_flatMap.mp hs
    exact ⟨k, hk, hword hs⟩
  case h_10 =>
    obtain ⟨s, hs, htext⟩ := spelledBy_iff.mp h
    exact ⟨s, htext, hword hs⟩
  case h_11 => exact spelledBy_iff.mp h
  case h_12 => exact hsigned _ (fun s => s) (by simpa using h)
  case h_13 => exact hsigned _ (fun s => s) (by simpa using h)
  case h_14 => exact hsigned _ _ h
  case h_15 =>
    intro s hs
    obtain ⟨s', hs', htext⟩ := spelledBy_iff.mp h
    rw [hs] at htext
    cases htext
    exact hword hs'
  case h_16 => exact h
  all_goals exact hnamed h

/-- Whether the texts of all nodes of a tree are those of some words. -/
def Tree.wordedBy (words : List (TokenKind × String)) (t : Tree) : Bool :=
  t.subtrees.all (·.node.wordedBy words)

theorem Tree.worded_of_wordedBy (words : List (TokenKind × String)) {t : Tree}
    (hT : ∀ w ∈ words, T w.1 w.2) (h : t.wordedBy words = true) : t.Worded T := fun s hs =>
  Node.worded_of_wordedBy hT (all_eq_true.mp h s hs)

/-! ## Words in a parse tree -/

/-- The text of the token is one of its kind. -/
def Lexed (T : TokenKind → String → Prop) (tok : Token) : Prop := T tok.kind tok.text

theorem ParseTree.Conforms.identifier (h : t.Conforms (Lexed T))
    (htok : t.token? .identifier = some tok) : T .identifier tok.text := by
  obtain ⟨hP, hkind⟩ := h.token? htok
  exact hkind ▸ hP

theorem Node.named_of (h : T .identifier s ∧ isReserved s = false) : (n.named s).Named T :=
  ⟨s, n.text_setText _ _, h⟩

theorem text_typeSpecifier {spec : ParseTree} (h : spec.Conforms (Lexed T))
    (hrule : spec.isRule .typeSpecifier = true)
    (hstruct : (spec.child? .structOrUnionSpecifier).isSome = false)
    (henum : (spec.child? .enumSpecifier).isSome = false) :
    T .identifier spec.text ∨ ∃ k ∈ Grammar.typeWords, T (.keyword k) spec.text := by
  rw [ParseTree.eq_of_isRule hrule fun f hf => Form.eq_of_rule hf (by simp)] at h hstruct henum ⊢
  generalize spec.children = cs at *
  have hcs := h.children
  -- A keyword, or a specifier of its own: only the name of a `typedef` is left.
  rcases Form.allows_typeSpecifier h.allows with ⟨k, hk, tok, rfl, htok⟩ | ⟨c, rfl, hc⟩
  · refine .inr ⟨k, hk, ?_⟩
    cases hcs _ mem_cons_self with
    | leaf hP =>
      rw [Lexed, htok] at hP
      simpa [ParseTree.text, ParseTree.tokens, ParseTree.tokens.go, String.join] using hP
  · rcases hc with hc | hc | hc
    · simp [ParseTree.child?, ParseTree.children, hc] at hstruct
    · simp [ParseTree.child?, ParseTree.children, hc] at henum
    · have hconf := hcs _ mem_cons_self
      rw [ParseTree.eq_of_isRule hc fun f hf => Form.eq_of_rule hf (by simp)] at hconf ⊢
      generalize c.children = ds at *
      obtain ⟨tok, rfl, htok⟩ := Form.allows_typedefName hconf.allows
      cases hconf.children _ mem_cons_self with
      | leaf hP =>
        rw [Lexed, htok] at hP
        refine .inl ?_
        simpa [ParseTree.text, ParseTree.tokens, ParseTree.tokens.go, String.join] using hP

theorem signed_of_leaf (ht : t.Conforms (Lexed T)) {i : Nat}
    (htok : t.children[i]? = some (.leaf tok)) {signs : List Punct}
    (hsign : ∃ p ∈ signs, tok.kind = .punct p) (written : String → String) :
    (n.setText .operator (some (written (Construction.textAt t i)))).Signed T signs written := by
  obtain ⟨p, hp, hkind⟩ := hsign
  have htext : Construction.textAt t i = tok.text := by simp [Construction.textAt, htok]
  cases ht.children _ (mem_of_getElem? htok) with
  | leaf hP =>
    rw [Lexed, hkind] at hP
    exact ⟨p, hp, tok.text, hP, by rw [htext, n.text_setText]⟩

end Resumable
