import Resumable.Printing
import Resumable.Proofs.Holding
import Resumable.Proofs.Naming

/-!
# The pieces of types and expressions

Names, operators and literals have no colon and no question mark in them. So the only colons in a
type or an expression are those of conditional expressions, which come behind question marks.
Besides its own texts, a tree is printed with the names of what it links to, and with nothing else
of these.

* `Printing.plainPieces_bare`: an expression is printed without a colon in front of all question
  marks.
* `Printing.plainPieces_type`: so is a type.
-/

namespace Resumable

open List Text

variable {n : Node} {ps : List String} {t d : Tree} {cs : Children} {k : TextKey} {s : String}
  {r : Role} {α : Type}

/-- Whether there are no signs in the texts of a node. -/
def Node.spelled (n : Node) : Bool := n.texts.all fun p => p.2.all signless

/-- Whether there are no signs in the texts of a tree. -/
def Tree.spelled : Tree → Bool
  | mk n cs => n.spelled && go cs
where
  go : Children → Bool
    | [] => true
    | (_, t) :: rest => t.spelled && go rest

theorem Tree.spelled_go_iff : spelled.go cs = true ↔ ∀ p ∈ cs, p.2.spelled = true :=
  go_iff rfl fun _ _ => rfl

theorem Tree.spelled_child {c : Tree} (ht : t.spelled = true) (hc : t.child? r = some c) :
    c.spelled = true := by
  obtain ⟨n, cs⟩ := t
  rw [spelled, Bool.and_eq_true, spelled_go_iff] at ht
  obtain ⟨l₁, l₂, hl, -⟩ := lookup_eq_some_iff.mp hc
  exact ht.2 (r, c) (by rw [show cs = _ from hl]; simp)

theorem Tree.spelled_iff :
    (mk n cs).spelled = true ↔ n.spelled = true ∧ ∀ p ∈ cs, p.2.spelled = true := by
  rw [spelled, Bool.and_eq_true, spelled_go_iff]

theorem Tree.spelled_node (ht : t.spelled = true) : t.node.spelled = true := by
  obtain ⟨n, cs⟩ := t
  exact (spelled_iff.mp ht).1

theorem Tree.spelled_iff_subtrees :
    t.spelled = true ↔ ∀ s ∈ t.subtrees, s.node.spelled = true := by
  induction t using ofChildren with
  | step n cs ih =>
    rw [spelled_iff]
    constructor
    · rintro ⟨hn, hcs⟩ s hs
      rcases mem_subtrees_mk.mp hs with rfl | ⟨p, hp, hs⟩
      · exact hn
      · exact (ih p hp).mp (hcs p hp) s hs
    · intro h
      exact ⟨h _ (mem_subtrees_self _), fun p hp => (ih p hp).mpr fun s hs =>
        h s (mem_subtrees_mk.mpr (.inr ⟨p, hp, hs⟩))⟩

theorem Node.signless_of_text (hn : n.spelled = true) (h : n.text k = .ok (some s)) :
    signless s = true := by
  have hmem : ∀ {l : List (TextKey × Option String)}, l.all (fun p => p.2.all signless) = true →
      l.lookup k = some (some s) → signless s = true := by
    intro l
    induction l with
    | nil => intro _ h; cases h
    | cons p l ih =>
      obtain ⟨k', s'⟩ := p
      intro hall hl
      rw [all_cons, Bool.and_eq_true] at hall
      rw [lookup_cons] at hl
      split at hl
      · cases hl
        exact hall.1
      · exact ih hall.2 hl
  unfold text at h
  cases hl : n.texts.lookup k with
  | none =>
    rw [hl] at h
    cases h
  | some s' =>
    rw [hl] at h
    cases h
    exact hmem hn hl

theorem Node.signless_of_name (hn : n.spelled = true) (h : n.name? = some s) :
    signless s = true := by
  refine signless_of_text (k := .name) hn ?_
  unfold name? at h
  unfold text
  cases hl : n.texts.lookup .name with
  | none =>
    rw [hl] at h
    cases h
  | some o =>
    rw [hl] at h
    rw [show o = some s from h]

theorem Node.signless_shown {o : Option String} (hn : n.spelled = true) (h : n.text k = .ok o) :
    signless (Tree.shown o) = true := by
  cases o with
  | none => rfl
  | some s => exact signless_of_text hn h

/-! ## Names behind links -/

/-- Whether there are no signs in the name of a node. -/
def Node.wellNamed (n : Node) : Bool := n.name?.all signless

/-- What a node links to, of the trees that are known. -/
def Node.linkedTo (index : IdMap Tree) (n : Node) : List Tree :=
  n.links.filterMap fun l => l.2.bind index.get?

theorem Node.mem_linkedTo {index : IdMap Tree} {k : LinkKey} {id : NodeId}
    (h : n.link? k = some id) (hd : index.get? id = some d) : d ∈ n.linkedTo index := by
  obtain ⟨xs, ys, hlinks, -⟩ := lookup_eq_some_iff.mp (Option.join_eq_some_iff.mp h)
  refine mem_filterMap.mpr ⟨(k, some id), ?_, hd⟩
  rw [hlinks]
  exact mem_append_right _ mem_cons_self

/-- Whether the names of all that a node links to are without signs. -/
def Node.namesIn (index : IdMap Tree) (n : Node) : Bool :=
  (n.linkedTo index).all (·.node.wellNamed)

/-- Whether the names of all that a tree links to are without signs. -/
def Tree.namesIn (index : IdMap Tree) (t : Tree) : Bool :=
  t.subtrees.all (·.node.namesIn index)

/-- A tree has no signs in its texts, nor in the names of what it links to. -/
structure Tree.SpelledIn (index : IdMap Tree) (t : Tree) : Prop where
  texts : t.spelled = true
  names : t.namesIn index = true

namespace Tree.SpelledIn

variable {index : IdMap Tree}

theorem node (h : t.SpelledIn index) : t.node.spelled = true ∧ t.node.namesIn index = true :=
  ⟨spelled_node h.texts, all_eq_true.mp h.names t (mem_subtrees_self t)⟩

theorem part {p : Role × Tree} (h : (Tree.mk n cs).SpelledIn index) (hp : p ∈ cs) :
    p.2.SpelledIn index where
  texts := (spelled_iff.mp h.texts).2 p hp
  names := all_eq_true.mpr fun s hs =>
    all_eq_true.mp h.names s (mem_subtrees_trans hs (mem_subtrees_child (t := .mk n cs) hp))

theorem child {c : Tree} (h : t.SpelledIn index) (hc : t.child? r = some c) :
    c.SpelledIn index := by
  obtain ⟨n, cs⟩ := t
  obtain ⟨l₁, l₂, hl, -⟩ := lookup_eq_some_iff.mp hc
  exact h.part (p := (r, c)) (by rw [show cs = _ from hl]; simp)

end Tree.SpelledIn

/-! ## Pieces of types and expressions -/

namespace Printing

variable {args : List Pieces} {x : Pieces}

/-- Pieces that are plain next to each other, if there are any. -/
def PlainPieces (x : Pieces) : Prop :=
  ∀ ps, x = .ok ps → plainChars (ps.flatMap String.toList) = true

theorem plainPieces_bind {x : Except Unprintable α} {f : α → Pieces}
    (hf : ∀ a, x = .ok a → PlainPieces (f a)) : PlainPieces (x >>= f) := by
  cases x with
  | error e =>
    intro ps h
    cases h
  | ok a => exact hf a rfl

theorem plainPieces_error (e : Unprintable) : PlainPieces (.error e) := nofun

theorem plainPieces_ok (h : plainChars (ps.flatMap String.toList) = true) :
    PlainPieces (.ok ps) := by
  intro qs hq
  cases hq
  exact h

theorem plain_append {qs : List String} (hp : plainChars (ps.flatMap String.toList) = true)
    (hq : plainChars (qs.flatMap String.toList) = true) :
    plainChars ((ps ++ qs).flatMap String.toList) = true := by
  rw [flatMap_append]
  exact plainChars_append hp hq

theorem plain_single (h : plain s = true) : plainChars ([s].flatMap String.toList) = true := by
  rw [flatMap_singleton]
  exact h

theorem lift_inv {x : Except Fault α} {a : α} (h : lift x = .ok a) : x = .ok a := by
  cases x with
  | ok b =>
    cases h
    rfl
  | error e => cases h

theorem plain_cons (hs : plain s = true) (hp : plainChars (ps.flatMap String.toList) = true) :
    plainChars ((s :: ps).flatMap String.toList) = true :=
  plain_append (plain_single hs) hp

theorem textOf_inv (hn : n.spelled = true) (h : textOf n k = .ok ps) :
    ∃ s, ps = [s] ∧ signless s = true := by
  unfold textOf at h
  cases ht : n.text k with
  | error e =>
    rw [ht] at h
    cases h
  | ok o =>
    rw [ht] at h
    cases o with
    | none => cases h
    | some s =>
      cases h
      exact ⟨s, rfl, Node.signless_of_text hn ht⟩

theorem plainPieces_textOf (hn : n.spelled = true) : PlainPieces (textOf n k) := by
  intro ps h
  obtain ⟨s, rfl, hs⟩ := textOf_inv hn h
  exact plain_single (plain_of_signless hs)

theorem signless_shownName {o : Option String} (hn : n.wellNamed = true)
    (h : n.text .name = .ok o) : signless (Tree.shown o) = true := by
  rw [Node.wellNamed, Node.name?_of_text h] at hn
  cases o with
  | none => rfl
  | some s => exact hn

theorem plainPieces_name (hn : n.wellNamed = true) : PlainPieces (textOf n .name) := by
  intro ps h
  unfold textOf at h
  cases ht : n.text .name with
  | error e =>
    rw [ht] at h
    cases h
  | ok o =>
    rw [ht] at h
    cases o with
    | none => cases h
    | some s =>
      cases h
      exact plain_single (plain_of_signless (signless_shownName hn ht))

variable {p : Printing}

/-- What a node links to has a name without signs. -/
theorem wellNamed_target {k : LinkKey} (hn : n.namesIn p.index = true)
    (h : p.target n k = some d) : d.node.wellNamed = true := by
  obtain ⟨id, hid, hd⟩ := Option.bind_eq_some_iff.mp h
  exact all_eq_true.mp hn d (Node.mem_linkedTo hid hd)

theorem plainPieces_resolvedName (hn : n.namesIn p.index = true) :
    PlainPieces (p.resolvedName n) := by
  unfold resolvedName
  split
  · exact plainPieces_error _
  · next d hd =>
    split
    · have hsign := wellNamed_target hn hd
      cases hs : d.node.name? with
      | none => exact plainPieces_error _
      | some s =>
        rw [Node.wellNamed, hs] at hsign
        exact plainPieces_ok (plain_single (plain_of_signless hsign))
    · exact plainPieces_error _

theorem plainPieces_referredName (hn : n.spelled = true) (hl : n.namesIn p.index = true) :
    PlainPieces (p.referredName n) := by
  unfold referredName
  split
  · next d hd => exact plainPieces_name (wellNamed_target hl hd)
  · exact plainPieces_textOf hn

/-- A variable is printed under the name of its declaration, be it a field or not. -/
theorem plainPieces_variableUse (hn : n.spelled = true) (hl : n.namesIn p.index = true) :
    PlainPieces (p.variableUse n) := by
  unfold variableUse
  split
  · next d hd =>
    have hd' := wellNamed_target hl hd
    split
    · refine plainPieces_bind fun o ho => plainPieces_ok (plain_single ?_)
      have hname := signless_shownName hd' (lift_inv ho)
      exact Text.plain_append (Text.plain_append rfl (plain_of_signless hname)) rfl
    · exact plainPieces_name hd'
  · exact plainPieces_textOf hn

/-- Types have no signs in them. -/
theorem plainPieces_type (t : Tree) (ht : t.SpelledIn p.index) : PlainPieces (p.type t) := by
  induction t using Tree.ofSmaller with
  | step t ih =>
    obtain ⟨n, cs⟩ := t
    obtain ⟨hn, hl⟩ := ht.node
    have hgo : PlainPieces (type.go p cs) := by
      cases cs with
      | nil => exact plainPieces_ok rfl
      | cons q cs =>
        obtain ⟨r, s⟩ := q
        exact ih s (Tree.sizeOf_child (p := (r, s)) mem_cons_self) (ht.part mem_cons_self)
    unfold type
    split
    · -- A name that was resolved; then come a plain name and a pointer.
      exact plainPieces_resolvedName hl
    · refine plainPieces_bind fun ps hps => plainPieces_ok ?_
      refine plain_append ?_ (plainPieces_textOf hn ps hps)
      split <;> rfl
    · refine plainPieces_bind fun ps hps => plainPieces_ok ?_
      refine plain_append (plain_append (hgo ps hps) rfl) ?_
      split <;> rfl
    · exact plainPieces_error _

theorem plainPieces_typeIn (ht : ∀ c, t.child? r = some c → c.SpelledIn p.index) :
    PlainPieces (p.typeIn t r) := by
  unfold typeIn
  split
  · next c hc => exact plainPieces_type c (ht c hc)
  · exact plainPieces_ok rfl

theorem plainPieces_parenthesized (hx : PlainPieces x) : PlainPieces (parenthesized n x) := by
  refine plainPieces_bind fun ps hps => plainPieces_ok ?_
  split
  · exact plain_append (plain_append rfl (hx ps hps)) rfl
  · exact hx ps hps

theorem plainPieces_postfixOperator (hn : n.spelled = true) : PlainPieces (postfixOperator n) := by
  refine plainPieces_bind fun ps hps => plainPieces_ok ?_
  obtain ⟨s, rfl, hs⟩ := textOf_inv hn hps
  refine plain_single (plain_of_signless ?_)
  rw [signless, all_eq_true] at hs ⊢
  intro ch hch
  rw [String.toList_ofList] at hch
  exact hs ch (mem_of_mem_drop hch)

theorem argumentAt_inv {i : Nat} (h : argumentAt args i = .ok ps) : Except.ok ps ∈ args := by
  unfold argumentAt at h
  split at h
  · next x hx => exact h ▸ mem_of_getElem? hx
  · cases h

theorem exactly_inv {count : Nat} {args : Except Unprintable (List Pieces)} {l : List Pieces}
    (h : exactly count args = .ok l) : args = .ok l := by
  unfold exactly at h
  cases args with
  | error e => cases h
  | ok l' =>
    simp only [bind, Except.bind] at h
    split at h
    · cases h
      rfl
    · cases h

/-- Pieces for all arguments are pieces for each of them. -/
theorem mapM_id_inv {ls : List (List String)} (h : args.mapM id = .ok ls) :
    ∀ l ∈ ls, Except.ok l ∈ args := by
  induction args generalizing ls with
  | nil =>
    cases h
    simp
  | cons x args ih =>
    rw [mapM_cons] at h
    cases x with
    | error e => cases h
    | ok ps =>
      cases hr : args.mapM id with
      | error e =>
        simp only [id, bind, Except.bind, hr] at h
        cases h
      | ok ls' =>
        simp only [id, bind, Except.bind, hr] at h
        cases h
        intro l hl
        rcases mem_cons.mp hl with rfl | hl
        · exact mem_cons_self
        · exact mem_cons_of_mem _ (ih hr l hl)

theorem plain_argumentPieces {args : List (List String)}
    (h : ∀ ps ∈ args, plainChars (ps.flatMap String.toList) = true) :
    plainChars ((argumentPieces args).flatMap String.toList) = true := by
  refine plain_append (plain_append rfl ?_) rfl
  rw [List.intercalate]
  induction args with
  | nil => rfl
  | cons ps args ih =>
    have hps := h ps mem_cons_self
    have hrest := ih fun q hq => h q (mem_cons_of_mem _ hq)
    cases args with
    | nil => exact plain_append hps rfl
    | cons qs args => exact plain_append hps (plain_append rfl hrest)

theorem inRole_inv (h : bare.inRole p r cs = .ok ps) :
    ∃ t, (r, t) ∈ cs ∧ parenthesized t.node (p.bare t) = .ok ps := by
  induction cs with
  | nil => cases h
  | cons q cs ih =>
    obtain ⟨r', t⟩ := q
    rw [bare.inRole] at h
    split at h
    · next hr => exact ⟨t, hr ▸ mem_cons_self, h⟩
    · obtain ⟨t', ht', hps⟩ := ih h
      exact ⟨t', mem_cons_of_mem _ ht', hps⟩

theorem arguments_inv (h : bare.arguments p cs = .ok args) :
    ∃ m as, (Role.argumentList, Tree.mk m as) ∈ cs ∧ args = bare.each p as := by
  induction cs with
  | nil => cases h
  | cons q cs ih =>
    obtain ⟨r, m, as⟩ := q
    rw [bare.arguments] at h
    split at h
    · next hr =>
      cases h
      exact ⟨m, as, hr ▸ mem_cons_self, rfl⟩
    · obtain ⟨m', as', hmem, ha⟩ := ih h
      exact ⟨m', as', mem_cons_of_mem _ hmem, ha⟩

theorem mem_each {as : Children} (h : x ∈ bare.each p as) :
    ∃ q ∈ as, x = parenthesized q.2.node (p.bare q.2) := by
  induction as with
  | nil => cases h
  | cons q as ih =>
    obtain ⟨r, t⟩ := q
    rw [bare.each, mem_cons] at h
    rcases h with rfl | h
    · exact ⟨(r, t), mem_cons_self, rfl⟩
    · obtain ⟨q, hq, hx⟩ := ih h
      exact ⟨q, mem_cons_of_mem _ hq, hx⟩

/-- In an expression no colon comes before all question marks. -/
theorem plainPieces_bare (t : Tree) (ht : t.SpelledIn p.index) : PlainPieces (p.bare t) := by
  induction t using Tree.ofSmaller with
  | step t ih =>
    obtain ⟨n, cs⟩ := t
    obtain ⟨hn, hl⟩ := ht.node
    -- The parts of an expression are smaller, and so are the arguments of a call in it.
    have hrole : ∀ r, PlainPieces (bare.inRole p r cs) := by
      intro r ps hps
      obtain ⟨s, hs, hps⟩ := inRole_inv hps
      exact plainPieces_parenthesized (ih s (Tree.sizeOf_child hs) (ht.part hs)) ps hps
    have hargs : ∀ args, bare.arguments p cs = .ok args → ∀ x ∈ args, PlainPieces x := by
      intro args ha x hx
      obtain ⟨m, as, hmem, rfl⟩ := arguments_inv ha
      obtain ⟨q, hq, rfl⟩ := mem_each hx
      refine plainPieces_parenthesized (ih q.2 ?_ ((ht.part hmem).part hq))
      exact Nat.lt_trans (Tree.sizeOf_child hq) (Tree.sizeOf_child hmem)
    have hat : ∀ {count args i}, exactly count (bare.arguments p cs) = .ok args →
        PlainPieces (argumentAt args i) := fun he ps hps =>
      hargs _ (exactly_inv he) _ (argumentAt_inv hps) ps rfl
    unfold bare
    cases n.kind
    case assignment =>
      refine plainPieces_bind fun l hl => plainPieces_bind fun r hr => plainPieces_ok ?_
      exact plain_append (plain_append (hrole _ l hl) rfl) (hrole _ r hr)
    case conditional =>
      -- Only here a colon is printed, and the question mark comes first.
      refine plainPieces_bind fun c hc => plainPieces_bind fun y _ => plainPieces_bind fun z _ =>
        plainPieces_ok ?_
      simp only [flatMap_append, append_assoc]
      exact plainChars_question (hrole _ c hc)
    case binaryOperator =>
      refine plainPieces_bind fun args ha => plainPieces_bind fun l hl => plainPieces_bind
        fun op hop => plainPieces_bind fun r hr => plainPieces_ok ?_
      exact plain_append (plain_append (hat ha l hl) (plainPieces_textOf hn op hop)) (hat ha r hr)
    case memberBinary =>
      refine plainPieces_bind fun args ha => plainPieces_bind fun l hl => plainPieces_bind
        fun op hop => plainPieces_bind fun r hr => plainPieces_ok ?_
      exact plain_append (plain_append (hrole _ l hl) (plainPieces_textOf hn op hop)) (hat ha r hr)
    case unary =>
      refine plainPieces_bind fun _ _ => plainPieces_bind fun op hop => plainPieces_bind
        fun e he => plainPieces_ok ?_
      exact plain_append (plainPieces_textOf hn op hop) (hrole _ e he)
    case postUnary =>
      refine plainPieces_bind fun _ _ => plainPieces_bind fun e he => plainPieces_bind
        fun op hop => plainPieces_ok ?_
      exact plain_append (hrole _ e he) (plainPieces_postfixOperator hn op hop)
    case dereference =>
      exact plainPieces_bind fun e he => plainPieces_ok (plain_cons rfl (hrole _ e he))
    case addressOf =>
      exact plainPieces_bind fun e he => plainPieces_ok (plain_cons rfl (hrole _ e he))
    case literal | integerLiteral | booleanLiteral => exact plainPieces_textOf hn
    case memberAccess =>
      refine plainPieces_bind fun e he => plainPieces_bind fun name hname => plainPieces_ok ?_
      refine plain_append (plain_append (hrole _ e he) ?_) (plainPieces_textOf hn name hname)
      split <;> rfl
    case cast =>
      refine plainPieces_bind fun type htype => plainPieces_bind fun e he => plainPieces_ok ?_
      have htype := plainPieces_typeIn (fun _ => ht.child) type htype
      exact plain_append (plain_append (plain_append rfl htype) rfl) (hrole _ e he)
    case trivialCast => exact hrole _
    case variableUse => exact plainPieces_variableUse hn hl
    case call =>
      refine plainPieces_bind fun name hname => plainPieces_bind fun xs hxs => plainPieces_bind
        fun args ha => plainPieces_ok ?_
      refine plain_append (plainPieces_referredName hn hl name hname) (plain_argumentPieces ?_)
      intro ps hps
      exact hargs xs hxs _ (mapM_id_inv ha ps hps) ps rfl
    case callSubResult =>
      dsimp only
      split
      · next d hd => exact plainPieces_name (wellNamed_target hl hd)
      · exact plainPieces_error _
    case machineArgument => exact plainPieces_ok rfl
    case refType | simpleType | pointerType => exact plainPieces_type _ ht
    all_goals exact plainPieces_error _

theorem plainPieces_expression (ht : t.SpelledIn p.index) : PlainPieces (p.expression t) :=
  plainPieces_parenthesized (plainPieces_bare t ht)

theorem plainPieces_expressionIn (ht : t.SpelledIn p.index) (r : Role) :
    PlainPieces (p.expressionIn t r) := by
  unfold expressionIn
  split
  · next e he => exact plainPieces_expression (ht.child he)
  · exact plainPieces_error _

theorem plainPieces_of_mem_argumentsOf (ht : t.SpelledIn p.index) (h : p.argumentsOf t = .ok args) :
    ∀ x ∈ args, PlainPieces x := by
  unfold argumentsOf at h
  split at h
  · next a ha =>
    cases h
    intro x hx
    obtain ⟨e, he, rfl⟩ := mem_map.mp hx
    obtain ⟨m, as⟩ := a
    obtain ⟨⟨r, e'⟩, hq, hqe⟩ := mem_filterMap.mp he
    have hspelled := (ht.child ha).part hq
    dsimp only at hqe
    split at hqe
    · cases hqe
      exact plainPieces_expression hspelled
    · cases hqe
  · cases h

end Printing

end Resumable
