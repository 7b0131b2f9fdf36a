import Resumable.Proofs.Steps
import Resumable.Proofs.Walk

/-!
# Walks that end well

A visit that does not end with a fault does what the relations of the walk say. Steps in the state
monad are taken apart here and nowhere else.

* `Cutting.cutsOperand_of_visit`, `Cutting.cutsStatement_of_visit`: a visit without a fault is a
  case of the relations of the walk.
* `Cutting.attempted_inv`: what a step has done that was attempted, if the walk goes on without a
  fault.
-/

namespace Resumable.Cutting

open Resumable.Tree

variable {c c' : Cutter} {cs cs' as : Children} {stmt o : Origin} {n a m : Node} {t t' : Tree}
  {r : Role} {α : Type} {b : Bool} {reach : Reach} {parts : List Cuttable} {x : Unit}

/-! ## Taking steps apart -/

theorem bind_inv {β : Type} {x : Cutting α} {f : α → Cutting β} {b : β}
    (h : (x >>= f) c = (b, c')) :
    ∃ a c₁, x c = (a, c₁) ∧ f a c₁ = (b, c') :=
  ⟨(x c).1, (x c).2, rfl, h⟩

theorem ite_inv {x y : Cutting α} {a : α} (h : (if b = true then x else y) c = (a, c')) :
    (b = true ∧ x c = (a, c')) ∨ (b = false ∧ y c = (a, c')) := by
  cases b
  · exact Or.inr ⟨rfl, h⟩
  · exact Or.inl ⟨rfl, h⟩

/-- A step that is attempted ends well, or its fault is kept and the walk goes on. -/
theorem attempt_cases {s : Step Cutter α} {a : Option α} (h : attempt s c = (a, c')) :
    (∃ x, a = some x ∧ c.fault = none ∧ s c = .ok x c') ∨ (a = none ∧ c'.fault ≠ none) := by
  unfold attempt at h
  cases hc : c.fault with
  | some f =>
    rw [hc] at h
    cases h
    exact .inr ⟨rfl, by simp [hc]⟩
  | none =>
    rw [hc] at h
    cases hs : s c with
    | ok y c₁ =>
      rw [hs] at h
      cases h
      exact .inl ⟨y, rfl, rfl, rfl⟩
    | error f c₁ =>
      rw [hs] at h
      cases h
      exact .inr ⟨rfl, nofun⟩

theorem fault_of_attempt {s : Step Cutter α} {a : Option α} (h : attempt s c = (a, c'))
    (hf : c'.fault = none) : ∃ x, a = some x ∧ c.fault = none ∧ s c = .ok x c' :=
  (attempt_cases h).resolve_right fun hstop => hstop.2 hf

/-- If there is no fault in the end, what was attempted has ended well. -/
theorem attempted_inv {β : Type} {s : Step Cutter α} {g : Option α → Cutting β} {y : β}
    (h : (attempt s >>= g) c = (y, c')) (hnone : ∀ c, (g none c).2 = c) (hf : c'.fault = none) :
    ∃ a c₁, c.fault = none ∧ s c = .ok a c₁ ∧ g (some a) c₁ = (y, c') := by
  obtain ⟨a, c₁, ha, h⟩ := bind_inv h
  obtain ⟨x, rfl, hc, hs⟩ | ⟨rfl, hstop⟩ := attempt_cases ha
  · exact ⟨x, c₁, hc, hs, h⟩
  · have hsame := hnone c₁
    rw [h] at hsame
    exact absurd (hsame ▸ hf) hstop

/-- What changes nothing once the walk has stopped did not begin with a fault if it does not end
with one. -/
theorem fault_of_stopped (h : c.fault ≠ none → c' = c) (hf : c'.fault = none) : c.fault = none :=
  by_contra fun hc => hc (h hc ▸ hf)

/-! ## Walks that stop -/

theorem visit_stopped (h : c.fault ≠ none) : visit stmt reach t c = (t, c) := by
  have hs : c.fault.isSome = true := Option.isSome_iff_ne_none.mpr h
  obtain ⟨n, cs⟩ := t
  change (if c.fault.isSome = true then pure (.mk n cs) else _ : Cutting Tree) c = _
  rw [if_pos hs]
  rfl

theorem visit_whole (h : c.fault = none) :
    visit stmt .whole (.mk n cs) c = rule stmt (.mk n cs) (visit.go cs) c := by
  change (if c.fault.isSome = true then _ else rule stmt (.mk n cs) (visit.go cs) :
    Cutting Tree) c = _
  rw [h]
  rfl

theorem visit_arguments (h : c.fault = none) :
    visit stmt .arguments (.mk n cs) c =
      (.mk n (argumentsOnly stmt (visit.go cs) c).1, (argumentsOnly stmt (visit.go cs) c).2) := by
  change (if c.fault.isSome = true then _ else _ : Cutting Tree) c = _
  rw [h]
  rfl

theorem fault_of_visit (h : visit stmt reach t c = (t', c')) (hf : c'.fault = none) :
    c.fault = none :=
  fault_of_stopped (fun hc => by rw [visit_stopped hc] at h; cases h; rfl) hf

theorem children_cons :
    children stmt (visit.go ((r, t) :: cs)) c =
      ((r, (visit stmt .whole t c).1) ::
        (children stmt (visit.go cs) (visit stmt .whole t c).2).1,
        (children stmt (visit.go cs) (visit stmt .whole t c).2).2) :=
  rfl

theorem children_append {xs ys : Children} :
    children stmt (visit.go (xs ++ ys)) c =
      ((children stmt (visit.go xs) c).1 ++
        (children stmt (visit.go ys) (children stmt (visit.go xs) c).2).1,
        (children stmt (visit.go ys) (children stmt (visit.go xs) c).2).2) := by
  induction xs generalizing c with
  | nil => rfl
  | cons p xs ih =>
    obtain ⟨r, t⟩ := p
    rw [List.cons_append, children_cons, children_cons, ih]
    rfl

theorem children_stopped (h : c.fault ≠ none) : children stmt (visit.go cs) c = (cs, c) := by
  induction cs with
  | nil => rfl
  | cons p cs ih =>
    obtain ⟨r, t⟩ := p
    rw [children_cons, visit_stopped h, ih]

theorem fault_of_children (h : children stmt (visit.go cs) c = (cs', c')) (hf : c'.fault = none) :
    c.fault = none :=
  fault_of_stopped (fun hc => by rw [children_stopped hc] at h; cases h; rfl) hf

/-- The first child is visited, and then the other ones, in the state that this leaves. -/
theorem children_cons_inv (h : children stmt (visit.go ((r, t) :: cs)) c = (cs', c'))
    (hf : c'.fault = none) :
    ∃ t' c₁ rest, visit stmt .whole t c = (t', c₁) ∧ c₁.fault = none ∧
      children stmt (visit.go cs) c₁ = (rest, c') ∧ cs' = (r, t') :: rest := by
  rw [children_cons] at h
  cases hv : visit stmt .whole t c with
  | mk t' c₁ =>
    cases hr : children stmt (visit.go cs) c₁ with
    | mk rest c₂ =>
      simp only [hv, hr] at h
      cases h
      exact ⟨t', c₁, rest, rfl, fault_of_children hr hf, hr, rfl⟩

theorem statements_cons :
    statements (visit.go ((r, t) :: cs)) c =
      let v := visit t.origin .whole t { c with before := [], after := [] }
      let rest := statements (visit.go cs) { v.2 with before := c.before, after := c.after }
      ((v.2.before ++ v.1 :: v.2.after).map (Role.statements, ·) ++ rest.1, rest.2) :=
  rfl

theorem statements_stopped (h : c.fault ≠ none) : (statements (visit.go cs) c).2 = c := by
  induction cs with
  | nil => rfl
  | cons p cs ih =>
    obtain ⟨r, t⟩ := p
    rw [statements_cons, visit_stopped (by exact h)]
    exact ih

theorem statements_cons_inv (h : statements (visit.go ((r, t) :: cs)) c = (cs', c'))
    (hf : c'.fault = none) :
    ∃ t' c₁ rest,
      visit t.origin .whole t { c with before := [], after := [] } = (t', c₁) ∧
      c₁.fault = none ∧
      statements (visit.go cs) { c₁ with before := c.before, after := c.after } = (rest, c') ∧
      cs' = (c₁.before ++ t' :: c₁.after).map (Role.statements, ·) ++ rest := by
  rw [statements_cons] at h
  cases hv : visit t.origin .whole t { c with before := [], after := [] } with
  | mk t' c₁ =>
    cases hr : statements (visit.go cs) { c₁ with before := c.before, after := c.after } with
    | mk rest c₂ =>
      simp only [hv, hr] at h
      cases h
      exact ⟨t', c₁, rest, rfl, @fault_of_stopped { c₁ with before := c.before, after := c.after } _
        (fun hc => (congrArg Prod.snd hr).symm.trans (statements_stopped hc)) hf, hr, rfl⟩

/-! ## Operands -/

theorem unsupported_stops {k : Kind}
    (h : (attempt (unsupportedKind (α := Unit) "_StatementsVisitor" k) >>= fun _ => pure t) c =
      (t', c')) : c'.fault ≠ none := by
  intro hf
  obtain ⟨a, ha⟩ : ∃ a, attempt (unsupportedKind (α := Unit) "_StatementsVisitor" k) c = (a, c') :=
    ⟨_, Prod.ext rfl (congrArg Prod.snd h :)⟩
  obtain ⟨x, -, -, hx⟩ := fault_of_attempt ha hf
  cases hx

theorem visit_argumentList (ha : a.kind = .argumentList) (hc : c.fault = none) :
    visit stmt .whole (.mk a as) c =
      (.mk a (children stmt (visit.go as) c).1, (children stmt (visit.go as) c).2) := by
  rw [visit_whole hc, rule]
  simp only [node, ha]
  rfl

theorem arguments_inv (ha : a.kind = .argumentList)
    (h : children stmt (visit.go [(.argumentList, .mk a as)]) c = (cs', c')) (hf : c'.fault = none)
    : ∃ as', children stmt (visit.go as) c = (as', c') ∧ cs' = [(.argumentList, .mk a as')] := by
  obtain ⟨t', c₁, rest, hv, -, hrest, rfl⟩ := children_cons_inv h hf
  cases hrest
  rw [visit_argumentList ha (fault_of_visit hv hf)] at hv
  cases hv
  exact ⟨_, rfl, rfl⟩

/-- The arguments of a call are visited first. If the function has states, the call is taken out. -/
theorem call_inv (h : call stmt (.mk n cs) parts c = (t', c')) (hf : c'.fault = none) :
    ∃ cs' c₁, children stmt parts c = (cs', c₁) ∧ c₁.fault = none ∧
      ((c₁.machines.hasStates (n.link? .declaration) = false ∧ t' = .mk n cs' ∧ c' = c₁) ∨
        (c₁.machines.hasStates (n.link? .declaration) = true ∧
          takeOut stmt (.mk n cs') c₁ = .ok t' c')) := by
  unfold call at h
  obtain ⟨cs', c₁, hc, h⟩ := bind_inv h
  obtain ⟨b, c₂, hb, h⟩ := bind_inv h
  cases hb
  rcases ite_inv h with ⟨hm, h⟩ | ⟨hm, h⟩
  · obtain ⟨a, c₃, ha, h⟩ := bind_inv h
    cases h
    obtain ⟨x, rfl, hf₁, hx⟩ := fault_of_attempt ha hf
    exact ⟨cs', c₁, hc, hf₁, Or.inr ⟨hm, hx⟩⟩
  · cases h
    exact ⟨cs', _, hc, hf, Or.inl ⟨hm, rfl, rfl⟩⟩

theorem takeOut_eq :
    takeOut stmt (.mk m [(.argumentList, .mk a as)]) c =
      .ok (resultOf c.log.nextId m.origin)
        (c.cut 3 [takenOut c.log.nextId stmt (c.states + 1)
          (.mk m [(.argumentList, .mk a as)])] []) := by
  simp only [Cutter.cut, Cutter.made, List.append_nil]
  rfl

theorem cutsOperands_of_each
    (each : ∀ p ∈ cs, ∀ {c t' c'}, visit stmt .whole p.2 c = (t', c') → c'.fault = none →
      CutsOperand stmt c p.2 t' c') (h : children stmt (visit.go cs) c = (cs', c'))
    (hf : c'.fault = none) : CutsOperands stmt c cs cs' c' := by
  induction cs generalizing c cs' with
  | nil =>
    cases h
    exact .nil
  | cons p cs ih =>
    obtain ⟨r, t⟩ := p
    obtain ⟨t', c₁, rest, hv, hf₁, hrest, rfl⟩ := children_cons_inv h hf
    exact .cons (each _ List.mem_cons_self hv hf₁)
      (ih (fun q hq => each q (List.mem_cons_of_mem _ hq)) hrest)

/-- A visit of an operand that ends without a fault is one of the cases. -/
theorem cutsOperand_of_visit (hu : t.uncut = true) (ho : t.kind.operand = true)
    (h : visit stmt .whole t c = (t', c')) (hf : c'.fault = none) : CutsOperand stmt c t t' c' := by
  induction t using ofSmaller generalizing c t' c' with
  | step t ih =>
    obtain ⟨n, cs⟩ := t
    have hrow : ∀ {m ds}, sizeOf (mk m ds) ≤ sizeOf (mk n cs) →
        (mk m ds).uncut = true → m.kind.operand = true → ∀ {c ds' c'},
        children stmt (visit.go ds) c = (ds', c') → c'.fault = none →
        CutsOperands stmt c ds ds' c' := by
      intro m ds hsize hu ho c ds' c' h hf
      refine cutsOperands_of_each (fun p hp c t' c' hv hfv => ?_) h hf
      exact ih p.2 (Nat.lt_of_lt_of_le (sizeOf_child hp) hsize) (uncut_child hu hp)
        (uncut_simple hu (Kind.simple_of_operand ho) p hp) hv hfv
    rw [visit_whole (fault_of_visit h hf)] at h
    unfold rule at h
    have hins := uncut_inserted hu
    -- only the kinds of operands that the parser gives are left
    cases hk : n.kind <;> simp only [kind, node, hk] at h ho hins <;>
      first | exact absurd ho (by decide) | exact absurd hins (by decide) | skip
    case expression | errorExpression | staticValue => exact absurd hf (unsupported_stops h)
    case literal | integerLiteral | booleanLiteral | typeRef | refType | simpleType | invalidType
        | pointerType =>
      cases h
      exact .bare (by rw [hk]; rfl)
    case variableUse =>
      cases h
      exact .use hk
    case call =>
      obtain ⟨cs', c₁, hc, hf₁, hcall⟩ := call_inv h hf
      obtain ⟨a, as, rfl, ha⟩ := uncut_call hu hk
      obtain ⟨as', has, rfl⟩ := arguments_inv ha hc hf₁
      have hsize := sizeOf_child (n := n) (p := (.argumentList, .mk a as))
        (List.mem_singleton_self _)
      have hargs := hrow (Nat.le_of_lt hsize) (uncut_child hu List.mem_cons_self)
        (by rw [ha]; rfl) has hf₁
      rcases hcall with ⟨hm, rfl, rfl⟩ | ⟨hm, hx⟩
      · exact .call hk ha hargs hm
      · rw [takeOut_eq] at hx
        cases hx
        exact .taken hk ha hargs hm
    all_goals
      cases h
      exact .inner (by rw [hk]; rfl) (hrow (Nat.le_refl _) hu (by rw [hk]; rfl) rfl hf)

theorem cutsOperands_of_children (hu : ∀ p ∈ cs, p.2.uncut = true)
    (ho : ∀ p ∈ cs, p.2.kind.operand = true) (h : children stmt (visit.go cs) c = (cs', c'))
    (hf : c'.fault = none) : CutsOperands stmt c cs cs' c' :=
  cutsOperands_of_each (fun p hp _ _ _ hv hfv => cutsOperand_of_visit (hu p hp) (ho p hp) hv hfv)
    h hf

theorem cutsOperands_of_simple (hu : (mk n cs).uncut = true) (hk : n.kind.simple = true)
    (h : children stmt (visit.go cs) c = (cs', c')) (hf : c'.fault = none) :
    CutsOperands stmt c cs cs' c' :=
  cutsOperands_of_children (fun _ hp => uncut_child hu hp) (uncut_simple hu hk) h hf

/-! ## Statements -/

theorem callIn_inv (ha : a.kind = .argumentList)
    (h : callIn r stmt (visit.go [(r, .mk m [(.argumentList, .mk a as)])]) c = (cs', c'))
    (hf : c'.fault = none) :
    ∃ as', children stmt (visit.go as) c = (as', c') ∧
      cs' = [(r, .mk m [(.argumentList, .mk a as')])] := by
  have hv : callIn r stmt (visit.go [(r, .mk m [(.argumentList, .mk a as)])]) c =
      ([(r, (visit stmt .arguments (.mk m [(.argumentList, .mk a as)]) c).1)],
        (visit stmt .arguments (.mk m [(.argumentList, .mk a as)]) c).2) := by
    simp only [visit.go, callIn, if_true]
    rfl
  have hs : argumentsOnly stmt (visit.go [(.argumentList, .mk a as)]) c =
      ([(.argumentList, (visit stmt .whole (.mk a as) c).1)],
        (visit stmt .whole (.mk a as) c).2) := rfl
  rw [hv] at h
  cases h
  have hc := fault_of_visit rfl hf
  rw [visit_arguments hc, hs, visit_argumentList ha hc] at hf ⊢
  exact ⟨_, rfl, rfl⟩

theorem pauseAfter_eq :
    pauseAfter o c =
      .ok () (c.cut 1 [] [.mk (cutNode .debugState c.log.nextId o (c.states + 1)) []]) := by
  simp only [Cutter.cut, Cutter.made, List.append_nil]
  rfl

theorem pauseIfSplit_inv (h : pauseIfSplit o c = (x, c')) (hf : c'.fault = none) :
    c.fault = none ∧ c' = paused o c := by
  unfold pauseIfSplit at h
  obtain ⟨c₀, c₁, hget, h⟩ := bind_inv h
  cases hget
  unfold paused
  rcases ite_inv h with ⟨hs, h⟩ | ⟨hs, h⟩
  · obtain ⟨a, c₂, ha, h⟩ := bind_inv h
    cases h
    obtain ⟨y, rfl, hc, hp⟩ := fault_of_attempt ha hf
    rw [pauseAfter_eq] at hp
    cases hp
    exact ⟨hc, by rw [if_pos hs]⟩
  · cases h
    exact ⟨hf, by rw [hs]; rfl⟩

theorem setPersistence_inv {f : Cutter → Except Fault Persistence}
    (h : (do let c ← get; set { c with persistence := ← f c } : Step Cutter Unit) c = .ok x c') :
    ∃ p, f c = .ok p ∧ c' = { c with persistence := p } := by
  obtain ⟨c₀, c₁, hget, h⟩ := Step.bind_inv h
  cases hget
  obtain ⟨p, c₂, hp, h⟩ := Step.bind_inv h
  obtain ⟨hp, rfl⟩ := Step.lift_inv hp
  cases h
  exact ⟨p, hp, rfl⟩

theorem machineInitializer_inv (h : machineInitializer (.mk n cs) c = (b, c')) :
    c' = c ∧ b = startsMachine c.machines cs := by
  unfold machineInitializer at h
  unfold startsMachine
  cases he : cs.lookup .initializer with
  | none =>
    rw [show (mk n cs).child? .initializer = none from he] at h
    cases h
    exact ⟨rfl, rfl⟩
  | some e =>
    rw [show (mk n cs).child? .initializer = some e from he] at h
    by_cases hk : e.kind = .call
    · simp only [if_pos hk] at h
      cases h
      exact ⟨rfl, by simp [hk]⟩
    · simp only [if_neg hk] at h
      cases h
      exact ⟨rfl, by simp [hk]⟩

/-- A declaration is visited like an expression. The variable is declared behind its initializer. -/
theorem variableDeclaration_inv (hu : (mk n cs).uncut = true)
    (hk : n.kind = .variableDeclaration)
    (h : variableDeclaration n.origin (.mk n cs) (visit.go cs) c = (t', c'))
    (hf : c'.fault = none) :
    CutsStatement c (.mk n cs) t' c' := by
  unfold variableDeclaration at h
  obtain ⟨x, c₁, -, hs, h⟩ := attempted_inv h (fun _ => rfl) hf
  obtain ⟨p, hp, rfl⟩ := setPersistence_inv hs
  obtain ⟨b, c₂, hb, h⟩ := bind_inv h
  obtain ⟨rfl, hinit⟩ := machineInitializer_inv hb
  rcases ite_inv h with ⟨rfl, h⟩ | ⟨rfl, h⟩
  · -- the first value comes from a function with states
    obtain ⟨ty, rfl | ⟨⟨m, ds⟩, rfl⟩⟩ := uncut_variableDeclaration hu hk
    · cases hinit
    have hboth : (m.kind == .call && c.machines.hasStates (m.link? .declaration)) = true :=
      hinit.symm
    rw [Bool.and_eq_true, beq_iff_eq] at hboth
    obtain ⟨hcall, hm⟩ := hboth
    have hue := uncut_child hu (List.mem_cons_of_mem _ List.mem_cons_self)
    obtain ⟨a, as, rfl, ha⟩ := uncut_call hue hcall
    obtain ⟨cs', c₃, hc, h⟩ := bind_inv h
    obtain ⟨o, c₄, ho, h⟩ := bind_inv h
    cases h
    obtain ⟨t₁, rfl, hf₃, hx⟩ := fault_of_attempt ho hf
    obtain ⟨rest, c₅, hrest, hcs⟩ := bind_inv hc
    cases hrest
    obtain ⟨cs'', c₆, hc, hcs⟩ := bind_inv hcs
    cases hcs
    obtain ⟨as', has, rfl⟩ := callIn_inv ha hc hf₃
    cases hx
    have hua := uncut_child hue List.mem_cons_self
    exact .machineDeclaration hk hp hcall ha hm
      (cutsOperands_of_simple hua (by rw [ha]; rfl) has hf₃)
  · obtain ⟨cs', c₃, hc, h⟩ := bind_inv h
    obtain ⟨x, c₄, hpause, h⟩ := bind_inv h
    cases h
    obtain ⟨hf₃, rfl⟩ := pauseIfSplit_inv hpause hf
    exact .declaration hk hp hinit.symm (cutsOperands_of_simple hu (by rw [hk]; rfl) hc hf₃)

/-- A blocking call becomes a sleep, or a wait for a transfer with the name of the function that
starts it. -/
theorem waitNode_inv {f : Option String} {w : Node} (h : waitNode f o m c = .ok w c') :
    c' = c.made 1 [] [] ∧
    ((f = some sleepFunction ∧ w = .blank c.log.nextId .papiSleep o) ∨
     ∃ g start event spot, f = some g ∧ transferOf? g = some (start, event) ∧
       m.nameSpot = some spot ∧
       w = { ((Node.blank c.log.nextId .papiWait o).named start).setText .waitFor (some event) with
             nameSpot := some spot }) := by
  have hmade : c.made 1 [] [] = { c with log := { c.log with nextId := c.log.nextId + 1 } } := by
    simp [Cutter.made]
  rw [hmade]
  unfold waitNode at h
  split at h
  · next hs =>
    cases h
    exact ⟨rfl, Or.inl ⟨hs, rfl⟩⟩
  · -- What is no sleep is one of the transfers, or the step fails.
    cases ht : f.bind transferOf? with
    | none =>
      rw [ht] at h
      cases h
    | some p =>
      obtain ⟨start, event⟩ := p
      rw [ht] at h
      obtain ⟨n, c₁, hn, hrest⟩ := Step.bind_inv h
      cases hn
      cases hspot : m.nameSpot with
      | none =>
        rw [hspot] at hrest
        cases hrest
      | some spot =>
        rw [hspot] at hrest
        cases hrest
        obtain ⟨g, hg, hgt⟩ := Option.bind_eq_some_iff.mp ht
        exact ⟨rfl, Or.inr ⟨g, start, event, spot, hg, hgt, rfl, rfl⟩⟩

theorem waitFor_inv (h : waitFor n (.mk m [(.argumentList, .mk a as)]) c = .ok t c') :
   ∃ w, WaitNode c n m w ∧ t = .mk w [(.argumentList, .mk a as)] ∧ c' = waited n.id m.id c := by
  unfold waitFor at h
  simp only [node] at h
  cases hd : m.link? .declaration with
  | none => rw [hd] at h; cases h
  | some id =>
    rw [hd] at h
    obtain ⟨c₀, c₁, hg, h⟩ := Step.bind_inv h
    cases hg
    cases hi : c.index.get? id with
    | none => simp only [hi] at h; cases h
    | some d =>
      simp only [hi] at h
      obtain ⟨name, c₁, hn, hnode⟩ := Step.bind_inv h
      obtain ⟨hname, rfl⟩ := Step.lift_inv hn
      obtain ⟨w, c₂, hw, hrest⟩ := Step.bind_inv hnode
      obtain ⟨hc₂, hnew⟩ := waitNode_inv hw
      subst hc₂
      cases hrest
      have hd' : (m.link? .declaration).bind c₁.index.get? = some d := by simp [hd, hi]
      -- A known declaration is a sleep or a transfer with its event.
      rcases hnew with ⟨rfl, rfl⟩ | ⟨g, start, event, spot, rfl, hg, hspot, rfl⟩
      · exact ⟨_, .sleep d hd' hname, rfl, rfl⟩
      · exact ⟨_, .transfer d hd' hname hg hspot, rfl, rfl⟩

/-- A call that is a statement calls a function with states, is a wait, or is a call like any other.
-/
theorem callStatement_inv (hu : (mk n cs).uncut = true) (hk : n.kind = .callStatement)
    (h : callStatement n.origin (.mk n cs) (visit.go cs) c = (t', c')) (hf : c'.fault = none) :
    CutsStatement c (.mk n cs) t' c' := by
  obtain ⟨m, ds, rfl, hcall⟩ := uncut_callStatement hu hk
  have hum := uncut_child hu List.mem_cons_self
  obtain ⟨a, as, rfl, ha⟩ := uncut_call hum hcall
  have hargs : ∀ {as' c₁}, children n.origin (visit.go as) c = (as', c₁) → c₁.fault = none →
      CutsOperands n.origin c as as' c₁ :=
    cutsOperands_of_simple (uncut_child hum List.mem_cons_self) (by rw [ha]; rfl)
  unfold callStatement at h
  obtain ⟨x, c₁, -, hs, h⟩ := attempted_inv h (fun _ => rfl) hf
  obtain ⟨call, c₂, hchild, hs⟩ := Step.bind_inv hs
  cases hchild
  simp only [kind, node, hcall] at hs
  cases hs
  obtain ⟨cs', c₁, hc, h⟩ := bind_inv h
  simp only [node] at h
  -- The call is still there when its arguments have been visited.
  cases hcs : (mk n cs').child? .expression with
  | none =>
    rw [hcs] at h
    cases h
    obtain ⟨as', -, rfl⟩ := callIn_inv ha hc hf
    cases hcs
  | some e =>
    simp only [hcs] at h
    obtain ⟨b, c₂, hb, h⟩ := bind_inv h
    cases hb
    rcases ite_inv h with ⟨hm, h⟩ | ⟨hm, h⟩
    · -- The function has states.
      obtain ⟨o, c₃, ho, h⟩ := bind_inv h
      cases h
      obtain ⟨t₁, rfl, hf₁, hx⟩ := fault_of_attempt ho hf
      obtain ⟨as', has, rfl⟩ := callIn_inv ha hc hf₁
      cases hcs
      cases hx
      exact .machineCall hk hcall ha (hargs has hf₁) hm
    · obtain ⟨b, c₃, hf₁, hb, h⟩ := attempted_inv h (fun _ => rfl) hf
      obtain ⟨as', has, rfl⟩ := callIn_inv ha hc hf₁
      cases hcs
      simp only at hb hm
      -- Otherwise it matters whether it blocks.
      cases hflag : m.flags.lookup .blocking with
      | none =>
        rw [hflag] at hb
        cases hb
      | some b' =>
        rw [hflag] at hb
        cases hb
        cases b with
        | true =>
          obtain ⟨o, c₄, ho, h⟩ := bind_inv h
          cases h
          obtain ⟨t₁, rfl, -, hx⟩ := fault_of_attempt ho hf
          obtain ⟨w, hw, rfl, rfl⟩ := waitFor_inv hx
          exact .wait hk hcall ha (hargs has hf₁) hm hflag hw
        | false =>
          obtain ⟨x, c₄, hpause, h⟩ := bind_inv h
          cases h
          obtain ⟨-, rfl⟩ := pauseIfSplit_inv hpause hf
          exact .call hk hcall ha (hargs has hf₁) hm hflag

theorem returnStatement_inv (hu : (mk n cs).uncut = true) (hk : n.kind = .returnStatement)
    (h : returnStatement n.origin (.mk n cs) (visit.go cs) c = (t', c')) (hf : c'.fault = none) :
    CutsStatement c (.mk n cs) t' c' := by
  have hsimple : n.kind.simple = true := by rw [hk]; rfl
  unfold returnStatement at h
  obtain ⟨cs', c₁, hc, h⟩ := bind_inv h
  obtain ⟨c₀, c₂, hget, h⟩ := bind_inv h
  cases hget
  -- Without a state before it there is nothing to reset.
  by_cases hs : c₁.states = 0
  · simp only [hs, ne_eq, not_true_eq_false, if_false] at h
    cases h
    have hleave := CutsStatement.leave (o := n.origin) hk (cutsOperands_of_simple hu hsimple hc hf)
    rw [wasReset, if_pos hs] at hleave
    exact hleave
  · simp only [hs, ne_eq, not_false_eq_true, if_true] at h
    obtain ⟨a, c₃, ha, h⟩ := bind_inv h
    cases h
    obtain ⟨x, rfl, hf₁, hx⟩ := fault_of_attempt ha hf
    obtain ⟨o, c₄, ho, hput⟩ := Step.bind_inv hx
    obtain ⟨-, rfl⟩ := Step.lift_inv ho
    cases hput
    have hleave := CutsStatement.leave (o := o) hk (cutsOperands_of_simple hu hsimple hc hf₁)
    rw [wasReset, if_neg hs] at hleave
    simp only [Cutter.made, List.append_nil] at hleave
    exact hleave

/-- The parts of a loop are visited between the beginning and the end of a loop in the persistence.
-/
theorem loop_inv (h : loop stmt (.mk n cs) parts c = (t', c')) (hf : c'.fault = none) :
    ∃ cs' c₂ p,
      children stmt parts { c with persistence := c.persistence.beginLoop c.states } = (cs', c₂) ∧
      c₂.fault = none ∧ c₂.persistence.endLoop c₂.states = .ok p ∧ t' = .mk n cs' ∧
      c' = { c₂ with persistence := p } := by
  unfold loop at h
  obtain ⟨x, c₁, hbegin, h⟩ := bind_inv h
  cases hbegin
  obtain ⟨cs', c₂, hc, h⟩ := bind_inv h
  obtain ⟨y, c₃, hend, h⟩ := bind_inv h
  cases h
  obtain ⟨z, rfl, hf₂, hset⟩ := fault_of_attempt hend hf
  obtain ⟨p, hp, rfl⟩ := setPersistence_inv hset
  exact ⟨cs', c₂, p, hc, hf₂, hp, rfl, rfl⟩

theorem cutsStatements_of_each
    (each : ∀ p ∈ cs, ∀ {c t' c'}, visit p.2.origin .whole p.2 c = (t', c') → c'.fault = none →
      CutsStatement c p.2 t' c') (h : statements (visit.go cs) c = (cs', c')) (hf : c'.fault = none)
    : CutsStatements c cs cs' c' := by
  induction cs generalizing c cs' with
  | nil =>
    cases h
    exact .nil
  | cons p cs ih =>
    obtain ⟨r, t⟩ := p
    obtain ⟨t', c₁, rest, hv, hf₁, hrest, rfl⟩ := statements_cons_inv h hf
    exact .cons (each _ List.mem_cons_self hv hf₁)
      (ih (fun q hq => each q (List.mem_cons_of_mem _ hq)) hrest)

theorem cutsBlocks_of_each {blocks blocks' : Children}
    (hk : ∀ p ∈ blocks, p.2.kind = .statementList)
    (each : ∀ p ∈ blocks, ∀ {c cs' c'}, statements (visit.go p.2.children) c = (cs', c') →
      c'.fault = none → CutsStatements c p.2.children cs' c')
    (h : children stmt (visit.go blocks) c = (blocks', c')) (hf : c'.fault = none) :
    CutsBlocks c blocks blocks' c' := by
  induction blocks generalizing c blocks' with
  | nil =>
    cases h
    exact .nil
  | cons p blocks ih =>
    obtain ⟨r, n, cs⟩ := p
    obtain ⟨t', c₁, rest, hv, hf₁, hrest, rfl⟩ := children_cons_inv h hf
    have hkind : n.kind = .statementList := hk _ List.mem_cons_self
    rw [visit_whole (fault_of_visit hv hf₁), rule] at hv
    simp only [node, hkind] at hv
    obtain ⟨cs', c₂, hs, hv⟩ := bind_inv hv
    cases hv
    exact .cons hkind (each _ List.mem_cons_self hs hf₁)
      (ih (fun q hq => hk q (List.mem_cons_of_mem _ hq))
        (fun q hq => each q (List.mem_cons_of_mem _ hq)) hrest)

/-- A visit of a statement that ends without a fault is one of the cases. -/
theorem cutsStatement_of_visit (hu : t.uncut = true) (hs : t.kind.isA .statement = true)
    (h : visit t.origin .whole t c = (t', c')) (hf : c'.fault = none) :
    CutsStatement c t t' c' := by
  induction t using ofSmaller generalizing c t' c' with
  | step t ih =>
    obtain ⟨n, cs⟩ := t
    -- Lists of statements, the statement itself among them, are visited statement by statement.
    have hlist : ∀ {m ds}, sizeOf (mk m ds) ≤ sizeOf (mk n cs) →
        (mk m ds).uncut = true → m.kind = .statementList → ∀ {c ds' c'},
        statements (visit.go ds) c = (ds', c') → c'.fault = none →
        CutsStatements c ds ds' c' := by
      intro m ds hsize hu hk c ds' c' h hf
      refine cutsStatements_of_each (fun p hp c t' c' hv hfv => ?_) h hf
      exact ih p.2 (Nat.lt_of_lt_of_le (sizeOf_child hp) hsize) (uncut_child hu hp)
        (uncut_block hu hk p hp).2 hv hfv
    have hblocks : ∀ {blocks}, (∀ p ∈ blocks, p ∈ cs) →
        (∀ p ∈ blocks, p.2.kind = .statementList) → ∀ {c blocks' c'},
        children n.origin (visit.go blocks) c = (blocks', c') → c'.fault = none →
        CutsBlocks c blocks blocks' c' := by
      intro blocks hsub hk c blocks' c' h hf
      refine cutsBlocks_of_each hk (fun p hp c cs' c' hv hfv => ?_) h hf
      obtain ⟨r, m, ds⟩ := p
      exact hlist (Nat.le_of_lt (sizeOf_child (hsub _ hp))) (uncut_child hu (hsub _ hp))
        (hk _ hp) hv hfv
    -- A branch or a loop has operands first, and then blocks.
    have hparts : n.kind = .ifElse ∨ n.kind.loops = true → ∀ {c cs' c'},
        children n.origin (visit.go cs) c = (cs', c') → c'.fault = none →
        ∃ ops blocks ops' blocks' c₁, cs = ops ++ blocks ∧ cs' = ops' ++ blocks' ∧
          CutsOperands n.origin c ops ops' c₁ ∧ CutsBlocks c₁ blocks blocks' c' := by
      intro hk c cs' c' h hf
      obtain ⟨ops, blocks, rfl, hops, hbs⟩ := uncut_compound hu hk
      rw [children_append] at h
      cases h
      have huops : ∀ p ∈ ops, p.2.uncut = true := fun p hp =>
        uncut_child hu (List.mem_append_left _ hp)
      exact ⟨ops, blocks, _, _, _, rfl, rfl,
        cutsOperands_of_children huops hops rfl (fault_of_children rfl hf),
        hblocks (fun _ => List.mem_append_right _) hbs rfl hf⟩
    rw [visit_whole (fault_of_visit h hf)] at h
    unfold rule at h
    have hins := uncut_inserted hu
    cases hk : n.kind <;> simp only [kind, node, hk] at h hs hins <;>
      first | exact absurd hs (by decide) | exact absurd hins (by decide) | skip
    -- The walk knows no rule for these and ends with a fault.
    case statement | errorStatement | typedefStatement | readFields | writeFields =>
      exact absurd hf (unsupported_stops h)
    case statementList =>
      cases h
      exact .block hk (hlist (Nat.le_refl _) hu hk rfl hf)
    case nop =>
      cases h
      exact .nop hk
    case returnStatement => exact returnStatement_inv hu hk h hf
    case variableDeclaration => exact variableDeclaration_inv hu hk h hf
    case callStatement => exact callStatement_inv hu hk h hf
    case expressionStatement =>
      obtain ⟨cs', c₁, hc, h⟩ := bind_inv h
      obtain ⟨x, c₂, hpause, h⟩ := bind_inv h
      cases h
      obtain ⟨hf₁, rfl⟩ := pauseIfSplit_inv hpause hf
      exact .expression hk (cutsOperands_of_simple hu (by rw [hk]; rfl) hc hf₁)
    case ifElse =>
      obtain ⟨cs', c₁, hc, h⟩ := bind_inv h
      cases h
      obtain ⟨ops, blocks, ops', blocks', c₂, rfl, rfl, h₁, h₂⟩ := hparts (Or.inl hk) hc hf
      exact .branch hk h₁ h₂
    case loop | whileLoop | doWhileLoop | forLoop =>
      have hloops : n.kind.loops = true := by rw [hk]; rfl
      obtain ⟨cs', c₂, p, hc, hf₂, hp, rfl, rfl⟩ := loop_inv h hf
      obtain ⟨ops, blocks, ops', blocks', c₁, rfl, rfl, h₁, h₂⟩ := hparts (Or.inr hloops) hc hf₂
      exact .loop hloops h₁ h₂ hp

theorem cutsStatements_of_statements (hu : ∀ p ∈ cs, p.2.uncut = true)
    (hs : ∀ p ∈ cs, p.2.kind.isA .statement = true) (h : statements (visit.go cs) c = (cs', c'))
    (hf : c'.fault = none) : CutsStatements c cs cs' c' :=
  cutsStatements_of_each
    (fun p hp _ _ _ hv hfv => cutsStatement_of_visit (hu p hp) (hs p hp) hv hfv) h hf

end Resumable.Cutting
