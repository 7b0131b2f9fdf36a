import Resumable.Proofs.Course
import Resumable.Proofs.Walk.Visit

/-!
# Variables that are kept between states

What a walk through a function meets can be read off its tree: `Tree.events` lists the
declarations, the uses, the ends of states and the loops in the order in which they are met. The
walk keeps exactly the variables that these events call for.

* `Cutting.CutsStatement.run`: a walk through a statement runs through its events.
* `Cutting.bodyFrom_keeps_iff`: which variables a walk through a body keeps.
-/

namespace Resumable

open Event List

variable {n m a : Node} {cs as : Children} {c : Cutter} {type : Tree} {r : Role} {e : Event}
  {p : Persistence}

/-! ## The events of a tree -/

namespace Cutting

/-- The events before the children of a node. -/
def beginnings (n : Node) : List Event :=
  match n.kind with
  | .variableDeclaration => [.declare n.id]
  | .loop | .whileLoop | .doWhileLoop | .forLoop => [.enter]
  | _ => []

/-- The events behind the children of a node. -/
def endings (ms : Machines) (splitAll : Bool) (n : Node) (cs : Children) : List Event :=
  match n.kind with
  | .call => if ms.hasStates (n.link? .declaration) then [.cut] else []
  | .variableDeclaration => if splitAll && !startsMachine ms cs then [.cut] else []
  | .expressionStatement => if splitAll then [.cut] else []
  | .callStatement =>
    match cs.lookup .expression with
    | none => []
    | some call =>
      if ms.hasStates (call.node.link? .declaration) then []
      else if call.node.flag .blocking || splitAll then [.cut]
      else []
  | .loop | .whileLoop | .doWhileLoop | .forLoop => [.exit]
  | _ => []

end Cutting

open Cutting

/-- What a walk meets in a tree. Types, literals and empty statements are not visited. -/
def Tree.events (ms : Machines) (splitAll : Bool) : Tree → List Event
  | mk n cs =>
    if n.kind.bare || n.kind = .nop then []
    else if n.kind = .variableUse then (n.link? .declaration).toList.map .use
    else beginnings n ++ (go cs ++ endings ms splitAll n cs)
where
  go : Children → List Event
    | [] => []
    | (_, t) :: rest => t.events ms splitAll ++ go rest

namespace Tree

variable {ms : Machines} {splitAll : Bool}

theorem gathers_events : Gathers (events.go ms splitAll) (·.events ms splitAll) :=
  ⟨rfl, fun _ _ => rfl⟩

@[simp] theorem events_go_append (xs ys : Children) :
    events.go ms splitAll (xs ++ ys) = events.go ms splitAll xs ++ events.go ms splitAll ys :=
  gathers_events.append xs ys

theorem events_bare (hk : n.kind.bare = true) : (mk n cs).events ms splitAll = [] := by
  rw [events, if_pos (by rw [hk]; rfl)]

theorem events_visited (hk : (n.kind.bare || n.kind = .nop || n.kind = .variableUse) = false) :
    (mk n cs).events ms splitAll =
      beginnings n ++ (events.go ms splitAll cs ++ endings ms splitAll n cs) := by
  rw [Bool.or_eq_false_iff] at hk
  rw [events, if_neg (by rw [hk.1]; decide), if_neg (by simpa using hk.2)]

theorem events_use (hk : n.kind = .variableUse) :
    (mk n cs).events ms splitAll = (n.link? .declaration).toList.map .use := by
  rw [events, if_neg (by rw [hk]; decide), if_pos hk]

theorem events_inner (hk : n.kind.inner = true) :
    (mk n cs).events ms splitAll = events.go ms splitAll cs := by
  rw [events]
  unfold beginnings endings
  cases hkind : n.kind <;> rw [hkind] at hk <;>
    first | exact absurd hk (by decide) | simp [Kind.bare]

theorem events_call (hk : n.kind = .call) (ha : a.kind = .argumentList) :
    (mk n [(r, mk a as)]).events ms splitAll = events.go ms splitAll as ++
      (if ms.hasStates (n.link? .declaration) then [cut] else []) := by
  have harg : (mk a as).events ms splitAll = events.go ms splitAll as :=
    events_inner (by rw [ha]; rfl)
  rw [events_visited (by rw [hk]; rfl), events.go, events.go, harg]
  simp [beginnings, endings, hk]

theorem events_plain (hk : n.kind = .statementList ∨ n.kind = .returnStatement ∨ n.kind = .ifElse) :
    (mk n cs).events ms splitAll = events.go ms splitAll cs := by
  rcases hk with hk | hk | hk <;>
    rw [events_visited (by rw [hk]; rfl)] <;> simp [beginnings, endings, hk]

theorem events_declaration (hk : n.kind = .variableDeclaration) :
    (mk n cs).events ms splitAll = declare n.id :: (events.go ms splitAll cs ++
      (if splitAll && !startsMachine ms cs then [cut] else [])) := by
  rw [events_visited (by rw [hk]; rfl)]
  simp [beginnings, endings, hk]

theorem events_expression (hk : n.kind = .expressionStatement) :
    (mk n cs).events ms splitAll =
      events.go ms splitAll cs ++ (if splitAll then [cut] else []) := by
  rw [events_visited (by rw [hk]; rfl)]
  simp [beginnings, endings, hk]

/-- A statement that is a call ends a state if it calls a function with states, if it waits, or if
every statement does. -/
theorem events_callStatement (hk : n.kind = .callStatement) (hm : m.kind = .call)
    (ha : a.kind = .argumentList) :
    (mk n [(.expression, mk m [(r, mk a as)])]).events ms splitAll = events.go ms splitAll as ++
      (if ms.hasStates (m.link? .declaration) || m.flag .blocking || splitAll then [cut]
        else []) := by
  have hend : endings ms splitAll n [(.expression, mk m [(r, mk a as)])] =
      if ms.hasStates (m.link? .declaration) then []
      else if m.flag .blocking || splitAll then [cut] else [] := by
    rw [endings, hk]
    rfl
  rw [events_visited (by rw [hk]; rfl), events.go, events.go, events_call hm ha, hend]
  cases ms.hasStates (m.link? .declaration) <;> simp [beginnings, hk]

theorem events_loop (hk : n.kind.loops = true) :
    (mk n cs).events ms splitAll = enter :: (events.go ms splitAll cs ++ [exit]) := by
  rw [events]
  unfold beginnings endings
  cases hkind : n.kind <;> rw [hkind] at hk <;> first | exact absurd hk (by decide) | rfl

theorem opens_beginnings (hk : n.kind.loops = false) (he : e ∈ beginnings n) : e.opens = 0 := by
  unfold beginnings at he
  cases hkind : n.kind <;> rw [hkind] at hk he <;> cases hk
  case variableDeclaration =>
    rw [mem_singleton.mp he]
    rfl
  all_goals cases he

theorem opens_endings (hk : n.kind.loops = false) (he : e ∈ endings ms splitAll n cs) :
    e.opens = 0 := by
  have hcut : ∀ {b : Bool}, e ∈ (if b = true then [cut] else []) → e.opens = 0 := by
    intro b he
    split at he
    · rw [mem_singleton.mp he]
      rfl
    · cases he
  unfold endings at he
  cases hkind : n.kind <;> rw [hkind] at hk he <;> cases hk
  case call | variableDeclaration | expressionStatement => exact hcut he
  case callStatement =>
    dsimp only at he
    split at he
    · cases he
    · split at he
      · cases he
      · exact hcut he
  all_goals cases he

/-- The loops of a tree end in it. -/
theorem balanced_events (t : Tree) : Balanced (t.events ms splitAll) := by
  induction t using Tree.ofSmaller with
  | step t ih =>
    obtain ⟨n, cs⟩ := t
    -- Lists of children come up in several places, so they are done for any part of the list.
    have hgo : ∀ {ds : Children}, (∀ p ∈ ds, p ∈ cs) →
        Balanced (events.go ms splitAll ds) := by
      intro ds hds
      induction ds with
      | nil => exact balanced_nil
      | cons p ds ih' =>
        obtain ⟨r, t⟩ := p
        obtain ⟨ht, hrest⟩ := forall_mem_cons.mp hds
        exact (ih t (sizeOf_child ht)).append (ih' hrest)
    have hcs := hgo fun p hp => hp
    by_cases hk : n.kind.loops = true
    · rw [events_loop hk]
      exact hcs.loop
    · rw [events]
      split
      · exact balanced_nil
      split
      · refine balanced_of_flat fun e he => ?_
        obtain ⟨v, -, rfl⟩ := mem_map.mp he
        rfl
      · have hk : n.kind.loops = false := by simpa using hk
        exact (balanced_of_flat fun e he => opens_beginnings hk he).append
          (hcs.append (balanced_of_flat fun e he => opens_endings hk he))

end Tree

namespace Cutting

open Resumable.Tree

/-! ## A walk runs through the events -/

/-- What a cutter knows of the variables, and its state. -/
def moment (c : Cutter) : Moment := ⟨c.persistence, c.states⟩

theorem run_append_of {m m₁ m₂ : Moment} {xs ys : List Event} (h : m.run xs = .ok m₁)
    (h' : m₁.run ys = .ok m₂) : m.run (xs ++ ys) = .ok m₂ := by
  rw [Moment.run_append, h]
  exact h'

theorem run_declared {es : List Event} {m : Moment}
    (hp : c.persistence.declare n.id c.states = .ok p)
    (h : (moment { c with persistence := p }).run es = .ok m) :
    (moment c).run (declare n.id :: es) = .ok m := by
  simp only [Moment.run, Moment.step, moment, hp]
  exact h

theorem run_ended (hp : c.persistence.endLoop c.states = .ok p) :
    (moment c).run [exit] = .ok (moment { c with persistence := p }) := by
  simp only [Moment.run, Moment.step, moment, hp]
  rfl

theorem run_paused (o : Origin) (c : Cutter) :
    (moment c).run (if c.splitAll then [cut] else []) = .ok (moment (paused o c)) := by
  unfold paused
  split <;> rfl

mutual

/-- A walk through an operand runs through its events. A call that is taken out is the end of a
state. -/
theorem CutsOperand.run {stmt : Origin} {c c' : Cutter} {t t' : Tree}
    (h : CutsOperand stmt c t t' c') :
    (moment c).run (t.events c.machines c.splitAll) = .ok (moment c') :=
  match h with
  | .bare hk => by
    rw [events_bare hk]
    rfl
  | @CutsOperand.use _ _ n _ hk => by
    rw [events_use hk]
    cases hl : n.link? .declaration with
    | none => rfl
    | some v => rfl
  | .inner hk h => by
    rw [events_inner hk]
    exact h.run
  | .call hk ha h hm | .taken hk ha h hm => by
    rw [h.later.machines] at hm
    rw [events_call hk ha, hm]
    exact run_append_of h.run rfl

theorem CutsOperands.run {stmt : Origin} {c c' : Cutter} {cs cs' : Children}
    (h : CutsOperands stmt c cs cs' c') :
    (moment c).run (events.go c.machines c.splitAll cs) = .ok (moment c') :=
  match h with
  | .nil => rfl
  | .cons h hs => by
    have hrest := hs.run
    rw [h.later.machines, h.later.splitAll] at hrest
    exact run_append_of h.run hrest

end

theorem bare_type (hu : (mk n ((.declaredType, type) :: cs)).uncut = true)
    (hk : n.kind = .variableDeclaration) : type.kind.bare = true := by
  have hf := uncut_fills hu
  simp only [hk, Kind.slots] at hf
  obtain ⟨t, rest, heq, ht, -⟩ := fills_one rfl hf
  cases heq
  revert ht
  cases type.kind <;> decide

theorem bare_child (hu : (mk n cs).uncut = true) (hk : n.kind.bare = true ∨ n.kind = .nop) :
    ∀ p ∈ cs, p.2.kind.bare = true := by
  intro p hp
  obtain ⟨s, hs, -, hfit⟩ := fills_mem (uncut_fills hu) p hp
  have htype : s.allowed = .typeRef := by
    cases hkind : n.kind <;> simp only [hkind, Kind.bare, Bool.false_eq_true, reduceCtorEq,
      or_self, or_false, or_true] at hk <;> simp [hkind, Kind.slots] at hs
    rw [hs]
  rw [htype] at hfit
  revert hfit
  cases p.2.kind <;> decide

theorem events_type {ms : Machines} {splitAll : Bool}
    (hu : (mk n ((.declaredType, type) :: cs)).uncut = true) (hk : n.kind = .variableDeclaration) :
    type.events ms splitAll = [] := by
  have hbare := bare_type hu hk
  obtain ⟨m, ds⟩ := type
  exact events_bare hbare

theorem startsMachine_call {ms : Machines} {ds : Children} (hk : m.kind = .call)
    (hm : ms.hasStates (m.link? .declaration) = true) :
    startsMachine ms [(.declaredType, type), (.initializer, .mk m ds)] = true := by
  have hboth : (m.kind == .call && ms.hasStates (m.link? .declaration)) = true := by
    rw [hk, hm]
    rfl
  exact hboth

mutual

/-- A walk through a statement runs through its events. -/
theorem CutsStatement.run {c c' : Cutter} {t t' : Tree} (h : CutsStatement c t t' c')
    (hu : t.uncut = true) : (moment c).run (t.events c.machines c.splitAll) = .ok (moment c') :=
  -- One case for each rule, in which the state changes as often as states end among the events.
  match h with
  | .nop hk => by
    rw [events, if_pos (by rw [hk]; decide)]
    rfl
  | .block hk h => by
    rw [events_plain (.inl hk)]
    exact h.run fun p hp => uncut_child hu hp
  | @CutsStatement.declaration _ c₁ n _ _ _ hk hp hm h => by
    have hpause := run_paused n.origin c₁
    rw [h.later.splitAll] at hpause
    rw [events_declaration hk, hm, Bool.not_false, Bool.and_true]
    exact run_declared hp (run_append_of h.run hpause)
  | .machineDeclaration hk hp hcall ha hm h => by
    rw [events_declaration hk, events.go, events.go, events.go, events_type hu hk,
      events_call hcall ha, startsMachine_call hcall hm, hm, Bool.not_true, Bool.and_false,
      nil_append, append_nil]
    exact run_declared hp (run_append_of (run_append_of h.run rfl) rfl)
  | @CutsStatement.expression _ c₁ n _ _ hk h => by
    have hpause := run_paused n.origin c₁
    rw [h.later.splitAll] at hpause
    rw [events_expression hk]
    exact run_append_of h.run hpause
  | @CutsStatement.call _ c₁ n _ _ _ _ hk hcall ha h hm hb => by
    have hpause := run_paused n.origin c₁
    rw [h.later.splitAll] at hpause
    rw [h.later.machines] at hm
    rw [events_callStatement hk hcall ha, hm, Node.flag, hb]
    exact run_append_of h.run hpause
  | .machineCall hk hcall ha h hm => by
    rw [h.later.machines] at hm
    rw [events_callStatement hk hcall ha, hm]
    exact run_append_of h.run rfl
  | .wait hk hcall ha h hm hb hw => by
    rw [h.later.machines] at hm
    rw [events_callStatement hk hcall ha, hm, Node.flag, hb]
    exact run_append_of h.run rfl
  | .branch hk h₁ h₂ => by
    have hblocks := h₂.run fun p hp => uncut_child hu (mem_append_right _ hp)
    rw [h₁.later.machines, h₁.later.splitAll] at hblocks
    rw [events_plain (.inr (.inr hk)), events_go_append]
    exact run_append_of h₁.run hblocks
  | .loop hk h₁ h₂ hp => by
    have hblocks := h₂.run fun p hp => uncut_child hu (mem_append_right _ hp)
    rw [h₁.later.machines, h₁.later.splitAll] at hblocks
    rw [events_loop hk, events_go_append]
    exact run_append_of (run_append_of h₁.run hblocks) (run_ended hp)
  | @CutsStatement.leave _ c₁ _ _ _ o hk h => by
    have hreset : moment (wasReset o c₁) = moment c₁ := by
      unfold wasReset
      split <;> rfl
    rw [events_plain (.inr (.inl hk)), hreset]
    exact h.run

theorem CutsStatements.run {c c' : Cutter} {cs cs' : Children}
    (h : CutsStatements c cs cs' c') (hu : ∀ p ∈ cs, p.2.uncut = true) :
    (moment c).run (events.go c.machines c.splitAll cs) = .ok (moment c') :=
  match h with
  | .nil => rfl
  | .cons h hs => by
    obtain ⟨ht, hrest⟩ := forall_mem_cons.mp hu
    have htail := hs.run hrest
    dsimp only at htail
    rw [h.later.machines, h.later.splitAll] at htail
    exact run_append_of (h.run ht) htail

theorem CutsBlocks.run {c c' : Cutter} {cs cs' : Children} (h : CutsBlocks c cs cs' c')
    (hu : ∀ p ∈ cs, p.2.uncut = true) :
    (moment c).run (events.go c.machines c.splitAll cs) = .ok (moment c') :=
  match h with
  | .nil => rfl
  | .cons hk h hs => by
    obtain ⟨ht, hrest⟩ := forall_mem_cons.mp hu
    have htail := hs.run hrest
    rw [h.later.machines, h.later.splitAll] at htail
    have hblock := h.run fun p hp => uncut_child ht hp
    refine run_append_of ?_ htail
    rw [events_plain (.inl hk)]
    exact hblock

end

/-! ## Which variables are kept -/

theorem balanced_go (ms : Machines) (splitAll : Bool) (cs : Children) :
    Balanced (events.go ms splitAll cs) := by
  induction cs with
  | nil => exact balanced_nil
  | cons p cs ih =>
    obtain ⟨r, t⟩ := p
    exact (balanced_events t).append ih

theorem run_bodyFrom {body : Tree} {skip : Nat} (hu : body.uncut = true)
    (hk : body.kind = .statementList) (hf : (bodyFrom skip body c).2.fault = none) :
    (moment c).run (events.go c.machines c.splitAll (body.children.drop skip)) =
      .ok (moment (bodyFrom skip body c).2) := by
  obtain ⟨b, cs⟩ := body
  have huncut : ∀ p ∈ cs.drop skip, p.2.uncut = true := fun p hp =>
    uncut_child hu (mem_of_mem_drop hp)
  have hstmt : ∀ p ∈ cs.drop skip, p.2.kind.isA .statement = true := fun p hp =>
    (uncut_block hu hk p (mem_of_mem_drop hp)).2
  exact (cutsStatements_of_statements huncut hstmt rfl hf).run huncut

/-- The cutter when it comes to the statements of a function. -/
def entered (c : Cutter) : Cutter := { c with states := 0, persistence := {} }

/-- A walk keeps exactly the variables that its events call for: those with a use behind the end of
their state, or with a use whose innermost loop is interrupted. So a variable that is declared
before a loop and used in it, outside of the loops in the loop, is kept if a state ends in the
loop. -/
theorem bodyFrom_keeps_iff {body : Tree} {c : Cutter} {skip : Nat} (hu : body.uncut = true)
    (hk : body.kind = .statementList)
    (hf : (bodyFrom skip body (entered c)).2.fault = none) :
    let es := events.go c.machines c.splitAll (body.children.drop skip)
    let c' := (bodyFrom skip body (entered c)).2
    c'.states = es.count cut ∧ (∀ v, v ∈ c'.persistence.kept ↔ Outlives es v) ∧
      ∀ xs ys zs us vs v, es = xs ++ enter :: ys ++ exit :: zs → Balanced ys →
        declare v ∈ xs → ys = us ++ use v :: vs → Balanced us → cut ∈ ys →
        v ∈ c'.persistence.kept := by
  intro es c'
  have hrun := run_bodyFrom hu hk hf
  have hkept : ∀ v, v ∈ c'.persistence.kept ↔ Outlives es v := fun v =>
    mem_kept_iff (balanced_go _ _ _) hrun
  refine ⟨?_, hkept, ?_⟩
  · exact (Moment.state_run hrun).trans (Nat.zero_add _)
  · rintro xs ys zs us vs v hes hys hd rfl hus hcut
    rw [hkept, hes]
    exact outlives_of_loop hd hus hys hcut

/-- In the example, the counter of the inner loop is kept if every statement ends a state. -/
theorem bodyFrom_keeps_counter :
    let c := entered (Sample.cutter true)
    Sample.body.uncut = true ∧ (bodyFrom 0 Sample.body c).2.fault = none ∧
      20 ∈ (bodyFrom 0 Sample.body c).2.persistence.kept := by
  refine ⟨by decide, by decide +kernel, ?_⟩
  have hkept := (@bodyFrom_keeps_iff Sample.body (Sample.cutter true) 0 (by decide) rfl
    (by decide +kernel)).2.2
  exact hkept [declare 20, cut, enter, use 17] [use 20, use 20, cut] [use 17, cut, exit] []
    [use 20, cut] 20 (by decide +kernel) (balanced_of_flat (by decide)) (by decide) rfl
    balanced_nil (by decide)

/-- A use in an inner loop does not count for the loop around it. In the example, the counter is
declared before the outer loop and used in the loop within it, and a state ends in the outer loop.
The counter is not kept all the same. -/
theorem inner_use_forgotten :
    let c := entered (Sample.cutter false)
    let es := events.go c.machines c.splitAll Sample.body.children
    let c' := (bodyFrom 0 Sample.body c).2
    Sample.body.uncut = true ∧ c'.fault = none ∧
      ∃ xs ys zs v, es = xs ++ enter :: ys ++ exit :: zs ∧ Balanced ys ∧ declare v ∈ xs ∧
        use v ∈ ys ∧ cut ∈ ys ∧ v ∉ c'.persistence.kept := by
  refine ⟨by decide, by decide +kernel, [declare 20],
    [use 17] ++ (enter :: [use 20, use 20] ++ [exit]) ++ [use 17, cut], [], 20, by decide +kernel,
    ?_, by decide, by decide, by decide, by decide +kernel⟩
  have hinner : Balanced [use 20, use 20] := balanced_of_flat (by decide)
  exact ((balanced_of_flat (by decide)).append hinner.loop).append (balanced_of_flat (by decide))

end Cutting

end Resumable
