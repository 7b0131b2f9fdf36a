import Resumable.Proofs.Meaning
import Resumable.Proofs.Sparse

/-!
# Arguments that are evaluated again

A function that is called again behind a label evaluates some arguments once more: the first one of
a wait for a transfer, and all of a call of a function with states.

* `Tree.Tames`: a tree uses no more variables than another one and changes nothing if that does not.
* `Event.Safe.outlives`: a variable that is declared and safe outlives a return of the function.
* `Cutting.CutsOperand.recalls`: what a call that was taken out evaluates again are its arguments,
  and their variables are used before the label.
-/

namespace Resumable

open List hiding iterate

open Job Event

variable {ms : Machines} {v : NodeId} {cs as : Children} {n a : Node} {es xs ys : List Event}
  {t e : Tree} {splitAll : Bool} {r : Role}

/-! ## Arguments that are evaluated again -/

/-- Whether the node assigns to its target. -/
def Node.changes (n : Node) : Bool := n.kind != .addressOf && n.target?.isSome

namespace Tree

/-- Whether nothing in a tree assigns to a variable. -/
def calm : Tree → Bool
  | mk n cs => !n.changes && go cs
where
  go : Children → Bool
    | [] => true
    | (_, t) :: rest => t.calm && go rest

/-- The arguments that are evaluated again behind the labels of a tree. A call behind the label of
a cut before it is the operand of the next statement. -/
def again : Tree → List Tree
  | mk n cs =>
    match n.kind with
    | .papiWait => (argumentsOf (mk n cs)).take 1
    | .callSub => ((mk n cs).child? .expression).toList.flatMap argumentsOf
    | .statementList | .ifElse | .whileLoop | .doWhileLoop | .forLoop => inList false cs
    | _ => []
where
  /-- Those in a list, of which the first statement stands behind a label or not. -/
  inList : Bool → Children → List Tree
    | _, [] => []
    | resumed, (_, t) :: rest =>
      (if resumed then (run t).operands.flatMap argumentsOf else []) ++
        (t.again ++ inList (t.kind == .beforeSub) rest)

/-- Whether what stands behind a list stands behind the label of a cut before a call. -/
def resumes : Bool → Children → Bool
  | resumed, [] => resumed
  | _, (_, t) :: rest => resumes (t.kind == .beforeSub) rest

/-- The arguments that a list evaluates again, part by part. -/
theorem again_append (resumed : Bool) (xs ys : Children) :
    again.inList resumed (xs ++ ys) =
      again.inList resumed xs ++ again.inList (resumes resumed xs) ys := by
  induction xs generalizing resumed with
  | nil => rfl
  | cons p xs ih =>
    obtain ⟨r, t⟩ := p
    simp only [cons_append, again.inList, resumes, ih, append_assoc]

theorem resumes_append (resumed : Bool) (xs ys : Children) :
    resumes resumed (xs ++ ys) = resumes (resumes resumed xs) ys := by
  induction xs generalizing resumed with
  | nil => rfl
  | cons p xs ih => exact ih _

/-- A statement that holds no others has nothing to repeat but waits and calls that were taken
out. -/
theorem again_of_plain (hk : t.kind.plain = true ∨ t.kind = .returnStatement)
    (hc : t.kind.cuts = false) : t.again = [] := by
  obtain ⟨n, cs⟩ := t
  have hk : n.kind.plain = true ∨ n.kind = .returnStatement := hk
  have hc : n.kind.cuts = false := hc
  rw [again]
  cases hkind : n.kind <;> rw [hkind] at hk hc <;> simp_all [Kind.plain, Kind.cuts]

theorem mem_again_of_blocks (hk : n.kind = .ifElse ∨ n.kind.loops = true)
    (he : e ∈ (mk n cs).again) :
    e ∈ again.inList false cs := by
  rw [again] at he
  split at he
  · next h => simp [h, Kind.loops] at hk
  · next h => simp [h, Kind.loops] at hk
  · exact he
  · exact he
  · exact he
  · exact he
  · exact he
  · cases he

theorem mem_calm_go : calm.go cs = true ↔ ∀ p ∈ cs, p.2.calm = true :=
  go_iff rfl fun _ _ => rfl

/-- The only targets of a calm tree are those whose address is taken. -/
theorem addressed_of_target (h : t.calm = true) (hv : v ∈ t.targets) : v ∈ t.addressed := by
  induction t using ofChildren with
  | step n cs ih =>
    rw [calm, Bool.and_eq_true] at h
    rw [targets, mem_append] at hv
    rw [addressed, mem_append]
    rcases hv with hv | hv
    · refine Or.inl ?_
      cases htarget : n.target? with
      | none =>
        rw [htarget] at hv
        cases hv
      | some r =>
        -- A calm node with a target takes its address.
        have hkind : n.kind = .addressOf := by simpa [Node.changes, htarget] using h.1
        have hr : r = .expression := by
          rw [Node.target?, hkind] at htarget
          exact (Option.some.inj htarget).symm
        rw [htarget, hr] at hv
        rwa [if_pos hkind]
    · obtain ⟨p, hp, hv⟩ := gathers_targets.mem.mp hv
      exact Or.inr (gathers_addressed.mem.mpr ⟨p, hp, ih p hp (mem_calm_go.mp h.2 p hp) hv⟩)

end Tree

/-! ## Variables that were just declared -/

namespace Event

/-- The variables that were declared since the last label. -/
def young : List NodeId → List Event → List NodeId
  | vs, [] => vs
  | vs, declare v :: es => young (v :: vs) es
  | _, cut :: es => young [] es
  | vs, _ :: es => young vs es

theorem young_append (vs : List NodeId) (xs ys : List Event) :
    young vs (xs ++ ys) = young (young vs xs) ys := by
  induction xs generalizing vs with
  | nil => rfl
  | cons e xs ih => cases e <;> exact ih _

/-- Whether every use of a variable stands behind its declaration. -/
def ordered : List Event → Bool
  | [] => true
  | use v :: es => !es.contains (declare v) && ordered es
  | _ :: es => ordered es

theorem ordered_right (h : ordered (xs ++ ys) = true) : ordered ys = true := by
  induction xs with
  | nil => exact h
  | cons e xs ih =>
    refine ih ?_
    cases e with
    | use u =>
      rw [cons_append, ordered, Bool.and_eq_true] at h
      exact h.2
    | declare u | cut | enter | exit => exact h

/-- In an ordered course a variable is declared before it is used. -/
theorem declared_before {before behind : List Event}
    (h : ordered (before ++ use v :: behind) = true) (hv : declare v ∈ before ++ use v :: behind) :
    declare v ∈ before := by
  have hbehind := ordered_right h
  rw [ordered, Bool.and_eq_true, Bool.not_eq_true'] at hbehind
  rcases mem_append.mp hv with hv | hv
  · exact hv
  · rcases mem_cons.mp hv with hv | hv
    · cases hv
    · have hcontains : behind.contains (declare v) = true := contains_iff_mem.mpr hv
      rw [hbehind.1] at hcontains
      cases hcontains

/-- A variable that is not young was declared before the last label. -/
theorem behind_of_not_young (hd : declare v ∈ es) (hy : v ∉ young [] es) : Behind v es := by
  -- the declaration that comes last decides
  have hlast : ∀ {es : List Event} {vs : List NodeId}, v ∈ vs → v ∉ young vs es →
      cut ∈ es := by
    intro es
    induction es with
    | nil => exact fun hv hn => absurd hv hn
    | cons e es ih =>
      intro vs hv hn
      cases e with
      | cut => exact mem_cons_self
      | declare u => exact mem_cons_of_mem _ (ih (mem_cons_of_mem _ hv) hn)
      | use u | enter | exit => exact mem_cons_of_mem _ (ih hv hn)
  obtain ⟨xs, ys, rfl⟩ := append_of_mem hd
  refine ⟨xs, ys, rfl, ?_⟩
  rw [young_append] at hy
  exact hlast mem_cons_self hy

/-- The course is inside of a loop. -/
def Open (es : List Event) : Prop := ∃ xs ys, es = xs ++ enter :: ys ∧ Balanced ys

theorem Open.append {fs : List Event} (h : Open es) (hf : Balanced fs) : Open (es ++ fs) := by
  obtain ⟨xs, ys, rfl, hys⟩ := h
  exact ⟨xs, ys ++ fs, by simp, hys.append hf⟩

/-- Some use of a variable calls for it to be kept, if it was declared before. -/
def Safe (es : List Event) (v : NodeId) : Prop :=
  ∃ before behind, es = before ++ use v :: behind ∧
    (v ∉ young [] before ∨ Interrupted before behind)

theorem Safe.append (h : Safe es v) (fs : List Event) : Safe (es ++ fs) v := by
  obtain ⟨before, behind, rfl, h⟩ := h
  refine ⟨before, behind ++ fs, by simp, h.imp_right ?_⟩
  rintro ⟨xs, ys, hb, hy, hcut⟩
  refine ⟨xs, ys, hb, hy, hcut.imp_right ?_⟩
  rintro ⟨us, vs, rfl, hus⟩
  exact ⟨us, vs ++ fs, by simp, hus⟩

theorem Safe.outlives (h : Safe es v) (hs : ordered es = true) (hd : declare v ∈ es) :
    Outlives es v := by
  obtain ⟨before, behind, rfl, h⟩ := h
  have hbefore := declared_before hs hd
  exact ⟨before, behind, rfl, hbefore, h.imp_left (behind_of_not_young hbefore)⟩

/-- The course of an expression: it neither declares nor enters anything. -/
def Flat (es : List Event) : Prop := ∀ e ∈ es, e = cut ∨ ∃ v, e = use v

theorem Flat.balanced (h : Flat es) : Balanced es :=
  balanced_of_flat fun e he => by rcases h e he with rfl | ⟨v, rfl⟩ <;> rfl

/-- In an expression no variable gets young. -/
theorem Flat.young (h : Flat es) {vs : List NodeId} (hv : v ∈ Event.young vs es) : v ∈ vs := by
  induction es generalizing vs with
  | nil => exact hv
  | cons e es ih =>
    obtain ⟨he, hes⟩ := forall_mem_cons.mp h
    rcases he with rfl | ⟨u, rfl⟩
    · exact absurd (ih hes hv) (not_mem_nil)
    · exact ih hes hv

/-- A use in operands that has a label behind it is safe if the variable was not just declared or if
a loop is open. -/
theorem safe_of_use {pre : List Event} {loop : Bool} (hf : Flat (xs ++ use v :: ys))
    (hcut : cut ∈ ys) (hopen : loop = true → Open pre) (hv : loop = true ∨ v ∉ young [] pre) :
    Safe (pre ++ (xs ++ use v :: ys)) v := by
  have hxs : Flat xs := fun e he => hf e (mem_append_left _ he)
  refine ⟨pre ++ xs, ys, by simp, ?_⟩
  rcases hv with hloop | hv
  · obtain ⟨as, bs, hab, hbs⟩ := (hopen hloop).append hxs.balanced
    obtain ⟨us, vs, rfl⟩ := append_of_mem hcut
    have hus : Flat us := fun e he => hf e (by simp [he])
    exact Or.inr ⟨as, bs, hab, hbs, Or.inr ⟨us, vs, rfl, hus.balanced.1⟩⟩
  · refine Or.inl fun hyoung => hv ?_
    rw [young_append] at hyoung
    exact hxs.young hyoung

end Event

/-! ## Arguments in the source -/

namespace Tree

/-- The arguments of the outermost calls of functions with states in an operand. -/
def recalled (ms : Machines) : Tree → List Tree
  | mk n cs =>
    if n.kind = .call ∧ ms.hasStates (n.link? .declaration) = true then cs.map (·.2) else go cs
where
  go : Children → List Tree
    | [] => []
    | (_, t) :: rest => t.recalled ms ++ go rest

/-- The first argument of a call that waits for a transfer. -/
def awaited (c : Cutter) (call : Tree) : List Tree :=
  if call.node.flag .blocking && !sleeps c call.node then
    call.children.flatMap fun q => (firstArgument q.2.children).map (·.2)
  else []

/-- The operands of a statement that are evaluated again. -/
def recalledHere (c : Cutter) (n : Node) (cs : Children) : List Tree :=
  recalled.go c.machines (operandsIn cs) ++
    if n.kind = .callStatement then cs.flatMap fun p => awaited c p.2 else []

/-- Whether a statement assigns to nothing in what is evaluated again, and uses no variable there
that was just declared, unless the variable is kept for another use or the statement is in a
loop. -/
def carefulHere (c : Cutter) (kept : List NodeId) (loop : Bool) (vs : List NodeId) (n : Node)
    (cs : Children) : Bool :=
  (recalledHere c n cs).all fun e =>
    e.calm && (loop || e.uses.all fun v => !vs.contains v || kept.contains v)

/-- Whether all statements are so, if some variables were just declared before them. -/
def careful (c : Cutter) (kept : List NodeId) : Bool → List NodeId → Tree → Bool
  | loop, vs, mk n cs =>
    (n.kind == .statementList ||
        carefulHere c kept (loop || n.kind.loops) (young vs (Cutting.beginnings n)) n cs) &&
      go (n.kind == .statementList) (loop || n.kind.loops) (young vs (Cutting.beginnings n)) cs
where
  go (all loop : Bool) : List NodeId → Children → Bool
    | _, [] => true
    | vs, (_, t) :: rest =>
      (!(all || t.kind == .statementList) || t.careful c kept loop vs) &&
        go all loop (young vs (t.events c.machines c.splitAll)) rest

theorem gathers_recalled : Gathers (recalled.go ms) (recalled ms) := ⟨rfl, fun _ _ => rfl⟩

/-- What a source uses is used in its course. -/
theorem use_mem_events (hu : t.uncut = true) (hv : v ∈ t.uses) : use v ∈ t.events ms splitAll := by
  induction t using ofChildren with
  | step n cs ih =>
    have hchild : v ∈ uses.go cs → ∃ p ∈ cs, use v ∈ p.2.events ms splitAll := by
      intro hv
      obtain ⟨p, hp, hv⟩ := gathers_uses.mem.mp hv
      exact ⟨p, hp, ih p hp (uncut_child hu hp) hv⟩
    rw [events]
    split
    · next hk =>
      -- Types and literals hold no uses.
      have hk : n.kind.bare = true ∨ n.kind = .nop := by simpa using hk
      have hne : n.kind ≠ .variableUse := by
        intro h
        rw [h] at hk
        simp [Kind.bare] at hk
      rw [uses, if_neg hne, nil_append] at hv
      obtain ⟨⟨r, ⟨m, ds⟩⟩, hp, he⟩ := hchild hv
      have hbare : m.kind.bare = true := Cutting.bare_child hu hk _ hp
      change use v ∈ (mk m ds).events ms splitAll at he
      rw [events_bare hbare] at he
      cases he
    split
    · next hk =>
      have hf := uncut_fills hu
      simp only [hk, Kind.slots] at hf
      obtain rfl := fills_nil hf
      rw [uses, if_pos hk, uses.go, append_nil] at hv
      exact mem_map_of_mem hv
    · next hk =>
      rw [uses, if_neg hk, nil_append] at hv
      exact mem_append_right _ (mem_append_left _ (gathers_events.mem.mpr (hchild hv)))

theorem use_mem_events_go (hu : ∀ p ∈ cs, p.2.uncut = true) (hv : v ∈ uses.go cs) :
    use v ∈ events.go ms splitAll cs := by
  obtain ⟨p, hp, hv⟩ := gathers_uses.mem.mp hv
  exact gathers_events.mem.mpr ⟨p, hp, use_mem_events (hu p hp) hv⟩

/-- A tree with no more uses than another one, and no assignments if it has none. -/
def Tames (t t' : Tree) : Prop :=
  (∀ v ∈ t'.uses, v ∈ t.uses) ∧ (t.calm = true → t'.calm = true)

theorem Tames.refl (t : Tree) : Tames t t := ⟨fun _ h => h, fun h => h⟩

theorem Tames.trans {t' t'' : Tree} (h : Tames t t') (h' : Tames t' t'') : Tames t t'' :=
  ⟨fun v hv => h.1 v (h'.1 v hv), fun hc => h'.2 (h.2 hc)⟩

theorem tames_child {p : Role × Tree} (hp : p ∈ cs) : Tames (mk n cs) p.2 := by
  refine ⟨fun v hv => mem_append_right _ (gathers_uses.mem.mpr ⟨p, hp, hv⟩), fun hc => ?_⟩
  rw [calm, Bool.and_eq_true] at hc
  exact mem_calm_go.mp hc.2 p hp

theorem tames_of_children {cs' : Children} (hu : ∀ v ∈ uses.go cs', v ∈ uses.go cs)
    (hc : calm.go cs = true → calm.go cs' = true) : Tames (mk n cs) (mk n cs') := by
  constructor
  · intro v hv
    rw [uses, mem_append] at hv ⊢
    exact hv.imp_right (hu v)
  · intro h
    rw [calm, Bool.and_eq_true] at h ⊢
    exact ⟨h.1, hc h.2⟩

theorem recalled_go_tames (ih : ∀ p ∈ cs, ∀ r ∈ p.2.recalled ms, Tames p.2 r) :
    ∀ r ∈ recalled.go ms cs, Tames (mk n cs) r := by
  intro r hr
  obtain ⟨p, hp, hr⟩ := gathers_recalled.mem.mp hr
  exact (tames_child hp).trans (ih p hp r hr)

theorem recalled_call (ha : a.kind = .argumentList)
    (hm : ms.hasStates (n.link? .declaration) = false) :
    (mk n [(r, mk a as)]).recalled ms = recalled.go ms as := by
  rw [recalled, if_neg (by simp [hm]), recalled.go, recalled.go, append_nil, recalled,
    if_neg (by simp [ha])]

theorem recalled_of_states (hk : n.kind = .call) (hm : ms.hasStates (n.link? .declaration) = true) :
    (mk n [(r, mk a as)]).recalled ms = [mk a as] := by
  rw [recalled, if_pos ⟨hk, hm⟩]
  rfl

/-- What is evaluated again is a part of the statement. -/
theorem recalled_tames {r : Tree} (hr : r ∈ t.recalled ms) : Tames t r := by
  induction t using ofChildren generalizing r with
  | step n cs ih =>
    rw [recalled] at hr
    split at hr
    · obtain ⟨p, hp, rfl⟩ := mem_map.mp hr
      exact tames_child hp
    · exact recalled_go_tames (fun p hp r hr => ih p hp hr) r hr

end Tree

open Resumable.Tree

namespace Cutting

/-! ## Operands -/

mutual

/-- Cutting an operand brings neither uses nor assignments. -/
theorem CutsOperand.tames {stmt : Origin} {c c' : Cutter} {t t' : Tree}
    (h : CutsOperand stmt c t t' c') : Tames t t' :=
  match h with
  | .bare _ => .refl _
  | .use _ => .refl _
  | .inner _ h => tames_of_children h.tames.1 h.tames.2
  | .call _ _ h _ => by
    have hargs : ∀ {a : Node} {as as' : Children}, (∀ v ∈ uses.go as', v ∈ uses.go as) →
        (calm.go as = true → calm.go as' = true) → Tames (Tree.mk a as) (Tree.mk a as') :=
      tames_of_children
    refine tames_of_children (fun v hv => ?_) fun hc => ?_
    · rw [uses.go, uses.go, append_nil] at hv ⊢
      exact (hargs h.tames.1 h.tames.2).1 v hv
    · rw [calm.go, calm.go, Bool.and_true] at hc ⊢
      exact (hargs h.tames.1 h.tames.2).2 hc
  | .taken _ _ _ _ => by
    refine ⟨fun v hv => ?_, fun _ => rfl⟩
    cases hv

theorem CutsOperands.tames {stmt : Origin} {c c' : Cutter} {cs cs' : Children}
    (h : CutsOperands stmt c cs cs' c') :
    (∀ v ∈ uses.go cs', v ∈ uses.go cs) ∧ (calm.go cs = true → calm.go cs' = true) :=
  match h with
  | .nil => ⟨fun _ h => h, fun h => h⟩
  | .cons h hs => by
    obtain ⟨hu, hc⟩ := h.tames
    obtain ⟨hus, hcs⟩ := hs.tames
    constructor
    · intro v hv
      rw [uses.go, mem_append] at hv ⊢
      exact hv.imp (hu v) (hus v)
    · intro hcalm
      rw [calm.go, Bool.and_eq_true] at hcalm ⊢
      exact ⟨hc hcalm.1, hcs hcalm.2⟩

end

mutual

/-- The course of an operand is that of an expression. -/
theorem CutsOperand.flat {stmt : Origin} {c c' : Cutter} {t t' : Tree}
    (h : CutsOperand stmt c t t' c') {ms : Machines} {splitAll : Bool} :
    Flat (t.events ms splitAll) :=
  match h with
  | .bare hk => by
    rw [events_bare hk]
    exact fun _ he => by cases he
  | .use hk => by
    rw [events_use hk]
    intro e he
    obtain ⟨v, -, rfl⟩ := mem_map.mp he
    exact Or.inr ⟨v, rfl⟩
  | .inner hk h => by
    rw [events_inner hk]
    exact h.flat
  | .call hk ha h _ | .taken hk ha h _ => by
    rw [events_call hk ha]
    intro e he
    rcases mem_append.mp he with he | he
    · exact h.flat e he
    · split at he
      · exact Or.inl (mem_singleton.mp he)
      · cases he

theorem CutsOperands.flat {stmt : Origin} {c c' : Cutter} {cs cs' : Children}
    (h : CutsOperands stmt c cs cs' c') {ms : Machines} {splitAll : Bool} :
    Flat (events.go ms splitAll cs) :=
  match h with
  | .nil => fun _ he => by cases he
  | .cons h hs => fun e he =>
    (mem_append.mp he).elim (h.flat e) (hs.flat e)

end

/-- What is evaluated again behind a label before a statement comes from what is evaluated again in
its operands, and is met before the label. -/
def Recalls (es : List Event) (rs : List Tree) (b : Tree) : Prop :=
  b.kind = .callSub ∧ ∀ e ∈ b.again, ∃ r ∈ rs, Tames r e ∧
    ∀ v ∈ e.uses, ∃ xs ys, es = xs ++ Event.use v :: ys ∧ cut ∈ ys

theorem Recalls.mono {rs rs' : List Tree} {b : Tree} (h : Recalls es rs b) (fs gs : List Event)
    (hr : ∀ r ∈ rs, ∃ r' ∈ rs', Tames r' r) : Recalls (fs ++ (es ++ gs)) rs' b := by
  refine ⟨h.1, fun e he => ?_⟩
  obtain ⟨r, hmem, ht, hu⟩ := h.2 e he
  obtain ⟨r', hmem', ht'⟩ := hr r hmem
  refine ⟨r', hmem', ht'.trans ht, fun v hv => ?_⟩
  obtain ⟨xs, ys, rfl, hcut⟩ := hu v hv
  exact ⟨fs ++ xs, ys ++ gs, by simp, mem_append_left _ hcut⟩

theorem mem_argumentsOf_withMachine {id : NodeId} {m : Node}
    (he : e ∈ argumentsOf (withMachine id (.mk m [(.argumentList, .mk a as)]))) :
    (e.uses = [] ∧ e.calm = true) ∨ ∃ p ∈ as, p.2 = e := by
  obtain ⟨⟨r, e'⟩, hmem, hsome⟩ := mem_filterMap.mp he
  change (if r = .arguments then some e' else none) = some e at hsome
  split at hsome
  · cases hsome
    rcases mem_cons.mp hmem with hmem | hmem
    · cases hmem
      exact Or.inl ⟨rfl, rfl⟩
    · exact Or.inr ⟨_, hmem, rfl⟩
  · cases hsome

/-- A call that was taken out evaluates its arguments again, behind its label. -/
theorem recalls_takenOut {stmt : Origin} {c c' : Cutter} {id : NodeId} {state : Nat}
    {as' : Children} (h : CutsOperands stmt c as as' c')
    (hu : ∀ p ∈ as, p.2.uncut = true) :
    Recalls (events.go ms splitAll as ++ [cut]) [.mk a as]
      (takenOut id stmt state (.mk n [(.argumentList, .mk a as')])) := by
  refine ⟨rfl, fun e he => ⟨_, mem_singleton_self _, ?_⟩⟩
  have he : e ∈ [withMachine id (.mk n [(.argumentList, .mk a as')])].flatMap argumentsOf := he
  rw [flatMap_singleton] at he
  rcases mem_argumentsOf_withMachine he with ⟨huses, hcalm⟩ | ⟨p, hp, rfl⟩
  · refine ⟨⟨fun v hv => ?_, fun _ => hcalm⟩, fun v hv => ?_⟩
    · rw [huses] at hv
      cases hv
    · rw [huses] at hv
      cases hv
  · refine ⟨(tames_of_children h.tames.1 h.tames.2).trans (tames_child hp), fun v hv => ?_⟩
    have hsource := h.tames.1 v (gathers_uses.mem.mpr ⟨p, hp, hv⟩)
    obtain ⟨xs, ys, hxy⟩ := append_of_mem (use_mem_events_go hu hsource)
    exact ⟨xs, ys ++ [cut], by rw [hxy]; simp, by simp⟩

mutual

theorem CutsOperand.recalls : ∀ {stmt : Origin} {c c' : Cutter} {t t' : Tree},
    CutsOperand stmt c t t' c' → t.uncut = true → ∀ b ∈ c'.before, b ∈ c.before ∨
      Recalls (t.events c.machines c.splitAll) (t.recalled c.machines) b
  | _, _, _, _, _, .bare _, _, _, hb => Or.inl hb
  | _, _, _, _, _, .use _, _, _, hb => Or.inl hb
  | _, _, _, _, _, .inner hk h, hu, b, hb => by
    have hne : ∀ {n : Node}, n.kind.inner = true → n.kind ≠ .call := by
      intro n hk h
      rw [h] at hk
      cases hk
    rw [events_inner hk, recalled, if_neg fun h => hne hk h.1]
    exact h.recalls (fun p hp => uncut_child hu hp) b hb
  | _, _, _, _, _, .call hk ha h hm, hu, b, hb => by
    rw [h.later.machines] at hm
    rw [events_call hk ha, recalled_call ha hm]
    have huas := uncut_arguments hu
    refine (h.recalls huas b hb).imp_right fun hr => ?_
    exact hr.mono [] _ fun r hr => ⟨r, hr, .refl r⟩
  | _, _, _, _, _, .taken hk ha h hm, hu, b, hb => by
    have huas := uncut_arguments hu
    rw [h.later.machines] at hm
    rw [events_call hk ha, recalled_of_states hk hm, hm, if_pos rfl]
    rcases mem_append.mp hb with hb | hb
    · -- The arguments were cut first, and what they recall is part of what this call recalls.
      refine (h.recalls huas b hb).imp_right fun hr => ?_
      exact hr.mono [] [cut] fun r hr => ⟨_, mem_singleton_self _,
        recalled_go_tames (fun _ _ _ hr => recalled_tames hr) r hr⟩
    · rw [mem_singleton.mp hb]
      exact Or.inr (recalls_takenOut h huas)

theorem CutsOperands.recalls : ∀ {stmt : Origin} {c c' : Cutter} {cs cs' : Children},
    CutsOperands stmt c cs cs' c' → (∀ p ∈ cs, p.2.uncut = true) → ∀ b ∈ c'.before, b ∈ c.before ∨
      Recalls (events.go c.machines c.splitAll cs) (recalled.go c.machines cs) b
  | _, _, _, _, _, .nil, _, _, hb => Or.inl hb
  | _, _, _, _, _, @CutsOperands.cons _ c c₁ _ _ t _ cs _ h hs, hu, b, hb => by
    obtain ⟨hut, hu⟩ := forall_mem_cons.mp hu
    rcases hs.recalls hu b hb with hb | hr
    · refine (h.recalls hut b hb).imp_right fun hr => ?_
      exact hr.mono [] _ fun r hr => ⟨r, mem_append_left _ hr, .refl r⟩
    · rw [h.later.machines, h.later.splitAll] at hr
      have hall := hr.mono (t.events c.machines c.splitAll) [] fun r hr =>
        ⟨r, mem_append_right (t.recalled c.machines) hr, .refl r⟩
      rw [append_nil] at hall
      exact Or.inr hall

end

end Cutting

end Resumable
