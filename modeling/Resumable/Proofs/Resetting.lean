import Resumable.Proofs.Ends

/-!
# Machines that are reset

A reset is put before a `return` if a state was found before it in the text. Around a loop this is
not enough: what stands behind a `return` in the text may run before it.

* `Tree.missed_subset`: what the resets in the text do not cover is a `return` in a loop.
* `Cutting.Becomes.guarded`: the cutter puts a reset before each `return` behind a label.
* `Cutting.definition_resets`: a function is left with a state at exposed `return`s only.
-/

namespace Resumable

open List hiding iterate

open Job

variable {cut s reset : Bool} {cs : Children} {t f body : Tree} {n : Node} {ts : List Tree}
  {r : Role}

namespace Tree

/-! ## Resets in the text -/

/-- The `return` statements of a tree that have no label before them. -/
def early : Tree → List Tree
  | mk n cs => (if n.kind = .returnStatement then [mk n cs] else []) ++ go cs
where
  go : Children → List Tree
    | [] => []
    | (_, t) :: rest => t.early ++ if t.isCut then [] else go rest

/-- The `return` statements in loops that have labels, but none before the `return`. -/
def exposed : Tree → List Tree
  | mk n cs => if n.kind.loops && (mk n cs).isCut then (mk n cs).early else go cs
where
  go : Children → List Tree
    | [] => []
    | (_, t) :: rest => t.exposed ++ if t.isCut then [] else go rest

/-- Whether every `return` that has a label before it in the text stands right behind a reset. -/
def guarded : Bool → Tree → Bool
  | cut, mk n cs =>
    match n.kind with
    | .returnStatement => !cut
    | .statementList => inList cut false cs
    | .ifElse | .whileLoop | .doWhileLoop | .forLoop => inParts cut cs
    | _ => true
where
  inList : Bool → Bool → Children → Bool
    | _, _, [] => true
    | cut, reset, (_, t) :: rest =>
      (if t.kind = .returnStatement then !cut || reset else t.guarded cut) &&
        inList (cut || t.isCut) (t.kind == .beforeReturn) rest
  inParts : Bool → Children → Bool
    | _, [] => true
    | cut, (_, t) :: rest => t.guarded cut && inParts (cut || t.isCut) rest

theorem guarded_plain (h : t.kind.plain = true) : t.guarded cut = true := by
  obtain ⟨n, cs⟩ := t
  change n.kind.plain = true at h
  rw [guarded]
  split
  case h_7 => rfl
  all_goals
    next hk =>
    rw [hk] at h
    cases h

theorem exposed_go_subset (ih : ∀ p ∈ cs, p.2.exposed ⊆ p.2.early) :
    exposed.go cs ⊆ early.go cs := by
  induction cs with
  | nil => exact List.Subset.refl _
  | cons p cs ihcs =>
    obtain ⟨ihp, ih⟩ := forall_mem_cons.mp ih
    refine append_subset.mpr ⟨subset_append_of_subset_left _ ihp,
      subset_append_of_subset_right _ ?_⟩
    split
    · exact List.Subset.refl _
    · exact ihcs ih

/-- The exposed `return`s have no label before them. -/
theorem exposed_subset_early (t : Tree) : t.exposed ⊆ t.early := by
  induction t using ofChildren with
  | step n cs ih =>
    rw [exposed]
    split
    · exact List.Subset.refl _
    · exact subset_append_of_subset_right _ (exposed_go_subset ih)

/-- The `return` statements of a tree that may be reached with a state, if a label stands before
it or not and a state may be stored before it or not. -/
def excused (cut s : Bool) (t : Tree) : List Tree :=
  if cut then [] else if s then t.early else t.exposed

/-- The same for a list. -/
def excusedIn (cut s : Bool) (cs : Children) : List Tree :=
  if cut then [] else if s then early.go cs else exposed.go cs

theorem excused_head : t.excused cut s ⊆ excusedIn cut s ((r, t) :: cs) := by
  unfold excused excusedIn
  split
  · exact List.Subset.refl _
  · split
    · exact subset_append_left _ _
    · exact subset_append_left _ _

/-- What is excused in the rest of a list is excused in the list. -/
theorem excused_tail {s' : Bool} (hs : s' = true → s = true ∨ t.isCut = true) :
    excusedIn (cut || t.isCut) s' cs ⊆ excusedIn cut s ((r, t) :: cs) := by
  unfold excusedIn
  cases cut with
  | true => exact nil_subset _
  | false =>
  cases ht : t.isCut with
  | true => exact nil_subset _
  | false =>
  rw [ht] at hs
  simp only [Bool.or_false, Bool.false_eq_true, if_false]
  cases s' with
  | true =>
    obtain rfl : s = true := (hs rfl).resolve_right Bool.false_ne_true
    simp [early.go, ht]
  | false =>
    cases s with
    | true =>
      simpa [early.go, ht] using subset_append_of_subset_right t.early
        (@exposed_go_subset cs fun p _ => exposed_subset_early p.2)
    | false => simp [exposed.go, ht]

theorem excusedIn_subset : excusedIn cut s cs ⊆ (mk n cs).excused cut s := by
  have hgo : exposed.go cs ⊆ early.go cs := exposed_go_subset fun p _ => exposed_subset_early p.2
  unfold excused excusedIn
  split
  · exact List.Subset.refl _
  · split
    · exact subset_append_right _ _
    · rw [exposed]
      split
      · exact subset_append_of_subset_right _ hgo
      · exact List.Subset.refl _

/-- In a loop a state may come from the round before, so all its early `return`s are excused. -/
theorem excusedIn_loop (hk : n.kind.loops = true) :
    excusedIn cut (s || (mk n cs).isCut) cs ⊆ (mk n cs).excused cut s := by
  cases hc : (mk n cs).isCut with
  | false =>
    rw [Bool.or_false]
    exact excusedIn_subset
  | true =>
    unfold excused excusedIn
    rw [Bool.or_true]
    split
    · exact List.Subset.refl _
    · rw [if_pos rfl, exposed, hk, hc]
      split
      · exact subset_append_right _ _
      · exact subset_append_right _ _

/-! ## What resets in the text are good for -/

theorem missed_inList_subset
    (ih : ∀ p ∈ cs, ∀ cut s, p.2.guarded cut = true → p.2.missed s ⊆ p.2.excused cut s)
    (hg : guarded.inList cut reset cs = true) (hs : reset = true → s = false) :
    missed.inList s cs ⊆ excusedIn cut s cs := by
  induction cs generalizing cut reset s with
  | nil => exact nil_subset _
  | cons p cs ihcs =>
    obtain ⟨r, t⟩ := p
    obtain ⟨iht, ih⟩ := forall_mem_cons.mp ih
    rw [guarded.inList, Bool.and_eq_true] at hg
    obtain ⟨ht, hrest⟩ := hg
    refine append_subset.mpr ⟨List.Subset.trans ?_ excused_head,
      List.Subset.trans (ihcs ih hrest fun h => ?_) (excused_tail pending_le)⟩
    · by_cases hk : t.kind = .returnStatement
      · rw [if_pos hk] at ht
        obtain ⟨n, ds⟩ := t
        simp only [missed, show n.kind = _ from hk]
        cases s with
        | false => exact nil_subset _
        | true =>
          have hreset : reset = false := by
            cases reset with
            | false => rfl
            | true => cases hs rfl
          rw [hreset, Bool.or_false, Bool.not_eq_true'] at ht
          simp [excused, ht, early, show n.kind = _ from hk]
      · rw [if_neg hk] at ht
        exact iht cut s ht
    · -- Behind a reset no state is stored.
      obtain ⟨n, ds⟩ := t
      simp only [pending, show n.kind = _ from beq_iff_eq.mp h]

theorem missed_parts_subset
    (ih : ∀ p ∈ cs, ∀ cut s, p.2.guarded cut = true → p.2.missed s ⊆ p.2.excused cut s)
    (hg : guarded.inParts cut cs = true) (r : Role) :
    missed.inPart s r cs ⊆ excusedIn cut s cs := by
  induction cs generalizing cut with
  | nil => exact nil_subset _
  | cons p cs ihcs =>
    obtain ⟨r', t⟩ := p
    obtain ⟨iht, ih⟩ := forall_mem_cons.mp ih
    rw [guarded.inParts, Bool.and_eq_true] at hg
    rw [missed.inPart]
    split
    · exact List.Subset.trans (iht cut s hg.1) excused_head
    · exact List.Subset.trans (ihcs ih hg.2) (excused_tail Or.inl)

/-- If every `return` behind a label stands right behind a reset, the others can be reached with a
state only in a loop that is cut. -/
theorem missed_subset (hg : t.guarded cut = true) : t.missed s ⊆ t.excused cut s := by
  induction t using ofChildren generalizing cut s with
  | step n cs ih =>
    have ih' : ∀ p ∈ cs, ∀ cut s, p.2.guarded cut = true → p.2.missed s ⊆ p.2.excused cut s :=
      fun p hp _ _ => ih p hp
    rw [missed]
    split
    case h_1 hk =>
      simp only [guarded, hk, Bool.not_eq_true'] at hg
      cases s with
      | false => exact nil_subset _
      | true => simp [excused, hg, early, hk]
    case h_2 hk =>
      simp only [guarded, hk] at hg
      exact List.Subset.trans
        (missed_inList_subset ih' hg (absurd · Bool.false_ne_true)) excusedIn_subset
    case h_3 hk =>
      simp only [guarded, hk] at hg
      have hpart : ∀ r, missed.inPart s r cs ⊆ (mk n cs).excused cut s := fun r =>
        List.Subset.trans (missed_parts_subset ih' hg r) excusedIn_subset
      exact append_subset.mpr ⟨hpart _, hpart _⟩
    -- In a loop a state may be stored before the first round is over.
    case h_4 hk | h_5 hk | h_6 hk =>
      simp only [guarded, hk] at hg
      exact List.Subset.trans (missed_parts_subset ih' hg _) (excusedIn_loop (by rw [hk]; rfl))
    case h_7 => exact nil_subset _

mutual

theorem guarded_mapNodes {g : Node → Node} (hg : Renames g) :
    (t : Tree) → ∀ cut, (t.mapNodes g).guarded cut = t.guarded cut
  | mk n cs, cut => by
    rw [mapNodes, guarded, guarded, hg.kind, guarded_inList_mapNodes hg cs,
      guarded_inParts_mapNodes hg cs]

theorem guarded_inList_mapNodes {g : Node → Node} (hg : Renames g) :
    (cs : Children) → ∀ cut reset,
    guarded.inList cut reset (mapNodes.go g cs) = guarded.inList cut reset cs
  | [], _, _ => rfl
  | (_, t) :: rest, cut, reset => by
    rw [mapNodes.go, guarded.inList, guarded.inList, guarded_mapNodes hg t, isCut_mapNodes hg t,
      hg.kind_mapNodes, guarded_inList_mapNodes hg rest]

theorem guarded_inParts_mapNodes {g : Node → Node} (hg : Renames g) :
    (cs : Children) → ∀ cut,
    guarded.inParts cut (mapNodes.go g cs) = guarded.inParts cut cs
  | [], _ => rfl
  | (_, t) :: rest, cut => by
    rw [mapNodes.go, guarded.inParts, guarded.inParts, guarded_mapNodes hg t, isCut_mapNodes hg t,
      guarded_inParts_mapNodes hg rest]

end

end Tree

namespace Cutting

open Resumable.Tree

/-! ## Resets that are put in -/

/-- The labels of a row tell whether a state was found when the row had been made. -/
theorem cut_of_numbered {a b : Nat} (h : ts.flatMap marks = numbered a b) (hab : a ≤ b) :
    (a != 0 || ts.any isCut) = (b != 0) := by
  have hany : ts.any isCut = true ↔ ∃ k, .cut k ∈ numbered a b := by
    rw [← h]
    simp only [any_eq_true, isCut_iff, mem_flatMap]
    exact ⟨fun ⟨t, ht, k, hk⟩ => ⟨k, t, ht, hk⟩, fun ⟨k, t, ht, hk⟩ => ⟨t, ht, k, hk⟩⟩
  rcases Nat.eq_or_lt_of_le hab with rfl | hlt
  · have hnone : ts.any isCut = false := by
      rw [Bool.eq_false_iff, Ne, hany, numbered_self]
      simp
    rw [hnone, Bool.or_false]
  · have hsome : ts.any isCut = true := by
      refine hany.mpr ⟨some ((a + 1 : Nat) : Int), ?_⟩
      rw [← numbered_append (Nat.le_succ a) hlt, numbered_succ]
      exact mem_cons_self
    have hb : b ≠ 0 := by omega
    rw [hsome, Bool.or_true, bne_iff_ne.mpr hb]

theorem guarded_of_reset (h : guarded.inList cut false cs = true) :
    guarded.inList cut reset cs = true := by
  cases cs with
  | nil => rfl
  | cons p cs =>
    rw [guarded.inList, Bool.and_eq_true] at h ⊢
    refine ⟨?_, h.2⟩
    split
    · next hk =>
      rw [if_pos hk, Bool.or_false] at h
      rw [h.1, Bool.true_or]
    · next hk =>
      rw [if_neg hk] at h
      exact h.1

/-- Two lists of guarded statements are guarded one after the other. -/
theorem guarded_append {xs ys : Children} (hx : guarded.inList cut reset xs = true)
    (hy : guarded.inList (cut || xs.any (·.2.isCut)) false ys = true) :
    guarded.inList cut reset (xs ++ ys) = true := by
  induction xs generalizing cut reset with
  | nil =>
    rw [any_nil, Bool.or_false] at hy
    exact guarded_of_reset hy
  | cons p xs ih =>
    rw [guarded.inList, Bool.and_eq_true] at hx
    rw [any_cons, ← Bool.or_assoc] at hy
    rw [cons_append, guarded.inList, hx.1, Bool.true_and]
    exact ih hx.2 hy

theorem guarded_of_plain (h : ∀ p ∈ cs, p.2.kind.plain = true) :
    guarded.inList cut reset cs = true := by
  induction cs generalizing cut reset with
  | nil => rfl
  | cons p cs ih =>
    obtain ⟨hp, hcs⟩ := forall_mem_cons.mp h
    rw [guarded.inList, ih hcs, Bool.and_true]
    split
    · next hk =>
      rw [hk] at hp
      cases hp
    · exact guarded_plain hp

theorem guarded_row_of_plain (h : ∀ t ∈ ts, t.kind.plain = true) :
    guarded.inList cut reset (ts.map (Role.statements, ·)) = true :=
  guarded_of_plain (forall_mem_map.mpr h)

/-- A statement and what is put behind it are guarded if they are behind the calls that were taken
out of the statement. -/
theorem guarded_row {stmt : Origin} {c c₁ : Cutter} {cs' : Children} {a : Nat}
    (h : CutsOperands stmt c cs cs' c₁) (hb : c.before = []) (ha : a = c.states)
    (hcs : marks.go cs = [])
    (hts : guarded.inList (c₁.states != 0) false (ts.map (Role.statements, ·)) = true) :
    guarded.inList (a != 0) false ((c₁.before ++ ts).map (Role.statements, ·)) = true := by
  rw [ha]
  have hkind := h.kind_before (by simp [hb])
  rw [map_append]
  refine guarded_append (guarded_row_of_plain fun t ht => by rw [hkind t ht]; rfl) ?_
  rw [any_map]
  have hcut := cut_of_numbered (h.marks_before hb hcs).1 h.later.states
  exact hcut ▸ hts

theorem CutsOperands.guarded {stmt : Origin} {c c' : Cutter} {cs cs' : Children}
    (h : CutsOperands stmt c cs cs' c') (hcs : marks.go cs' = []) {cut : Bool}
    {blocks : Children} (hblocks : guarded.inParts cut blocks = true) :
    guarded.inParts cut (cs' ++ blocks) = true :=
  match h with
  | .nil => hblocks
  | .cons h hs => by
    rw [marks.go, append_eq_nil_iff] at hcs
    rw [cons_append, guarded.inParts, guarded_plain h.plain.2, not_isCut_of_marks hcs.1,
      Bool.or_false, Bool.true_and]
    exact hs.guarded hcs.2 hblocks

theorem guarded_loop (hk : n.kind.loops = true) (h : guarded.inParts cut cs = true) :
    guarded.inList cut false ([.mk n cs].map (Role.statements, ·)) = true := by
  have hg : (Tree.mk n cs).guarded cut = true := by
    rw [Tree.guarded]
    split
    case h_1 hr | h_2 hr =>
      rw [hr] at hk
      cases hk
    case h_7 => rfl
    all_goals exact h
  have hr : n.kind ≠ .returnStatement := by
    intro hr
    rw [hr] at hk
    cases hk
  simp [guarded.inList, kind, node, hr, hg]

mutual

/-- A cut statement is guarded. -/
theorem Becomes.guarded {c c' : Cutter} {t : Tree} {ts : List Tree} (h : Becomes c t ts c')
    (ht : t.marks = []) :
    guarded.inList (c.states != 0) false (ts.map (Role.statements, ·)) = true :=
  match h with
  | h@(.nop hk) | h@(.declaration hk ..) | h@(.machineDeclaration hk ..) | h@(.expression hk _)
  | h@(.call hk ..) | h@(.machineCall hk ..) | h@(.wait hk ..) =>
    guarded_row_of_plain (h.plain (plain_of_kind hk rfl))
  | .block hk h => by
    obtain ⟨-, hcs⟩ := marks_eq_nil_iff.mp ht
    simpa [guarded.inList, kind, node, hk, Tree.guarded] using h.guarded hcs
  | .branch hk h₁ h₂ => by
    obtain ⟨-, hcs⟩ := marks_eq_nil_iff.mp ht
    rw [marks_go_append, append_eq_nil_iff] at hcs
    refine guarded_row h₁ rfl rfl hcs.1 ?_
    simpa [guarded.inList, kind, node, hk, Tree.guarded] using
      h₁.guarded (h₁.marks_before rfl hcs.1).2 (h₂.guarded hcs.2)
  | .loop hk h₁ h₂ hp => by
    obtain ⟨-, hcs⟩ := marks_eq_nil_iff.mp ht
    rw [marks_go_append, append_eq_nil_iff] at hcs
    refine guarded_row h₁ rfl rfl hcs.1 (guarded_loop hk ?_)
    exact h₁.guarded (h₁.marks_before rfl hcs.1).2 (h₂.guarded hcs.2)
  | .leave hk h => by
    rw [append_assoc]
    refine guarded_row h rfl rfl (marks_eq_nil_iff.mp ht).2 ?_
    -- A reset is put before the `return` just if a state was found.
    unfold resets
    split
    · next hs => simp [guarded.inList, kind, node, hk, hs]
    · simp [guarded.inList, kind, node, hk, Node.blank, Tree.guarded]

theorem BecomesAll.guarded {c c' : Cutter} {cs cs' : Children}
    (h : BecomesAll c cs cs' c') (hcs : marks.go cs = []) :
    guarded.inList (c.states != 0) false cs' = true :=
  match h with
  | .nil => rfl
  | .cons h hs => by
    rw [marks.go, append_eq_nil_iff] at hcs
    refine guarded_append (h.guarded hcs.1) ?_
    rw [any_map]
    have hcut := cut_of_numbered (h.marks hcs.1) h.later.states
    exact hcut ▸ hs.guarded hcs.2

theorem BecomesBlocks.guarded {c c' : Cutter} {cs cs' : Children}
    (h : BecomesBlocks c cs cs' c') (hcs : marks.go cs = []) :
    guarded.inParts (c.states != 0) cs' = true :=
  match h with
  | .nil => rfl
  | @BecomesBlocks.cons _ c₁ _ _ n _ cs' _ _ hk h hs => by
    rw [marks.go, append_eq_nil_iff] at hcs
    obtain ⟨-, hds⟩ := marks_eq_nil_iff.mp hcs.1
    have hcut : (c.states != 0 || (Tree.mk n cs').isCut) = (c₁.states != 0) := by
      have hm : [Tree.mk n cs'].flatMap marks = numbered c.states c₁.states := by
        rw [flatMap_singleton, Tree.marks, h.marks hds]
        simp [Node.mark?, hk, Kind.cuts]
      simpa using cut_of_numbered hm h.later.states
    rw [guarded.inParts, hcut, hs.guarded hcs.2, Bool.and_true]
    simpa [Tree.guarded, hk] using h.guarded hds

end

/-! ## Functions -/

theorem guarded_go_of_not_cut (h : ∀ p ∈ cs, p.2.guarded false = true ∧ p.2.isCut = false) :
    (∀ reset, guarded.inList false reset cs = true) ∧ guarded.inParts false cs = true := by
  induction cs with
  | nil => exact ⟨fun _ => rfl, rfl⟩
  | cons p cs ih =>
    obtain ⟨⟨hg, hcut⟩, hcs⟩ := forall_mem_cons.mp h
    obtain ⟨hlist, hparts⟩ := ih hcs
    constructor
    · intro reset
      rw [guarded.inList, hg, hcut, Bool.or_false, hlist]
      simp
    · rw [guarded.inParts, hg, hcut, Bool.or_false, hparts]
      rfl

/-- A tree without labels needs no resets. -/
theorem guarded_of_not_cut (h : t.isCut = false) : t.guarded false = true := by
  induction t using ofChildren with
  | step n cs ih =>
    obtain ⟨hlist, hparts⟩ := guarded_go_of_not_cut fun p hp =>
      ⟨ih p hp (not_isCut_child h hp), not_isCut_child h hp⟩
    rw [Tree.guarded]
    split
    case h_1 | h_7 => rfl
    case h_2 => exact hlist false
    case h_3 | h_4 | h_5 | h_6 => exact hparts

theorem pending_of_not_cut (h : t.isCut = false) : t.pending false = false := by
  rw [Bool.eq_false_iff]
  intro hp
  rcases pending_le hp with hs | hs
  · cases hs
  · rw [h] at hs
    cases hs

theorem guarded_last {source : Tree} {main : Bool} {last : Children}
    (h : LastNodes source body main last) : guarded.inList cut false last = true := by
  cases h with
  | none => rfl
  | reset => rfl

/-- The body that is made for a function is guarded, and nothing is stored behind it. -/
theorem CutsBody.guarded {c c' : Cutter} (h : CutsBody c f body c') :
    body.guarded false = true ∧ (f.live = true → body.pending false = false) := by
  cases h with
  | uncut h => exact ⟨guarded_of_not_cut (not_isCut_of_marks h), fun _ =>
      pending_of_not_cut (not_isCut_of_marks h)⟩
  | @machine c₁ _ main b first d cs rest last skip o g hf hd hb hu hskip h hfirst hg hm hlast =>
    have hmarks := (marks_eq_nil_iff.mp (marks_of_uncut hu)).2
    have hdrop : marks.go (cs.drop skip) = [] :=
      gathers_marks.eq_nil.mpr fun p hp =>
        gathers_marks.eq_nil.mp hmarks p (mem_of_mem_drop hp)
    have hent := @plain_entrance o _ f main first c₁.log.nextId c₁.states _ hfirst hskip hmarks
    have hk : (g b).kind = .statementList := (hg.kind b).trans hb
    constructor
    · rw [Tree.guarded, hk]
      refine guarded_append ?_ (guarded_last hlast)
      rw [guarded_inList_mapNodes hg]
      refine guarded_append (guarded_of_plain fun p hp => (hent p hp).1) ?_
      have hcut : (entrance first (dispatchNode c₁.log.nextId o c₁.states main) skip cs).any
          (·.2.isCut) = false := any_eq_false.mpr fun p hp => by simp [(hent p hp).2]
      rw [hcut]
      exact h.guarded hdrop
    · intro hl
      rw [Tree.pending, hk]
      change pending.inList false _ = false
      rw [pending_inList_append, pending_inList_mapNodes hg, pending_inList_append]
      cases hlast with
      | reset => rfl
      | none hc =>
        have hbody : (Tree.mk b cs).live = true := by
          obtain ⟨n, ds⟩ := f
          exact live_child hl (mem_of_lookup hf)
        rw [live, if_pos hb] at hbody
        refine h.settled (live_drop hbody skip) ?_ _
        cases main with
        | true =>
          -- The source of a handler is checked.
          simp only [if_true, Tree.closed, hb] at hc
          rwa [← take_append_drop skip cs, some?_of_plain (plain_prologue hskip)] at hc
        | false =>
          -- The body of any other function is checked after it was cut.
          rw [if_neg Bool.false_ne_true, closed_mapNodes hg] at hc
          simp only [Tree.closed, hb] at hc
          rwa [some?_of_plain fun p hp => (hent p hp).1, h.closed] at hc

/-- Whenever a function leaves for good, no state is stored, on all ways through it: at every
`return` but those of a loop with labels that no label precedes in the text, and at its end if
nothing stands behind a statement that control does not leave. All `return` statements behind a
label stand right behind a reset. -/
theorem definition_resets {f body : Tree} {c : Cutter} (hu : f.uncut = true)
    (hk : f.kind = .functionDefinition) (hf : (definition f c).2.fault = none)
    (hb : (definition f c).1.child? .body = some body) {p : Point} (h : Reaches body p) :
    (∀ t w, p.work = .run t :: w → t.kind = .returnStatement →
        p.stored = 0 ∨ t ∈ body.exposed) ∧
      (f.live = true → p.work = [] → p.stored = 0) ∧ body.guarded false = true := by
  obtain ⟨hguarded, hend⟩ := (cutsBody_of_definition hu hk hf hb).guarded
  refine ⟨fun t w hw ht => ?_, fun hl hw => ?_, hguarded⟩
  · rw [or_iff_not_imp_left]
    exact fun hs => missed_subset hguarded (h.mem_missed hw ht hs)
  · by_contra hs
    have hpending := h.pending hw hs
    rw [hend hl] at hpending
    cases hpending

/-- The body that is made for a function. -/
def bodyOf (f : Tree) (c : Cutter) : Tree := ((definition f c).1.child? .body).getD default

theorem bodyOf_eq {c : Cutter} (h : ((definition f c).1.child? .body).isSome = true) :
    (definition f c).1.child? .body = some (bodyOf f c) := by
  obtain ⟨b, hb⟩ := Option.isSome_iff_exists.mp h
  rw [bodyOf, hb, Option.getD_some]

end Cutting

namespace Sample

/-- The handler of the example, which may leave its loop before it sleeps. -/
def leaving : Tree :=
  handler.mapRole .body fun _ =>
    .mk (node 19 .statementList) [
      (.statements, .mk (node 20 .whileLoop) [(.expression, used 21 17 "fb"),
        (.body, .mk (node 22 .statementList) [
          (.statements, .mk (node 23 .ifElse) [(.expression, call 24 51 25 "get" false []),
            (.thenBranch, .mk (node 26 .statementList) [
              (.statements, .mk (node 27 .returnStatement) [(.expression, zero 28)])])]),
          (.statements, .mk (node 29 .callStatement) [
            (.expression, call 30 50 31 "papi_sleep" true [used 32 17 "fb"])])])]),
      (.statements, .mk (node 33 .returnStatement) [(.expression, zero 34)])]

/-- A function that sleeps once. -/
def sleeping : Tree :=
  .mk (node 1 .functionDefinition) [
    (.declaration, declared 2 .functionDecl "sub" 3 4 [parameter 17 18 "fb"]),
    (.body, .mk (node 19 .statementList) [
      (.statements, .mk (node 29 .callStatement) [
        (.expression, call 30 50 31 "papi_sleep" true [used 32 17 "fb"])])])]

end Sample

namespace Cutting

/-- The handler returns behind its loop without a state, and the function that sleeps comes to its
end without one. -/
theorem samples_reset :
    (∃ p t w, Reaches (bodyOf Sample.leaving (Sample.cutter false)) p ∧
      p.work = .run t :: w ∧ t.kind = .returnStatement ∧ t.id = 33 ∧
        (p.stored = 0 ∨ t ∈ (bodyOf Sample.leaving (Sample.cutter false)).exposed)) ∧
      Sample.sleeping.live = true ∧
        ∃ p, Reaches (bodyOf Sample.sleeping (Sample.cutter false)) p ∧ p.work = [] ∧
          p.stored = 0 := by
  constructor
  · obtain ⟨p, hp, hr⟩ := @Reaches.follow_label
      (bodyOf Sample.leaving (Sample.cutter false)) 1 [true, false, true]
      (fun p => p.returns && (p.work.map fun j => j.tree.id).head? == some 33) (by decide +kernel)
    rw [Bool.and_eq_true, beq_iff_eq] at hr
    obtain ⟨t, w, hw, ht⟩ := Point.returns_iff.mp hr.1
    refine ⟨p, t, w, hp, hw, ht, ?_, ?_⟩
    · simpa [hw, Job.tree] using hr.2
    · exact (definition_resets (f := Sample.leaving) (c := Sample.cutter false) (by decide) rfl
        (by decide +kernel) (bodyOf_eq (by decide +kernel)) hp).1 t w hw ht
  · obtain ⟨p, hp, hr⟩ := @Reaches.follow_label
      (bodyOf Sample.sleeping (Sample.cutter false)) 1 [true, true]
      (fun p => p.work.isEmpty) (by decide +kernel)
    refine ⟨by decide, p, hp, List.isEmpty_iff.mp hr, ?_⟩
    exact (definition_resets (f := Sample.sleeping) (c := Sample.cutter false) (by decide) rfl
      (by decide +kernel) (bodyOf_eq (by decide +kernel)) hp).2.1 (by decide)
        (List.isEmpty_iff.mp hr)

/-- The `return` inside the loop of the handler is reached while the state of the sleep behind it
is stored. -/
theorem early_return_keeps_state :
    ∃ p t w, Reaches (bodyOf Sample.leaving (Sample.cutter false)) p ∧
      p.work = .run t :: w ∧ t.kind = .returnStatement ∧ p.stored = 1 := by
  obtain ⟨p, hp, hr⟩ := @Reaches.follow_label
    (bodyOf Sample.leaving (Sample.cutter false)) 1 [true, true, true, true, true]
    (fun p => p.returns && p.stored == 1) (by decide +kernel)
  rw [Bool.and_eq_true, beq_iff_eq] at hr
  obtain ⟨t, w, hw, ht⟩ := Point.returns_iff.mp hr.1
  exact ⟨p, t, w, hp, hw, ht, hr.2⟩

end Cutting

end Resumable
