import Resumable.Proofs.Kept
import Resumable.Proofs.Outliving

/-!
# A state behind every statement

Where every statement ends a state, a declaration ends the one in which it stands. So each variable
that is used behind its declaration is kept, however deep in blocks and loops the two stand.

* `Tree.isInfix_events`: the events of a part happen in a row.
* `Tree.events_declaration_cut`: behind a declaration stands a label.
* `Cutting.bodyFrom_keeps_used`: a variable that is used behind its declaration is kept.
-/

namespace Resumable

open Cutting Event List

namespace Tree

variable {n : Node} {cs ds : Children} {d u s t : Tree}

/-- In a row of trees, at any depth, one subtree ends before another begins. -/
inductive Precedes (d u : Tree) : Children → Prop where
  | apart {r : Role} {t : Tree} {cs : Children} {p : Role × Tree} (hd : d ∈ t.subtrees)
      (hp : p ∈ cs) (hu : u ∈ p.2.subtrees) : Precedes d u ((r, t) :: cs)
  | within {r : Role} {n : Node} {ds cs : Children} (h : Precedes d u ds) :
      Precedes d u ((r, mk n ds) :: cs)
  | later {p : Role × Tree} {cs : Children} (h : Precedes d u cs) :
      Precedes d u (p :: cs)

/-! ## The events of subtrees -/

variable (ms : Machines) (splitAll : Bool)

theorem isInfix_child {p : Role × Tree} (hp : p ∈ cs) :
    p.2.events ms splitAll <:+: events.go ms splitAll cs := by
  obtain ⟨xs, ys, rfl⟩ := append_of_mem hp
  rw [events_go_append, events.go]
  exact ⟨events.go ms splitAll xs, events.go ms splitAll ys, append_assoc _ _ _⟩

/-- The events of the children happen in a row. -/
theorem isInfix_go (hu : (mk n cs).uncut = true) :
    events.go ms splitAll cs <:+: (mk n cs).events ms splitAll := by
  by_cases hbare : n.kind.bare = true ∨ n.kind = .nop
  · -- all children are types, and a walk does not visit types
    have hnone : events.go ms splitAll cs = [] := by
      have hall := bare_child hu hbare
      clear hu
      induction cs with
      | nil => rfl
      | cons p cs ih =>
        obtain ⟨r, m, ds⟩ := p
        obtain ⟨hp, hcs⟩ := forall_mem_cons.mp hall
        have hm : m.kind.bare = true := hp
        rw [events.go, events_bare hm, ih hcs, append_nil]
    rw [hnone]
    exact nil_infix
  by_cases huse : n.kind = .variableUse
  · have hnil := fills_nil (by simpa only [huse, Kind.slots] using uncut_fills hu)
    rw [hnil]
    exact nil_infix
  · obtain ⟨hb, hnop⟩ := not_or.mp hbare
    rw [events_visited (by simp [hb, hnop, huse])]
    exact ⟨beginnings n, endings ms splitAll n cs, append_assoc _ _ _⟩

/-- The events of a part happen in a row. -/
theorem isInfix_events (hu : t.uncut = true) (hs : s ∈ t.subtrees) :
    s.events ms splitAll <:+: t.events ms splitAll := by
  induction t using ofChildren with
  | step n cs ih =>
    rcases mem_subtrees_mk.mp hs with rfl | ⟨p, hp, hs⟩
    · exact infix_refl _
    · have hchild := ih p hp (uncut_child hu hp) hs
      exact (hchild.trans (isInfix_child ms splitAll hp)).trans (isInfix_go ms splitAll hu)

/-- What stands before something in the text happens before it. -/
theorem Precedes.events (h : Precedes d u cs) (hu : ∀ p ∈ cs, p.2.uncut = true) :
    ∃ xs ys zs, events.go ms splitAll cs =
      xs ++ d.events ms splitAll ++ ys ++ u.events ms splitAll ++ zs := by
  induction h with
  | @apart r t cs p hd hp hup =>
    obtain ⟨ht, hcs⟩ := forall_mem_cons.mp hu
    obtain ⟨xs, ys, hxs⟩ := isInfix_events ms splitAll ht hd
    obtain ⟨vs, zs, hvs⟩ :=
      (isInfix_events ms splitAll (hcs p hp) hup).trans (isInfix_child ms splitAll hp)
    exact ⟨xs, ys ++ vs, zs, by simp [events.go, ← hxs, ← hvs]⟩
  | @within r n ds cs h ih =>
    obtain ⟨hn, -⟩ := forall_mem_cons.mp hu
    obtain ⟨xs, ys, zs, hds⟩ := ih fun p hp => uncut_child hn hp
    obtain ⟨vs, ws, hvs⟩ := isInfix_go ms splitAll hn
    exact ⟨vs ++ xs, ys, zs ++ (ws ++ events.go ms splitAll cs), by simp [events.go, ← hvs, hds]⟩
  | @later p cs h ih =>
    obtain ⟨r, t⟩ := p
    obtain ⟨xs, ys, zs, hcs⟩ := ih (forall_mem_cons.mp hu).2
    exact ⟨t.events ms splitAll ++ xs, ys, zs, by simp [events.go, hcs]⟩

/-- Where every statement ends a state, a declaration does. -/
theorem events_declaration_cut (hk : n.kind = .variableDeclaration) :
    ∃ es, (mk n cs).events ms true = declare n.id :: es ∧ cut ∈ es := by
  refine ⟨_, events_declaration hk, mem_append.mpr ?_⟩
  by_cases hm : startsMachine ms cs = true
  · left
    obtain ⟨⟨m, ds⟩, he, hcall⟩ := (Option.any_eq_true _ _).mp hm
    obtain ⟨hcall, hstates⟩ := (Bool.and_eq_true _ _).mp hcall
    have hkind : m.kind = .call := beq_iff_eq.mp hcall
    refine (isInfix_child ms true (mem_of_lookup he)).subset ?_
    rw [events_visited (by rw [hkind]; rfl)]
    refine mem_append_right _ (mem_append_right _ ?_)
    have hends : endings ms true m ds = [cut] := by
      rw [endings, hkind]
      exact if_pos hstates
    rw [hends]
    exact mem_singleton_self _
  · right
    simp [hm]

end Tree

namespace Cutting

open Resumable.Tree

/-- Where every statement ends a state, a variable is kept, and kept once, if it is used behind the
statement that declares it. -/
theorem bodyFrom_keeps_used {body d u : Tree} {c : Cutter} {skip : Nat} (hu : body.uncut = true)
    (hk : body.kind = .statementList) (hs : c.splitAll = true)
    (hf : (bodyFrom skip body (entered c)).2.fault = none)
    (h : Precedes d u (body.children.drop skip)) (hd : d.kind = .variableDeclaration)
    (huse : u.kind = .variableUse) (hl : u.node.link? .declaration = some d.id) :
    (bodyFrom skip body (entered c)).2.persistence.kept.count d.id = 1 := by
  obtain ⟨b, cs⟩ := body
  obtain ⟨n, ds⟩ := d
  obtain ⟨m, us⟩ := u
  have huncut : ∀ p ∈ cs.drop skip, p.2.uncut = true := fun p hp =>
    uncut_child hu (mem_of_mem_drop hp)
  have hstmt : ∀ p ∈ cs.drop skip, p.2.kind.isA .statement = true := fun p hp =>
    (uncut_block hu hk p (mem_of_mem_drop hp)).2
  have htidy := ((cutsStatements_of_statements huncut hstmt rfl hf).declares
    Persistence.tidy_empty).tidy
  refine count_eq_one_of_mem htidy.nodup ?_
  -- the walk meets the declaration, then the end of its state, then the use
  obtain ⟨xs, ys, zs, hes⟩ := h.events c.machines true huncut
  obtain ⟨es, hdecl, hcut⟩ := @events_declaration_cut n ds c.machines hd
  have hmeets : (mk m us).events c.machines true = [use n.id] := by
    have hlink : m.link? .declaration = some n.id := hl
    rw [events_use (n := m) huse, hlink]
    rfl
  have hrun := run_bodyFrom (c := entered c) hu hk hf
  have hwalk : events.go (entered c).machines (entered c).splitAll (cs.drop skip) =
      (xs ++ declare n.id :: es ++ ys) ++ use n.id :: zs := by
    rw [hdecl, hmeets, Tree.children] at hes
    simpa [entered, hs] using hes
  rw [Tree.children, hwalk] at hrun
  exact Moment.kept_of_behind hrun ⟨xs, es ++ ys, by simp, mem_append_left _ hcut⟩

/-- In the example, the counter is used in a loop in a loop. -/
theorem bodyFrom_keeps_used_counter :
    let c := Sample.cutter true
    Sample.body.uncut = true ∧ (bodyFrom 0 Sample.body (entered c)).2.fault = none ∧
      (bodyFrom 0 Sample.body (entered c)).2.persistence.kept.count 20 = 1 := by
  refine ⟨by decide, by decide +kernel, ?_⟩
  exact @bodyFrom_keeps_used Sample.body
    (.mk ((Sample.node 20 .variableDeclaration).named "i") [(.declaredType, Sample.type 21),
      (.initializer, Sample.zero 22)]) (Sample.used 27 20 "i") (Sample.cutter true) 0 (by decide)
    rfl rfl (by decide +kernel) (.apart (mem_subtrees_self _) mem_cons_self
      (by simp [subtrees, subtrees.go, mem_subtrees_self])) rfl rfl rfl

end Cutting

end Resumable
