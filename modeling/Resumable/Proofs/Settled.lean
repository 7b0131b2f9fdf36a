import Resumable.Proofs.Accounting

/-!
# What stands in a settled tree

Resolution adds links to nodes, puts casts around expressions and pointer types below types. A text
that is read declares no types, so its nodes only get links and casts, and what is said of their
texts before resolution can be said behind it.

* `Resolution.mem_apply`: a part of a settled tree is a cast or comes from a part of the tree.
* `Compilation.resolve_source`: the source of a resolved compilation has casts and links put in.
-/

namespace Resumable

open Resumable.Tree

variable {s t : Tree} {c c' : Compilation} {u : Unit}

namespace Resolution

variable {r : Resolution}

@[simp] theorem texts_linked (n : Node) : (r.linked n).texts = n.texts := by
  unfold linked
  split <;> rfl

/-- A cast, or a part of the tree with its links and casts. -/
def Comes (r : Resolution) (t : Tree) (s : Tree) : Prop :=
  s.kind = .trivialCast ∨ ∃ u ∈ t.subtrees, s = r.apply [] u

theorem node_apply (ps : List (NodeId × Tree)) (t : Tree) :
    (r.apply ps t).node = r.linked t.node := by
  obtain ⟨n, cs⟩ := t
  rfl

theorem Comes.mono {u : Tree} (h : r.Comes t s) (ht : t ∈ u.subtrees) : r.Comes u s :=
  h.imp_right fun ⟨v, hv, hs⟩ => ⟨v, mem_subtrees_trans hv ht, hs⟩

/-- Around a tree at most a cast is put. -/
theorem mem_wrapped (h : s ∈ (r.wrapped t).subtrees) : s.kind = .trivialCast ∨ s ∈ t.subtrees := by
  unfold wrapped at h
  split at h
  · exact .inr h
  · rcases mem_subtrees_mk.mp h with rfl | ⟨p, hp, hs⟩
    · exact .inl rfl
    · rw [List.mem_singleton.mp hp] at hs
      exact .inr hs

theorem mem_apply (t : Tree) : ∀ s ∈ (r.apply [] t).subtrees, r.Comes t s := by
  induction t using ofChildren with
  | step n cs ih =>
    intro s hs
    have hself := mem_subtrees_self (.mk n cs)
    rw [apply, apply_go_eq_map] at hs
    rcases mem_subtrees_mk.mp hs with rfl | ⟨q, hq, hs⟩
    · exact .inr ⟨_, hself, by rw [apply, apply_go_eq_map]⟩
    · obtain ⟨p, hp, rfl⟩ := List.mem_map.mp hq
      rcases mem_wrapped hs with hs | hs
      · exact .inl hs
      · exact (ih p hp s hs).mono (mem_subtrees_child (t := .mk n cs) hp)

/-- Where no types are declared there are no pointer types to put in. -/
theorem apply_of_suits {ps : List (NodeId × Tree)} (t : Tree) (hs : r.Suits ps t)
    (ht : ∀ u ∈ t.subtrees, u.kind.isA .addressableDecl = false) :
    r.apply ps t = r.apply [] t := by
  induction t using ofChildren with
  | step n cs ih =>
    have hnone : ps.lookup n.id = none := by
      cases hlook : ps.lookup n.id with
      | none => rfl
      | some p =>
        have hself := mem_subtrees_self (Tree.mk n cs)
        exact absurd (hs.pointers _ hself p hlook).1 (by rw [ht _ hself]; decide)
    rw [apply, apply, hnone, apply_go_eq_map, apply_go_eq_map]
    refine congrArg (Tree.mk (r.linked n)) (List.map_congr_left fun p hp => ?_)
    rw [ih p hp (hs.child hp) fun u hu =>
      ht u (mem_subtrees_trans hu (mem_subtrees_child (t := .mk n cs) hp))]

theorem children_settle (h : (r.finished r.pointers).lookup t.id = none) :
    (r.settle t).children =
      t.children.map fun p => (p.1, r.wrapped (r.apply (r.finished r.pointers) p.2)) := by
  obtain ⟨n, cs⟩ := t
  rw [settle, apply, apply_go_eq_map]
  have hnone : r.finishedPointers.lookup n.id = none := h
  rw [hnone]
  rfl

end Resolution

namespace Compilation

open Resolve

/-- The source of a resolved compilation, with its words. -/
theorem resolve_source {T : TokenKind → String → Prop} (h : c.Sound) (hok : c.log.failed = false)
    (hrun : resolve c = .ok u c') (hs : c.source = some s) (hw : s.Worded T) :
    ∃ (r : Resolution) (ps : List (NodeId × Tree)), r.Suits ps s ∧
      c'.source = some (r.apply [] s) := by
  -- no type is declared in a text
  have ht : ∀ x ∈ s.subtrees, x.kind.isA .addressableDecl = false := by
    intro x hx
    have hx := hw x hx
    unfold Node.Worded at hx
    unfold Tree.kind
    cases hk : x.node.kind
    all_goals
      simp only [hk] at hx
      first
        | decide
        | exact absurd hx (by decide)
  obtain ⟨hnd, hlt⟩ := (h.accounted hok).nodup
  obtain ⟨t, r, hr, rfl⟩ := resolve_inv hrun
  obtain ⟨r', -, -, rfl, hsuits⟩ := suits_of_run hr hnd hlt
  have hmem : (Role.source, s) ∈ c.tree.children := by simp [tree, Tree.children, hs]
  refine ⟨r', _, hsuits.child hmem, ?_⟩
  have hself := mem_subtrees_self c.tree
  -- the whole program is no type, and the source is no operand
  have hlook : (r'.finished r'.pointers).lookup c.tree.id = none := by
    cases hlook : (r'.finished r'.pointers).lookup c.tree.id with
    | none => rfl
    | some p =>
      have hkind := (hsuits.pointers _ hself p hlook).1
      rw [show c.tree.kind = .root from h.root] at hkind
      exact absurd hkind (by decide)
  have hcast : r'.casts.get? s.id = none := by
    by_contra hsome
    have hrole : Role.source = .arguments ∨ Role.source = .right :=
      hsuits.casts _ hself _ hmem (Option.isSome_iff_ne_none.mpr hsome)
    exact absurd hrole (by decide)
  have hchildren := Resolution.children_settle hlook
  have hsub : ((r'.settle c.tree).children.map (·.1)).Sublist parts := by
    rw [hchildren, List.map_map]
    exact roles_tree c
  have htree := c.tree_setTree hsub
  have hmem' : (Role.source, r'.apply [] s) ∈ (c.setTree (r'.settle c.tree)).tree.children := by
    rw [htree, hchildren]
    refine List.mem_map.mpr ⟨_, hmem, Prod.ext rfl ?_⟩
    rw [Resolution.wrapped, Resolution.id_apply, hcast]
    exact Resolution.apply_of_suits s (hsuits.child hmem) ht
  exact source_of_mem hmem' rfl

/-- A source that is cut is still there. -/
theorem exists_source_of_cut {rq : Request} (h : c.Sound) (hok : c.log.failed = false)
    (hrun : cut rq c = .ok u c') (hs : c.source = some s) : ∃ s', c'.source = some s' := by
  obtain ⟨-, -, -, k, hcuts, -⟩ := cut_inv h hok hrun
  have hmem : Role.source ∈ c.tree.children.map (·.1) :=
    List.mem_map.mpr ⟨(.source, s), by simp [tree, Tree.children, hs], rfl⟩
  rw [← hcuts.roles] at hmem
  obtain ⟨p, hp, hrole⟩ := List.mem_map.mp hmem
  exact ⟨p.2, source_of_mem hp hrole⟩

end Compilation

end Resumable
