import Mathlib.Data.List.Nodup
import Mathlib.Data.List.Pairwise
import Resumable.Proofs.Uncut

/-!
# Which node holds a node

In a tree whose nodes have different numbers, a number stands for one node, and each node but the
top is held by one node, in one role.

* `Tree.eq_of_id_eq`: a number stands for one node.
* `Tree.held_once`: a node is held by one node, in one role.
-/

namespace Resumable.Tree

open List

variable {t s u s' : Tree} {p : Role × Tree} {i : NodeId}

theorem ids_go_eq_flatMap (cs : Children) : ids.go cs = cs.flatMap (·.2.ids) :=
  Gathers.eq_flatMap ⟨rfl, fun _ _ => rfl⟩ cs

theorem subtrees_go_eq_flatMap (cs : Children) :
    subtrees.go cs = cs.flatMap (·.2.subtrees) :=
  Gathers.eq_flatMap ⟨rfl, fun _ _ => rfl⟩ cs

theorem mem_subtrees_self (t : Tree) : t ∈ t.subtrees := by
  obtain ⟨n, cs⟩ := t
  rw [subtrees]
  exact mem_cons_self

theorem mem_subtrees_mk {n : Node} {cs : Children} :
    s ∈ (mk n cs).subtrees ↔ s = mk n cs ∨ ∃ p ∈ cs, s ∈ p.2.subtrees := by
  rw [subtrees, mem_cons, subtrees_go_eq_flatMap, mem_flatMap]

/-- Being a part is transitive. -/
theorem mem_subtrees_trans (hs : s ∈ t.subtrees) (ht : t ∈ u.subtrees) : s ∈ u.subtrees := by
  induction u using ofChildren with
  | step n cs ih =>
    rcases mem_subtrees_mk.mp ht with rfl | ⟨p, hp, ht⟩
    · exact hs
    · exact mem_subtrees_mk.mpr (.inr ⟨p, hp, ih p hp ht⟩)

theorem sizeOf_le_of_mem (hs : s ∈ t.subtrees) : sizeOf s ≤ sizeOf t := by
  induction t using ofChildren with
  | step n cs ih =>
    rcases mem_subtrees_mk.mp hs with rfl | ⟨p, hp, hs⟩
    · exact le_rfl
    · exact (ih p hp hs).trans (sizeOf_child hp).le

theorem mem_subtrees_child (hp : p ∈ t.children) : p.2 ∈ t.subtrees := by
  obtain ⟨n, cs⟩ := t
  exact mem_subtrees_mk.mpr (.inr ⟨p, hp, mem_subtrees_self p.2⟩)

/-- The children in a role are the children with this role. -/
theorem mem_inRole {x : Tree} {r : Role} : x ∈ t.inRole r ↔ (r, x) ∈ t.children := by
  rw [inRole, mem_filterMap]
  constructor
  · rintro ⟨⟨r', y⟩, hy, h⟩
    dsimp only at h
    split at h
    · next hr =>
      obtain rfl := Option.some.inj h
      exact hr ▸ hy
    · cases h
  · exact fun h => ⟨(r, x), h, by simp⟩

theorem id_mem_ids (hs : s ∈ t.subtrees) : s.id ∈ t.ids := by
  rw [← map_id_subtrees]
  exact mem_map_of_mem hs

theorem mem_ids_iff : i ∈ t.ids ↔ ∃ s ∈ t.subtrees, s.id = i := by
  rw [← map_id_subtrees, mem_map]

theorem ids_subset (hs : s ∈ t.subtrees) : s.ids ⊆ t.ids := by
  intro i hi
  obtain ⟨u, hu, rfl⟩ := mem_ids_iff.mp hi
  exact id_mem_ids (mem_subtrees_trans hu hs)

/-- If the numbers of a tree are different, a number stands for one part. -/
theorem eq_of_id_eq (hnd : t.ids.Nodup) (hs : s ∈ t.subtrees) (hs' : s' ∈ t.subtrees)
    (h : s.id = s'.id) : s = s' := by
  rw [← map_id_subtrees] at hnd
  exact inj_on_of_nodup_map hnd hs hs' h

/-! ## Children -/

variable {n : Node} {cs : Children}

/-- The children of a node have different numbers, and none has that of the node. -/
theorem nodup_mk (h : (mk n cs).ids.Nodup) :
    (∀ p ∈ cs, n.id ∉ p.2.ids) ∧ (∀ p ∈ cs, p.2.ids.Nodup) ∧
      cs.Pairwise fun p q => List.Disjoint p.2.ids q.2.ids := by
  rw [ids, nodup_cons, ids_go_eq_flatMap, nodup_flatMap] at h
  obtain ⟨htop, hchild, hpair⟩ := h
  refine ⟨fun p hp hmem => htop (mem_flatMap.mpr ⟨p, hp, hmem⟩), hchild, hpair⟩

/-- A number belongs to one child. -/
theorem child_eq_of_mem (h : (mk n cs).ids.Nodup) {q : Role × Tree} (hp : p ∈ cs) (hq : q ∈ cs)
    (hip : i ∈ p.2.ids) (hiq : i ∈ q.2.ids) : p = q := by
  by_contra hne
  have hsymm : Std.Symm fun p q : Role × Tree => List.Disjoint p.2.ids q.2.ids :=
    ⟨fun _ _ hpq _ hi hi' => hpq hi' hi⟩
  exact (nodup_mk h).2.2.forall hp hq hne hip hiq

theorem sublist_ids_go (cs : Children) :
    (cs.map (·.2.id)).Sublist (ids.go cs) := by
  induction cs with
  | nil => exact .slnil
  | cons p cs ih =>
    obtain ⟨r, m, ds⟩ := p
    rw [ids.go, ids, cons_append, map_cons]
    exact (ih.trans (sublist_append_right _ _)).cons_cons _

theorem sublist_inRole (n : Node) (cs : Children) (r : Role) :
    (((mk n cs).inRole r).map (·.id)).Sublist (cs.map (·.2.id)) := by
  induction cs with
  | nil => exact .slnil
  | cons p cs ih =>
    obtain ⟨r', t⟩ := p
    by_cases hr : r' = r
    · have hhere : (mk n ((r', t) :: cs)).inRole r = t :: (mk n cs).inRole r := by
        simp [inRole, children, hr]
      rw [hhere]
      exact ih.cons_cons _
    · have hhere : (mk n ((r', t) :: cs)).inRole r = (mk n cs).inRole r := by
        simp [inRole, children, hr]
      rw [hhere]
      exact ih.cons _

/-- The children in a role have different numbers. -/
theorem nodup_inRole (h : t.ids.Nodup) (r : Role) : ((t.inRole r).map (·.id)).Nodup := by
  obtain ⟨n, cs⟩ := t
  rw [ids, nodup_cons] at h
  exact (h.2.sublist (sublist_ids_go cs)).sublist (sublist_inRole n cs r)

/-- A node stands below one node, as one child. -/
theorem held_once (hnd : t.ids.Nodup) (hs : s ∈ t.subtrees) (hs' : s' ∈ t.subtrees)
    {p' : Role × Tree} (hp : p ∈ s.children) (hp' : p' ∈ s'.children) (h : p.2.id = p'.2.id) :
    s = s' ∧ p = p' := by
  induction t using ofChildren generalizing s s' with
  | step n cs ih =>
    obtain ⟨_, hchild, _⟩ := nodup_mk hnd
    -- a child of a strict subtree is not the child that the subtree belongs to
    have hdeep : ∀ {q : Role × Tree} {u : Tree} {d : Role × Tree}, q ∈ cs → u ∈ q.2.subtrees →
        d ∈ u.children → d.2.id ∈ q.2.ids ∧ d.2.id ≠ q.2.id := by
      intro q u d hq hu hd
      have hmem : d.2 ∈ q.2.subtrees := mem_subtrees_trans (mem_subtrees_child hd) hu
      refine ⟨id_mem_ids hmem, fun heq => ?_⟩
      have hsame : d.2 = q.2 := eq_of_id_eq (hchild q hq) hmem (mem_subtrees_self _) heq
      have hlt : sizeOf d.2 < sizeOf u := by
        obtain ⟨m, ds⟩ := u
        exact sizeOf_child hd
      have hle : sizeOf u ≤ sizeOf q.2 := sizeOf_le_of_mem hu
      rw [hsame] at hlt
      omega
    rcases mem_subtrees_mk.mp hs with rfl | ⟨q, hq, hs⟩ <;>
      rcases mem_subtrees_mk.mp hs' with rfl | ⟨q', hq', hs'⟩
    · have hpp : p = p' := child_eq_of_mem hnd hp hp' (id_mem_ids (mem_subtrees_self _))
        (h ▸ id_mem_ids (mem_subtrees_self _))
      exact ⟨rfl, hpp⟩
    · obtain ⟨hmem, hne⟩ := hdeep hq' hs' hp'
      have hpq : p = q' := child_eq_of_mem hnd hp hq' (id_mem_ids (mem_subtrees_self _)) (h ▸ hmem)
      exact absurd (by rw [← h, hpq]) hne
    · obtain ⟨hmem, hne⟩ := hdeep hq hs hp
      have hpq : p' = q := child_eq_of_mem hnd hp' hq (id_mem_ids (mem_subtrees_self _)) (h ▸ hmem)
      exact absurd (by rw [h, hpq]) hne
    · obtain ⟨hmem, _⟩ := hdeep hq hs hp
      obtain ⟨hmem', _⟩ := hdeep hq' hs' hp'
      have hqq : q = q' := child_eq_of_mem hnd hq hq' hmem (h ▸ hmem')
      subst hqq
      exact ih q hq (hchild q hq) hs hs' hp hp'

/-- The numbers of a part are different too. -/
theorem nodup_subtree (hnd : t.ids.Nodup) (hs : s ∈ t.subtrees) : s.ids.Nodup := by
  induction t using ofChildren with
  | step n cs ih =>
    rcases mem_subtrees_mk.mp hs with rfl | ⟨p, hp, hs⟩
    · exact hnd
    · exact ih p hp ((nodup_mk hnd).2.1 p hp) hs

end Resumable.Tree
