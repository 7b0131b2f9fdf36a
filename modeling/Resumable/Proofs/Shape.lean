import Resumable.Proofs.Settling

/-!
# Resolution keeps the shape of a program

Resolution puts casts around expressions and hangs pointer types below types. Both go where the
schema has a place for them, so a tree that is as the parser gives it stays so.

* `Tree.fills_map`: children of other kinds fit if the slots allow them.
* `Resolution.uncut_apply`: a tree with casts and pointer types put in fits.
* `Resolve.suits_of_run`: what a run has noted can be put into the tree.
* `Resolve.parts_of_run`: resolution keeps the shape of a program.
-/

namespace Resumable

open List Resumable.Tree

variable {s t' a : Tree} {cs : Children} {ts : List Tree} {k : Kind} {env : Surroundings}

namespace Tree

theorem id_mem_bags (ha : a ∈ ts) (hs : s ∈ a.subtrees) : s.id ∈ bags ts := by
  obtain ⟨us, vs, rfl⟩ := append_of_mem ha
  rw [bags_append, bags_cons]
  exact Multiset.mem_add.mpr (.inr (Multiset.mem_add.mpr (.inl
    (Multiset.mem_coe.mpr (id_mem_ids hs)))))

/-- In trees with different numbers a number stands for one part. -/
theorem eq_of_id_eq_bags (hnd : (bags ts).Nodup) {b s' : Tree} (ha : a ∈ ts) (hb : b ∈ ts)
    (hs : s ∈ a.subtrees) (hs' : s' ∈ b.subtrees) (hid : s.id = s'.id) : s = s' := by
  induction ts with
  | nil => cases ha
  | cons t ts ih =>
    rw [bags_cons, Multiset.nodup_add] at hnd
    obtain ⟨ht, hts, hdisj⟩ := hnd
    -- a number of the first tree is none of the other ones
    have hother : ∀ u ∈ ts, ∀ x ∈ t.subtrees, ∀ y ∈ u.subtrees, x.id ≠ y.id := by
      intro u hu x hx y hy heq
      refine Multiset.disjoint_left.mp hdisj (Multiset.mem_coe.mpr (id_mem_ids hx)) ?_
      rw [heq]
      exact id_mem_bags hu hy
    rcases mem_cons.mp ha with rfl | ha'
    · rcases mem_cons.mp hb with rfl | hb'
      · exact eq_of_id_eq (Multiset.coe_nodup.mp ht) hs hs' hid
      · exact absurd hid (hother b hb' s hs s' hs')
    · rcases mem_cons.mp hb with rfl | hb'
      · exact absurd hid.symm (hother a ha' s' hs' s hs)
      · exact ih hts ha' hb'

/-- Children may be replaced where the slots allow the new kinds. -/
theorem fills_map {places : List Slot} {f : Role × Tree → Tree}
    (hf : ∀ p ∈ cs, ∀ s ∈ places, s.role = p.1 → p.2.kind.isA s.allowed = true →
      (f p).kind.isA s.allowed = true) (h : fills places cs = true) :
    fills places (cs.map fun p => (p.1, f p)) = true := by
  induction places generalizing cs with
  | nil => simpa [fills] using h
  | cons s places ih =>
    have hrest : ∀ ds, (∀ p ∈ ds, p ∈ cs) → fills places ds = true →
        fills places (ds.map fun p => (p.1, f p)) = true := fun ds hds =>
      ih fun p hp s' hs' => hf p (hds p hp) s' (mem_cons_of_mem _ hs')
    have hhere : ∀ p ∈ cs, s.role = p.1 → p.2.kind.isA s.allowed = true →
        (f p).kind.isA s.allowed = true := fun p hp => hf p hp s mem_cons_self
    cases ha : s.arity with
    | one =>
      obtain ⟨t, ds, rfl, ht, hds⟩ := fills_one ha h
      have hkind := hhere (s.role, t) mem_cons_self rfl ht
      have hfills := hrest ds (fun p hp => mem_cons_of_mem _ hp) hds
      simp [fills, ha, hkind, hfills]
    | optional =>
      cases cs with
      | nil =>
        simp only [fills, ha] at h
        simpa [fills, ha] using hrest [] (by simp) h
      | cons p ds =>
        obtain ⟨r, t⟩ := p
        simp only [fills, ha] at h
        simp only [fills, ha, map_cons]
        -- The slot takes the child if the roles agree, and stays empty if not.
        split
        · next hr =>
          rw [if_pos hr, Bool.and_eq_true] at h
          rw [hhere (r, t) mem_cons_self hr.symm h.1,
            hrest ds (fun p hp => mem_cons_of_mem _ hp) h.2]
          rfl
        · next hr =>
          rw [if_neg hr] at h
          exact hrest _ (fun _ hp => hp) h
    | many =>
      simp only [fills, ha, Bool.and_eq_true, all_eq_true] at h
      simp only [fills, ha, Bool.and_eq_true, all_eq_true, takeWhile_map,
        dropWhile_map, Function.comp_def]
      -- The slot takes all children with its role, up to the first with another one.
      refine ⟨fun q hq => ?_, hrest _ (fun p hp => dropWhile_sublist _ |>.mem hp) h.2⟩
      obtain ⟨p, hp, rfl⟩ := mem_map.mp hq
      have hrole : p.1 = s.role := by simpa using mem_takeWhile_imp hp
      exact hhere p ((takeWhile_sublist _).mem hp) hrole.symm (h.1 p hp)

/-- A type has a place for a pointer type, in front. -/
theorem fills_pointer {p : Tree} (hk : k.isA .addressableDecl = true)
    (hnone : cs.lookup .pointer = none) (hp : p.kind.isA .typeDecl = true)
    (h : fills k.slots cs = true) : fills k.slots ((.pointer, p) :: cs) = true := by
  have hslots : ∃ places, k.slots = ⟨.pointer, .typeDecl, .optional⟩ :: places := by
    revert hk
    cases k <;> first | exact fun _ => ⟨_, rfl⟩ | exact fun h => absurd h (by decide)
  obtain ⟨places, hslots⟩ := hslots
  rw [hslots] at h ⊢
  have hrest : fills places cs = true := by
    cases cs with
    | nil => simpa [fills] using h
    | cons q cs =>
      obtain ⟨r, t⟩ := q
      have hr : r ≠ .pointer := by
        rintro rfl
        simp at hnone
      simpa [fills, hr] using h
  simp [fills, hp, hrest]

end Tree

namespace Kind

/-- Where an expression may be cast, any expression may stand. -/
theorem allowed_of_castable {s : Slot} (hs : s ∈ k.slots)
    (hr : s.role = .arguments ∨ s.role = .right) : s.allowed = .expression := by
  revert hs
  cases k <;> simp only [slots, mem_cons, not_mem_nil, or_false, false_imp_iff] <;>
    grind

theorem role_of_callStatement (h : fills callStatement.slots cs = true) :
    ∀ p ∈ cs, p.1 = .expression := by
  intro p hp
  obtain ⟨s, hs, hrole, _⟩ := fills_mem h p hp
  simp only [slots, mem_singleton] at hs
  rw [hrole, hs]

end Kind

namespace Resolution

open Resumable.Tree

variable (r : Resolution)

/-- Finished pointer types belong to types of a tree that have none yet, and casts go where an
expression is used. -/
structure Suits (ps : List (NodeId × Tree)) (s : Tree) : Prop where
  pointers : ∀ u ∈ s.subtrees, ∀ p, ps.lookup u.id = some p →
    u.kind.isA .addressableDecl = true ∧ u.child? .pointer = none ∧ p.uncut = true ∧
      p.kind.isA .typeDecl = true
  casts : ∀ u ∈ s.subtrees, ∀ q ∈ u.children, (r.casts.get? q.2.id).isSome →
    q.1 = .arguments ∨ q.1 = .right

variable {r} {ps : List (NodeId × Tree)}

theorem Suits.subtree {t : Tree} (h : r.Suits ps s) (ht : t ∈ s.subtrees) : r.Suits ps t :=
  ⟨fun u hu => h.pointers u (mem_subtrees_trans hu ht),
    fun u hu => h.casts u (mem_subtrees_trans hu ht)⟩

theorem Suits.child (h : r.Suits ps s) {q : Role × Tree} (hq : q ∈ s.children) : r.Suits ps q.2 :=
  h.subtree (mem_subtrees_child hq)

@[simp] theorem kind_linked (n : Node) : (r.linked n).kind = n.kind := by
  unfold linked
  split <;> rfl

theorem kind_apply (t : Tree) : (r.apply ps t).kind = t.kind := by
  obtain ⟨n, cs⟩ := t
  simp [apply, kind, node]

theorem apply_go_eq_map (cs : Children) :
    apply.go r ps cs = cs.map fun p => (p.1, r.wrapped (r.apply ps p.2)) :=
  eq_map rfl (fun _ _ _ => rfl) cs

theorem kind_wrapped (t : Tree) :
    (r.wrapped t).kind = if (r.casts.get? t.id).isSome then .trivialCast else t.kind := by
  unfold wrapped
  split
  · next h => simp [h]
  · next c h => simp [h, kind, node]

/-- A cast around an expression fits. -/
theorem uncut_wrapped {t : Tree} (hu : t.uncut = true) (ht : t.kind.isA .expression = true) :
    (r.wrapped t).uncut = true := by
  unfold wrapped
  split
  · exact hu
  · refine uncut_of (k := .trivialCast) rfl rfl ?_ (.inl (by decide)) ?_
    · simp [Kind.slots, fills, ht]
    · simpa using hu

section

variable {n : Node} {cs : Children}

theorem Suits.allowed (hs : r.Suits ps (.mk n cs)) {p : Role × Tree} (hp : p ∈ cs) {s : Slot}
    (hslot : s ∈ n.kind.slots) (hrole : s.role = p.1) (hsome : (r.casts.get? p.2.id).isSome) :
    s.allowed = .expression := by
  refine Kind.allowed_of_castable hslot ?_
  rw [hrole]
  exact hs.casts _ (mem_subtrees_self _) p hp hsome

theorem fills_apply_go (hs : r.Suits ps (.mk n cs)) (hfills : fills n.kind.slots cs = true) :
    fills n.kind.slots (apply.go r ps cs) = true := by
  rw [apply_go_eq_map]
  refine fills_map (f := fun p => r.wrapped (r.apply ps p.2)) ?_ hfills
  intro p hp s hslot hrole hkind
  rw [kind_wrapped, id_apply, kind_apply]
  split
  · next hsome =>
    rw [hs.allowed hp hslot hrole hsome]
    rfl
  · exact hkind

theorem uncut_apply_go (hs : r.Suits ps (.mk n cs)) (hfills : fills n.kind.slots cs = true)
    (hcs : ∀ p ∈ cs, (r.apply ps p.2).uncut = true) :
    ∀ q ∈ apply.go r ps cs, q.2.uncut = true := by
  intro q hq
  rw [apply_go_eq_map] at hq
  obtain ⟨p, hp, rfl⟩ := mem_map.mp hq
  by_cases hsome : (r.casts.get? p.2.id).isSome
  · obtain ⟨s, hslot, hrole, hkind⟩ := fills_mem hfills p hp
    refine uncut_wrapped (hcs p hp) ?_
    rw [kind_apply, ← hs.allowed hp hslot hrole.symm hsome]
    exact hkind
  · rw [wrapped, id_apply, Option.not_isSome_iff_eq_none.mp hsome]
    exact hcs p hp

/-- The call of a call statement is not cast. -/
theorem call_apply_go (hs : r.Suits ps (.mk n cs)) (hu : (Tree.mk n cs).uncut = true)
    (hk : n.kind = .callStatement) : ∀ q ∈ apply.go r ps cs, q.2.kind = .call := by
  intro q hq
  rw [apply_go_eq_map] at hq
  obtain ⟨p, hp, rfl⟩ := mem_map.mp hq
  have hrole := Kind.role_of_callStatement (hk ▸ uncut_fills hu) p hp
  rw [kind_wrapped, id_apply, kind_apply, if_neg]
  · simp only [uncut, hk, Bool.and_eq_true, bne_self_eq_false, Bool.false_or, all_eq_true,
      beq_iff_eq] at hu
    exact hu.1.2 p hp
  · intro hsome
    rcases hs.casts _ (mem_subtrees_self _) p hp hsome with h | h <;>
      · rw [hrole] at h
        cases h

end

/-- A tree with its casts and pointer types is one as the parser gives it. -/
theorem uncut_apply (s : Tree) (hs : r.Suits ps s) (hu : s.uncut = true) :
    (r.apply ps s).uncut = true := by
  induction s using ofChildren with
  | step n cs ih =>
  have hplain : (n.kind.inserted || n.kind.generated) = false := by
    rw [uncut_inserted hu, uncut_generated hu]
    rfl
  have hfills := fills_apply_go hs (uncut_fills hu)
  have hcs : ∀ q ∈ apply.go r ps cs, q.2.uncut = true :=
    uncut_apply_go hs (uncut_fills hu) fun p hp => ih p hp (hs.child hp) (uncut_child hu hp)
  rw [apply]
  cases hlook : ps.lookup n.id with
  | none =>
    refine uncut_of (kind_linked n) hplain hfills ?_ hcs
    by_cases hk : n.kind = .callStatement
    · exact .inr (call_apply_go hs hu hk)
    · exact .inl hk
  | some p =>
    -- The node takes its pointer type, in a role where it had nothing.
    obtain ⟨hk, hnone, hp, hpk⟩ := hs.pointers _ (mem_subtrees_self _) p hlook
    have hlookup : (apply.go r ps cs).lookup .pointer = none := by
      rw [apply_go_eq_map]
      rw [child?, children, lookup_eq_none_iff] at hnone
      rw [lookup_eq_none_iff]
      intro q hq
      obtain ⟨c, hc, rfl⟩ := mem_map.mp hq
      exact hnone c hc
    refine uncut_of (kind_linked n) hplain (fills_pointer hk hlookup hpk hfills) (.inl ?_) ?_
    · rintro hcall
      rw [kind, node, hcall] at hk
      cases hk
    · exact forall_mem_cons.mpr ⟨hp, hcs⟩

/-- A pointer type that is finished is uncut, if those behind it suit it. The induction is on the
pointer types from the last one on, in which order they are finished. -/
theorem uncut_finished {ps : List (NodeId × Tree)}
    (huncut : ∀ q ∈ ps, q.2.uncut = true ∧ q.2.kind.isA .typeDecl = true)
    (hsuits : ∀ qs q rs, ps = qs ++ q :: rs →
      (∀ p ∈ r.finished rs, p.2.uncut = true ∧ p.2.kind.isA .typeDecl = true) →
        r.Suits (r.finished rs) q.2) :
    ∀ p ∈ r.finished ps, p.2.uncut = true ∧ p.2.kind.isA .typeDecl = true := by
  induction ps with
  | nil => simp [finished]
  | cons q ps ih =>
    obtain ⟨type, t⟩ := q
    have hrest := ih (fun p hp => huncut p (mem_cons_of_mem _ hp)) fun qs q rs h =>
      hsuits ((type, t) :: qs) q rs (by rw [h]; rfl)
    obtain ⟨hu, hk⟩ := huncut (type, t) mem_cons_self
    refine forall_mem_cons.mpr ⟨⟨?_, ?_⟩, hrest⟩
    · exact uncut_apply t (hsuits [] (type, t) ps rfl hrest) hu
    · rw [kind_apply]
      exact hk

end Resolution

namespace Resolve

open Resumable.Tree

variable {r r' : Resolution} {as : List Act}

/-- A pointer type belongs to a type that has a place for it. -/
theorem owned_of_acts (h : Acts r as r') (known : Tree → Prop)
    (hr : ∀ id s, r.index.get? id = some s → known s ∧ s.id = id) :
    (∀ q ∈ pointers as, q.2.uncut = true ∧ q.2.kind.isA .typeDecl = true ∧
      ∃ s, s.id = q.1 ∧ s.kind.isA .addressableDecl = true ∧ s.child? .pointer = none ∧
        (known s ∨ ∃ p ∈ pointers as, s ∈ p.2.subtrees)) ∧
      ∀ id s, r'.index.get? id = some s →
        (known s ∨ ∃ p ∈ pointers as, s ∈ p.2.subtrees) ∧ s.id = id := by
  induction h generalizing known with
  | quiet h =>
    refine ⟨by simp, fun id s hs => ?_⟩
    obtain ⟨hk, hid⟩ := hr id s (h.index ▸ hs)
    exact ⟨.inl hk, hid⟩
  | type h => exact ⟨by simp, fun id s hs => ⟨.inl (hr id s hs).1, (hr id s hs).2⟩⟩
  | cast => exact ⟨by simp, fun id s hs => ⟨.inl (hr id s hs).1, (hr id s hs).2⟩⟩
  | @pointer r r' type p h =>
    obtain ⟨t, ht, hkind, hnone⟩ := h.known
    obtain ⟨hknown, hid⟩ := hr type t ht
    have htype : p.kind.isA .typeDecl = true := by
      have hpart := h.part.1.2
      revert hpart
      cases p.kind <;> decide
    refine ⟨?_, fun id s hs => ?_⟩
    · simp only [pointers_pointer, mem_singleton, forall_eq]
      exact ⟨h.part.1.1, htype, t, hid, hkind, hnone, .inl hknown⟩
    · rw [h.index] at hs
      rcases get?_addTree hs with hs | ⟨hmem, rfl⟩
      · exact ⟨.inl (hr id s hs).1, (hr id s hs).2⟩
      · exact ⟨.inr ⟨(type, p), by simp, hmem⟩, rfl⟩
  | @trans r₁ r₂ r₃ as bs _ _ ih ih' =>
    obtain ⟨hown, hindex⟩ := ih known hr
    obtain ⟨hown', hindex'⟩ := ih' _ hindex
    -- what is known behind the first acts is known at the start or was made by them
    have hjoin : ∀ s, (known s ∨ ∃ p ∈ pointers as, s ∈ p.2.subtrees) ∨
        (∃ p ∈ pointers bs, s ∈ p.2.subtrees) →
        known s ∨ ∃ p ∈ pointers (as ++ bs), s ∈ p.2.subtrees := by
      rintro s ((h | ⟨p, hp, hs⟩) | ⟨p, hp, hs⟩)
      · exact .inl h
      · exact .inr ⟨p, by simp [hp], hs⟩
      · exact .inr ⟨p, by simp [hp], hs⟩
    refine ⟨fun q hq => ?_, fun id s hs => ?_⟩
    · rw [pointers_append, mem_append] at hq
      rcases hq with hq | hq
      · obtain ⟨hu, hk, s, hid, ha, hn, hs⟩ := hown q hq
        exact ⟨hu, hk, s, hid, ha, hn, hjoin s (.inl hs)⟩
      · obtain ⟨hu, hk, s, hid, ha, hn, hs⟩ := hown' q hq
        exact ⟨hu, hk, s, hid, ha, hn, hjoin s hs⟩
    · obtain ⟨hs, hid⟩ := hindex' id s hs
      exact ⟨hjoin s hs, hid⟩

section

variable {t : Tree} {l : Log}

/-- Casts and pointer types stand where there is a place for them. -/
theorem suits_of_acts (hacts : Acts (begun t l) as r) (hbal : Balanced (UsesIn t) as)
    (hnd : t.ids.Nodup) (hlt : ∀ i ∈ t.ids, i < l.nextId) {ps : List (NodeId × Tree)}
    (hps : ∀ p ∈ ps, p.1 ∈ (pointers as).map (·.1) ∧ p.2.uncut = true ∧
      p.2.kind.isA .typeDecl = true) :
    ∀ a ∈ t :: (pointers as).map (·.2), r.Suits ps a := by
  have hall := nodup_made hacts hnd hlt
  have hbags : (bags (t :: (pointers as).map (·.2))).Nodup := by
    rw [bags_cons]
    exact Multiset.nodup_of_le (add_le_add_right (Multiset.le_add_left _ _) _) hall
  obtain ⟨hown, _⟩ := owned_of_acts hacts (fun s => s ∈ t.subtrees) fun id s hs => get?_begun hs
  intro a ha
  refine ⟨fun u hu p hp => ?_, fun u hu q hq hsome => ?_⟩
  · obtain ⟨hmem, hpu, hpk⟩ := hps (u.id, p) (mem_of_lookup hp)
    obtain ⟨q, hq, hqu⟩ := mem_map.mp hmem
    obtain ⟨_, _, s, hid, hkind, hnone, hs⟩ := hown q hq
    -- the type for which the pointer was made is the one with its number
    have heq : s = u := by
      rcases hs with hs | ⟨p', hp', hs⟩
      · exact eq_of_id_eq_bags hbags mem_cons_self ha hs hu (hid.trans hqu)
      · exact eq_of_id_eq_bags hbags (mem_cons_of_mem _ (mem_map_of_mem hp')) ha hs hu
          (hid.trans hqu)
    subst heq
    exact ⟨hkind, hnone, hpu, hpk⟩
  · obtain ⟨c, hc⟩ := Option.isSome_iff_exists.mp hsome
    obtain ⟨v, s, hs, -, x, hx, hxid⟩ := used_of_cast hacts hbal hc
    have hheld : ∃ w ∈ t.subtrees, ∃ role, (role, x) ∈ w.children ∧
        (role = .arguments ∨ role = .right) := by
      rcases mem_castable hx with hx | ⟨l', hl', hx⟩
      · exact ⟨s, hs, _, hx, .inr rfl⟩
      · exact ⟨l', mem_subtrees_trans (mem_subtrees_child hl') hs, _, hx, .inl rfl⟩
    obtain ⟨w, hw, role, hxw, hrole⟩ := hheld
    -- what is used stands in the tree, and there it is held once
    have hxt : x ∈ t.subtrees := mem_subtrees_trans (mem_subtrees_child hxw) hw
    have hqa : q.2 ∈ a.subtrees := mem_subtrees_trans (mem_subtrees_child hq) hu
    rcases mem_cons.mp ha with rfl | ha
    · rw [← (held_once hnd hw hu hxw hq hxid).2]
      exact hrole
    · rw [bags_cons, Multiset.nodup_add] at hbags
      have hin : x.id ∈ t.bag := Multiset.mem_coe.mpr (id_mem_ids hxt)
      exact absurd (hxid ▸ id_mem_bags ha hqa) (Multiset.disjoint_left.mp hbags.2.2 hin)

theorem suits_of_run (h : run env t { log := l } = .ok t' r') (hnd : t.ids.Nodup)
    (hlt : ∀ i ∈ t.ids, i < l.nextId) :
    ∃ r as, Acts (begun t l) as r ∧ t' = r.settle t ∧ r.Suits (r.finished r.pointers) t := by
  obtain ⟨r, as, hacts, hbal, rfl, -, -, -⟩ := run_inv h hnd
  obtain ⟨hown, _⟩ := owned_of_acts hacts (fun s => s ∈ t.subtrees) fun id s hs => get?_begun hs
  have hpointers : r.pointers = pointers as := by
    simpa [begun] using (pointers_of_acts hacts).1
  have hfinished : ∀ ps, (∀ p ∈ ps, p ∈ pointers as) → ∀ p ∈ r.finished ps,
      p.1 ∈ (pointers as).map (·.1) := by
    intro ps hps p hp
    have hmem : p.1 ∈ (r.finished ps).map (·.1) := mem_map_of_mem hp
    rw [r.map_fst_finished] at hmem
    obtain ⟨q, hq, heq⟩ := mem_map.mp hmem
    exact mem_map.mpr ⟨q, hps q hq, heq⟩
  -- A pointer type may itself take pointers made later, so the list is finished from its end.
  have huncut : ∀ p ∈ r.finished (pointers as), p.2.uncut = true ∧
      p.2.kind.isA .typeDecl = true := by
    refine Resolution.uncut_finished (fun q hq => ⟨(hown q hq).1, (hown q hq).2.1⟩) ?_
    intro qs q rs heq hrs
    have hmem : ∀ p ∈ q :: rs, p ∈ pointers as := fun p hp => by
      rw [heq]
      exact mem_append_right _ hp
    refine suits_of_acts hacts hbal hnd hlt (fun p hp => ⟨?_, hrs p hp⟩) q.2 ?_
    · exact hfinished rs (fun p hp => hmem p (mem_cons_of_mem _ hp)) p hp
    · exact mem_cons_of_mem _ (mem_map_of_mem (hmem q mem_cons_self))
  refine ⟨r, as, hacts, rfl, ?_⟩
  rw [hpointers]
  exact suits_of_acts hacts hbal hnd hlt
    (fun p hp => ⟨hfinished _ (fun _ h => h) p hp, huncut p hp⟩) t mem_cons_self

theorem parts_of_run (h : run env t { log := l } = .ok t' r') (hnd : t.ids.Nodup)
    (hlt : ∀ i ∈ t.ids, i < l.nextId) (hroot : t.kind = .root)
    (hroles : ∀ p ∈ t.children, p.1 ≠ .arguments ∧ p.1 ≠ .right) :
    ∃ (n : Node) (f : Tree → Tree), t' = .mk n (t.children.map fun p => (p.1, f p.2)) ∧
      n.kind = .root ∧
      ∀ p ∈ t.children, (f p.2).kind = p.2.kind ∧ (p.2.uncut = true → (f p.2).uncut = true) := by
  obtain ⟨r, as, hacts, rfl, hsuits⟩ := suits_of_run h hnd hlt
  obtain ⟨n, cs⟩ := t
  refine ⟨r.linked n, r.apply (r.finished r.pointers), ?_, ?_, fun p hp => ⟨?_, fun hu => ?_⟩⟩
  · -- the top is no type, and its children are no operands
    have hlook : (r.finished r.pointers).lookup n.id = none := by
      cases hlook : (r.finished r.pointers).lookup n.id with
      | none => rfl
      | some p =>
        have hk := (hsuits.pointers _ (mem_subtrees_self _) p hlook).1
        rw [hroot] at hk
        cases hk
    have hmap : Resolution.apply.go r (r.finished r.pointers) cs =
        cs.map fun p => (p.1, r.apply (r.finished r.pointers) p.2) := by
      rw [Resolution.apply_go_eq_map]
      refine map_congr_left fun p hp => ?_
      have hnone : r.casts.get? p.2.id = none := by
        by_contra hsome
        have hrole := hsuits.casts _ (mem_subtrees_self _) p hp
          (Option.isSome_iff_ne_none.mpr hsome)
        have hne := hroles p hp
        rcases hrole with h | h
        · exact hne.1 h
        · exact hne.2 h
      rw [Resolution.wrapped, Resolution.id_apply, hnone]
    change r.apply (r.finished r.pointers) _ = _
    rw [Resolution.apply, hlook, hmap]
    rfl
  · rw [Resolution.kind_linked]
    exact hroot
  · exact Resolution.kind_apply _
  · exact Resolution.uncut_apply _ (hsuits.child hp) hu

end

end Resolve

end Resumable
