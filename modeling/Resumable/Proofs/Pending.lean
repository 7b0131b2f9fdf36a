import Resumable.Proofs.Jobs

/-!
# States that are still stored

A function that is left for good must have no state stored, because its caller takes a stored state
for a function that is still at work. This module follows through a tree whether a state may be
stored, from its beginning and from all its labels, round its loops as well.

* `Tree.missed_mono`: the `return`s that a stored state may reach grow with what may be stored.
* `Tree.pending_le`: a state is stored behind a statement only if one was stored before it or the
  statement has a label.
* `Reaches.settled`: the invariant of a whole run.
* `Reaches.mem_missed`: a `return` that is reached with a stored state is one of those that
  were found in the tree.
-/

namespace Resumable

open List hiding iterate

open Job

variable {s s' : Bool} {t body : Tree} {w ts : List Job} {cs : Children} {p : Point} {r : Role}

namespace Tree

/-! ## Whether a state is stored -/

/-- Whether a state may be stored behind the tree, if one may be stored before it or not. -/
def pending : Bool → Tree → Bool
  | s, mk n cs =>
    match n.kind with
    | .returnStatement | .beforeReturn => false
    | .statementList => inList s cs
    | .ifElse => inPart s .thenBranch cs || inPart s .elseBranch cs
    | _ => s || (mk n cs).isCut
where
  inList : Bool → Children → Bool
    | s, [] => s
    | s, (_, t) :: rest => inList (t.pending s) rest
  /-- Whether a state may be stored behind a part that may be missing. -/
  inPart (s : Bool) (r : Role) : Children → Bool
    | [] => s
    | (r', t) :: rest => if r = r' then t.pending s else inPart s r rest

/-- The `return` statements in a tree that may be reached while a state is stored, if one may be
stored before it. A loop that is cut comes back to its beginning with a state. -/
def missed : Bool → Tree → List Tree
  | s, mk n cs =>
    match n.kind with
    | .returnStatement => if s then [mk n cs] else []
    | .statementList => inList s cs
    | .ifElse => inPart s .thenBranch cs ++ inPart s .elseBranch cs
    | .whileLoop | .doWhileLoop | .forLoop => inPart (s || (mk n cs).isCut) .body cs
    | _ => []
where
  inList : Bool → Children → List Tree
    | _, [] => []
    | s, (_, t) :: rest => t.missed s ++ inList (t.pending s) rest
  inPart (s : Bool) (r : Role) : Children → List Tree
    | [] => []
    | (r', t) :: rest => if r = r' then t.missed s else inPart s r rest

theorem pending_inPart (s : Bool) (r : Role) (cs : Children) :
    pending.inPart s r cs = ((cs.lookup r).map (pending s)).getD s :=
  eq_lookup rfl (fun _ _ _ => rfl) cs

theorem missed_inPart (s : Bool) (r : Role) (cs : Children) :
    missed.inPart s r cs = ((cs.lookup r).map (missed s)).getD [] :=
  eq_lookup rfl (fun _ _ _ => rfl) cs

theorem pending_inList_le (ih : ∀ p ∈ cs, ∀ s, p.2.pending s = true → s = true ∨ p.2.isCut = true)
    (h : pending.inList s cs = true) : s = true ∨ ∃ p ∈ cs, p.2.isCut = true := by
  induction cs generalizing s with
  | nil => exact Or.inl h
  | cons p cs ihcs =>
    obtain ⟨ihp, ih⟩ := forall_mem_cons.mp ih
    rcases ihcs ih h with h | ⟨q, hq, hcut⟩
    · exact (ihp s h).imp_right fun hcut => ⟨p, mem_cons_self, hcut⟩
    · exact Or.inr ⟨q, mem_cons_of_mem _ hq, hcut⟩

/-- Only a label stores a state. -/
theorem pending_le (h : t.pending s = true) : s = true ∨ t.isCut = true := by
  induction t using ofChildren generalizing s with
  | step n cs ih =>
    have hpart : ∀ {r}, pending.inPart s r cs = true → s = true ∨ (mk n cs).isCut = true := by
      intro r h
      rw [pending_inPart] at h
      cases hr : cs.lookup r with
      | none =>
        rw [hr] at h
        exact Or.inl h
      | some b =>
        rw [hr] at h
        exact (ih _ (mem_of_lookup hr) h).imp_right (isCut_of_part hr)
    rw [pending] at h
    split at h
    case h_1 | h_2 => cases h
    case h_3 =>
      refine (pending_inList_le (fun p hp _ => ih p hp) h).imp_right ?_
      rintro ⟨p, hp, hcut⟩
      exact isCut_of_child hp hcut
    case h_4 =>
      rcases Bool.or_eq_true_iff.mp h with h | h
      · exact hpart h
      · exact hpart h
    -- Loops and plain statements are looked at as a whole.
    case h_5 => exact Bool.or_eq_true_iff.mp h

theorem pending_inList_mono (ih : ∀ p ∈ cs, ∀ s s', (s = true → s' = true) → p.2.pending s = true →
      p.2.pending s' = true) (hs : s = true → s' = true) (h : pending.inList s cs = true) :
    pending.inList s' cs = true := by
  induction cs generalizing s s' with
  | nil => exact hs h
  | cons p cs ihcs =>
    obtain ⟨ihp, ih⟩ := forall_mem_cons.mp ih
    exact ihcs ih (ihp s s' hs) h

/-- What may be stored behind a tree grows with what may be stored before it. -/
theorem pending_mono (hs : s = true → s' = true) (h : t.pending s = true) :
    t.pending s' = true := by
  induction t using ofChildren generalizing s s' with
  | step n cs ih =>
    have hpart : ∀ {r}, pending.inPart s r cs = true → pending.inPart s' r cs = true := by
      intro r h
      rw [pending_inPart] at h ⊢
      cases hr : cs.lookup r with
      | none =>
        rw [hr] at h
        exact hs h
      | some b =>
        rw [hr] at h
        exact ih _ (mem_of_lookup hr) hs h
    rw [pending] at h ⊢
    split at h
    case h_1 | h_2 => cases h
    case h_3 hk => exact pending_inList_mono (fun p hp _ _ => ih p hp) hs h
    case h_4 hk =>
      rw [Bool.or_eq_true_iff] at h ⊢
      exact h.imp hpart hpart
    case h_5 hk =>
      rw [Bool.or_eq_true_iff] at h ⊢
      exact h.imp_left hs

theorem missed_inList_mono
    (ih : ∀ p ∈ cs, ∀ s s', (s = true → s' = true) → p.2.missed s ⊆ p.2.missed s')
    (hs : s = true → s' = true) : missed.inList s cs ⊆ missed.inList s' cs := by
  induction cs generalizing s s' with
  | nil => exact List.Subset.refl _
  | cons p cs ihcs =>
    obtain ⟨ihp, ih⟩ := forall_mem_cons.mp ih
    exact append_subset.mpr ⟨subset_append_of_subset_left _ (ihp s s' hs),
      subset_append_of_subset_right _ (ihcs ih (pending_mono hs))⟩

theorem missed_mono (hs : s = true → s' = true) : t.missed s ⊆ t.missed s' := by
  induction t using ofChildren generalizing s s' with
  | step n cs ih =>
    have hpart : ∀ {r s s'}, (s = true → s' = true) →
        missed.inPart s r cs ⊆ missed.inPart s' r cs := by
      intro r s s' hs
      rw [missed_inPart, missed_inPart]
      cases hr : cs.lookup r with
      | none => exact List.Subset.refl _
      | some b => exact ih _ (mem_of_lookup hr) hs
    rw [missed, missed]
    split
    case h_1 =>
      intro t ht
      cases s with
      | false => cases ht
      | true => rwa [hs rfl]
    case h_2 => exact missed_inList_mono (fun p hp _ _ => ih p hp) hs
    case h_3 =>
      exact append_subset.mpr ⟨subset_append_of_subset_left _ (hpart hs),
        subset_append_of_subset_right _ (hpart hs)⟩
    -- A loop starts with what is stored before it or by itself.
    case h_4 | h_5 | h_6 =>
      refine hpart fun h => ?_
      rw [Bool.or_eq_true_iff] at h ⊢
      exact h.imp_left hs
    case h_7 => exact List.Subset.refl _

mutual

theorem pending_mapNodes {g : Node → Node} (hg : Renames g) :
    (t : Tree) → ∀ s, (t.mapNodes g).pending s = t.pending s
  | mk n cs, s => by
    have hcut : (mk (g n) (mapNodes.go g cs)).isCut = (mk n cs).isCut := isCut_mapNodes hg (mk n cs)
    rw [mapNodes, pending, pending, hg.kind, pending_inList_mapNodes hg cs,
      pending_inPart_mapNodes hg cs, pending_inPart_mapNodes hg cs, hcut]

theorem pending_inList_mapNodes {g : Node → Node} (hg : Renames g) :
    (cs : Children) → ∀ s,
    pending.inList s (mapNodes.go g cs) = pending.inList s cs
  | [], _ => rfl
  | (_, t) :: rest, s => by
    rw [mapNodes.go, pending.inList, pending.inList, pending_mapNodes hg t,
      pending_inList_mapNodes hg rest]

theorem pending_inPart_mapNodes {g : Node → Node} (hg : Renames g) :
    (cs : Children) → ∀ s r,
    pending.inPart s r (mapNodes.go g cs) = pending.inPart s r cs
  | [], _, _ => rfl
  | (_, t) :: rest, s, r => by
    rw [mapNodes.go, pending.inPart, pending.inPart, pending_mapNodes hg t,
      pending_inPart_mapNodes hg rest]

end

end Tree

/-! ## Work -/

/-- Whether a state may be stored behind a job, if one may be stored before it. -/
def Job.pending (s : Bool) : Job → Bool
  | run t => t.pending s
  | test t | iterate t => s || t.isCut
  | wait _ | call _ => s

/-- The `return` statements that a job may reach while a state is stored. -/
def Job.missed (s : Bool) : Job → List Tree
  | run t => t.missed s
  | test t | iterate t => Tree.missed.inPart (s || t.isCut) .body t.children
  | wait _ | call _ => []

/-- All `return` statements that some jobs may reach while a state is stored are among the given
ones, and no state is stored at the end unless that is allowed. -/
def Settled (allowed : List Tree) (open_ : Bool) : Bool → List Job → Prop
  | s, [] => s = true → open_ = true
  | s, j :: w => j.missed s ⊆ allowed ∧ Settled allowed open_ (j.pending s) w

section

variable {allowed : List Tree} {open_ : Bool}

open Resumable.Tree

theorem or_mono {b : Bool} (hs : s = true → s' = true) (h : (s || b) = true) :
    (s' || b) = true := by
  rw [Bool.or_eq_true_iff] at h ⊢
  exact h.imp_left hs

theorem missed_part_mono (hs : s = true → s' = true) :
    missed.inPart s r cs ⊆ missed.inPart s' r cs := by
  rw [missed_inPart, missed_inPart]
  cases cs.lookup r with
  | none => exact List.Subset.refl _
  | some b => exact missed_mono hs

theorem pending_part_le {n : Node} (h : pending.inPart s r cs = true) :
    s = true ∨ (Tree.mk n cs).isCut = true := by
  rw [pending_inPart] at h
  cases hr : cs.lookup r with
  | none =>
    rw [hr] at h
    exact Or.inl h
  | some b =>
    rw [hr] at h
    exact (pending_le h).imp_right (isCut_of_part hr)

/-- Fewer stored states are no harm to work that is settled. -/
theorem Settled.mono (h : Settled allowed open_ s w) (hs : s' = true → s = true) :
    Settled allowed open_ s' w := by
  induction w generalizing s s' with
  | nil => exact fun h' => h (hs h')
  | cons j w ih =>
    obtain ⟨hj, hw⟩ := h
    cases j with
    | run t => exact ⟨List.Subset.trans (missed_mono hs) hj, ih hw (pending_mono hs)⟩
    | test t | iterate t =>
      exact ⟨List.Subset.trans (missed_part_mono (or_mono hs)) hj, ih hw (or_mono hs)⟩
    | wait t | call t => exact ⟨nil_subset _, ih hw hs⟩

theorem settled_runAll (hm : missed.inList s cs ⊆ allowed)
    (hw : Settled allowed open_ (pending.inList s cs) w) :
    Settled allowed open_ s (runAll cs ++ w) := by
  induction cs generalizing s with
  | nil => exact hw
  | cons p cs ih =>
    obtain ⟨ht, hm⟩ := append_subset.mp hm
    exact ⟨ht, ih hm hw⟩

theorem settled_runIn (hm : missed.inPart s r t.children ⊆ allowed)
    (hw : Settled allowed open_ (pending.inPart s r t.children) w) :
    Settled allowed open_ s (runIn t r ++ w) := by
  rw [missed_inPart] at hm
  rw [pending_inPart] at hw
  rw [runIn, child?]
  cases hr : t.children.lookup r with
  | none =>
    rw [hr] at hw
    exact hw
  | some b =>
    rw [hr] at hm hw
    exact ⟨hm, hw⟩

theorem settled_afterRound (hm : missed.inPart (s || t.isCut) .body t.children ⊆ allowed)
    (hw : Settled allowed open_ (s || t.isCut) w) :
    Settled allowed open_ s (afterRound t :: w) := by
  unfold afterRound
  split
  · exact ⟨hm, hw⟩
  · exact ⟨hm, hw⟩

/-- One more round of a loop starts with what its own labels may have stored. -/
theorem settled_round (hm : missed.inPart (s || t.isCut) .body t.children ⊆ allowed)
    (hw : Settled allowed open_ (s || t.isCut) w) :
    Settled allowed open_ s (runIn t .body ++ [afterRound t] ++ w) := by
  have hround : pending.inPart s .body t.children = true → (s || t.isCut) = true := by
    obtain ⟨n, cs⟩ := t
    exact fun h => Bool.or_eq_true_iff.mpr (pending_part_le h)
  have hagain : (pending.inPart s .body t.children || t.isCut) = true → (s || t.isCut) = true := by
    intro h
    rcases Bool.or_eq_true_iff.mp h with h | h
    · exact hround h
    · rw [h, Bool.or_true]
  rw [append_assoc]
  refine settled_runIn (List.Subset.trans (missed_part_mono fun h => ?_) hm)
    (settled_afterRound ?_ ?_)
  · rw [h, Bool.true_or]
  · exact List.Subset.trans (missed_part_mono hagain) hm
  · exact hw.mono hagain

/-- A job that is carried out without a stop leaves settled work. -/
theorem Settled.next {j : Job} {yes : Bool} (h : Settled allowed open_ s (j :: w))
    (hf : j.flow yes = .next ts) : Settled allowed open_ s (ts ++ w) := by
  obtain ⟨hm, hw⟩ := h
  cases j with
  | run t =>
    obtain ⟨n, cs⟩ := t
    simp only [flow, kind, node] at hf
    split at hf
    case h_1 hk =>
      cases hf
      simp only [Job.missed, Job.pending, Tree.missed, Tree.pending, hk] at hm hw
      exact settled_runAll hm hw
    -- Behind a branch a state may be stored if one of the two may have stored it.
    case h_2 hk =>
      cases hf
      simp only [Job.missed, Job.pending, Tree.missed, Tree.pending, hk] at hm hw
      obtain ⟨hthen, helse⟩ := append_subset.mp hm
      cases yes with
      | true => exact settled_runIn hthen (hw.mono fun h => Bool.or_eq_true_iff.mpr (Or.inl h))
      | false => exact settled_runIn helse (hw.mono fun h => Bool.or_eq_true_iff.mpr (Or.inr h))
    case h_3 hk | h_4 hk =>
      cases hf
      simp only [Job.missed, Job.pending, Tree.missed, Tree.pending, hk] at hm hw
      exact ⟨hm, hw⟩
    -- A `do` loop begins with its body, like every further round of the other loops.
    case h_5 hk =>
      cases hf
      simp only [Job.missed, Job.pending, Tree.missed, Tree.pending, hk] at hm hw
      exact settled_round hm hw
    case h_6 | h_7 | h_8 | h_9 | h_10 | h_11 | h_12 | h_13 | h_14 => cases hf
    case h_15 =>
      cases hf
      simp only [Job.pending, Tree.pending] at hw
      exact hw.mono fun h => Bool.or_eq_true_iff.mpr (Or.inl h)
  | test t =>
    cases hf
    cases yes with
    | true => exact settled_round hm hw
    | false => exact hw.mono fun h => Bool.or_eq_true_iff.mpr (Or.inl h)
  | iterate t =>
    cases hf
    exact ⟨hm, hw⟩
  | wait t | call t => cases hf

theorem settled_seek_inList {k : Int}
    (ih : ∀ p ∈ cs, ∀ ts w s, p.2.seek k = some ts → p.2.missed s ⊆ allowed →
      Settled allowed open_ (p.2.pending s) w → Settled allowed open_ true (ts ++ w))
    (h : seek.inList k cs = some ts) (hm : missed.inList s cs ⊆ allowed)
    (hw : Settled allowed open_ (pending.inList s cs) w) :
    Settled allowed open_ true (ts ++ w) := by
  induction cs generalizing s with
  | nil => cases h
  | cons p cs ihcs =>
    obtain ⟨r, t⟩ := p
    obtain ⟨iht, ih⟩ := forall_mem_cons.mp ih
    obtain ⟨ht, hm⟩ := append_subset.mp hm
    rw [seek.inList] at h
    cases hseek : t.seek k with
    | none =>
      rw [hseek] at h
      exact ihcs ih h hm hw
    | some us =>
      rw [hseek] at h
      cases h
      rw [append_assoc]
      -- Behind the label the rest of the list follows.
      exact iht us _ s hseek ht (settled_runAll hm hw)

/-- What is left to do behind a label is settled if a state is stored there. -/
theorem settled_seek {k : Int} (h : t.seek k = some ts) (hm : t.missed s ⊆ allowed)
    (hw : Settled allowed open_ (t.pending s) w) : Settled allowed open_ true (ts ++ w) := by
  induction t using ofChildren generalizing ts w s with
  | step n cs ih =>
    -- A tree that is entered at a label has one, so what it may have stored is known.
    have hcut := isCut_of_seek h
    have hpart : ∀ {r s ts w}, seek.inPart k r cs = some ts → missed.inPart s r cs ⊆ allowed →
        Settled allowed open_ (pending.inPart s r cs) w →
        Settled allowed open_ true (ts ++ w) := by
      intro r s ts w h hm hw
      rw [seek_inPart] at h
      rw [missed_inPart] at hm
      rw [pending_inPart] at hw
      obtain ⟨b, hb, h⟩ := Option.bind_eq_some_iff.mp h
      rw [hb] at hm hw
      exact ih _ (mem_of_lookup hb) h hm hw
    rw [seek] at h
    split at h
    case h_1 hk | h_2 hk =>
      simp only [Tree.pending, hk, hcut, Bool.or_true] at hw
      split at h
      · cases h
        exact hw
      · cases h
    case h_3 hk | h_4 hk | h_5 hk =>
      simp only [Tree.pending, hk, hcut, Bool.or_true] at hw
      split at h
      · cases h
        exact ⟨nil_subset _, hw⟩
      · cases h
    case h_6 hk =>
      simp only [Tree.missed, Tree.pending, hk] at hm hw
      exact settled_seek_inList (fun p hp _ _ _ => ih p hp) h hm hw
    case h_7 hk =>
      simp only [Tree.missed, Tree.pending, hk] at hm hw
      obtain ⟨hthen, helse⟩ := append_subset.mp hm
      rcases Option.or_eq_some_iff.mp h with h | ⟨-, h⟩
      · exact hpart h hthen (hw.mono fun h => Bool.or_eq_true_iff.mpr (Or.inl h))
      · exact hpart h helse (hw.mono fun h => Bool.or_eq_true_iff.mpr (Or.inr h))
    case h_8 hk | h_9 hk | h_10 hk =>
      simp only [Tree.missed, Tree.pending, hk, hcut, Bool.or_true] at hm hw
      obtain ⟨us, hbody, rfl⟩ := Option.map_eq_some_iff.mp h
      rw [append_assoc]
      -- Behind a label in the body the rest of this round is run, and then the loop goes on.
      refine hpart hbody hm (settled_afterRound ?_ ?_)
      · rw [hcut, Bool.or_true]
        exact hm
      · rw [hcut, Bool.or_true]
        exact hw
    case h_11 => cases h

/-- One move of a run keeps the invariant. -/
theorem settled_moves {q : Point} (hm : Moves p q)
    (h : ∃ s, (p.stored ≠ 0 → s = true) ∧ Settled allowed open_ s p.work) :
    ∃ s, (q.stored ≠ 0 → s = true) ∧ Settled allowed open_ s q.work := by
  obtain ⟨s, hs, h⟩ := h
  cases hm with
  | next hf => exact ⟨s, hs, h.next hf⟩
  | store hf =>
    obtain ⟨-, hw⟩ := h
    -- Two kinds of statements store a state of their own, a reset stores none.
    obtain ⟨⟨n, cs⟩, rfl, ⟨hk, rfl⟩ | ⟨hk, rfl⟩ | ⟨hk, hzero, rfl⟩⟩ := flow_store hf
    · have hcut : (Tree.mk n cs).isCut = true := isCut_of_kind hk rfl
      simp only [Job.pending, Tree.pending, show n.kind = _ from hk, hcut, Bool.or_true] at hw
      exact ⟨true, fun _ => rfl, hw⟩
    · have hcut : (Tree.mk n cs).isCut = true := isCut_of_kind hk rfl
      simp only [Job.pending, Tree.pending, show n.kind = _ from hk, hcut, Bool.or_true] at hw
      exact ⟨true, fun _ => rfl, nil_subset _, hw⟩
    · cases hzero
      simp only [Job.pending, Tree.pending, show n.kind = _ from hk] at hw
      exact ⟨false, fun h => absurd rfl h, hw⟩
  | ask hf =>
    obtain ⟨-, hw⟩ := h
    obtain ⟨⟨n, cs⟩, ⟨rfl, hk⟩ | rfl | rfl⟩ := flow_ask hf
    · simp only [Job.pending, Tree.pending, show n.kind = _ from hk] at hw
      exact ⟨s, hs, hw.mono fun h => Bool.or_eq_true_iff.mpr (Or.inl h)⟩
    · exact ⟨s, hs, hw⟩
    · exact ⟨s, hs, hw⟩
  | dispatch hf =>
    obtain ⟨-, hw⟩ := h
    obtain ⟨⟨n, cs⟩, rfl, hk⟩ := flow_dispatch hf
    simp only [Job.pending, Tree.pending, show n.kind = _ from hk] at hw
    exact ⟨s, hs, hw.mono fun h => Bool.or_eq_true_iff.mpr (Or.inl h)⟩

end

/-- Wherever a function comes to, the `return` statements that are left to be reached with a state
are those of the whole function. -/
theorem Reaches.settled (h : Reaches body p) :
    ∃ s, (p.stored ≠ 0 → s = true) ∧
      Settled (body.missed false) (body.pending false) s p.work := by
  refine h.invariant (I := fun p => ∃ s, (p.stored ≠ 0 → s = true) ∧
    Settled (body.missed false) (body.pending false) s p.work) ?_ ?_ ?_
  · exact ⟨false, fun h => absurd rfl h, List.Subset.refl _, fun h => h⟩
  · intro k ts hseek
    have hend : Settled (body.missed false) (body.pending false) (body.pending false) [] :=
      fun h => h
    have := settled_seek hseek (List.Subset.refl _) hend
    rw [append_nil] at this
    exact ⟨true, fun _ => rfl, this⟩
  · intro p q hI hm
    exact settled_moves hm hI

theorem Reaches.mem_missed (h : Reaches body p) (hw : p.work = run t :: w)
    (hk : t.kind = .returnStatement) (hs : p.stored ≠ 0) : t ∈ body.missed false := by
  obtain ⟨s, hstored, hset⟩ := h.settled
  rw [hw, hstored hs] at hset
  obtain ⟨n, cs⟩ := t
  refine hset.1 ?_
  simp [Job.missed, Tree.missed, show n.kind = _ from hk]

theorem Reaches.pending (h : Reaches body p) (hw : p.work = []) (hs : p.stored ≠ 0) :
    body.pending false = true := by
  obtain ⟨s, hstored, hset⟩ := h.settled
  rw [hw] at hset
  exact hset (hstored hs)

end Resumable
