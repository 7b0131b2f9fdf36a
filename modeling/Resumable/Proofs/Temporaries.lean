import Resumable.Proofs.Jobs

/-!
# Results of calls that were taken out

The result of a call that was taken out of an expression is kept in a variable of the function. The
variable is lost when the function is left, so the result has to be read before the next label. This
module follows through a tree which results are at hand, from its beginning and from all its labels,
round its loops as well.

* `Backed`: each job of a row reads only results that are at hand.
* `Backed.next`: carrying a job out keeps that.
* `backed_seek`: the work behind a label needs no results from before it.
* `Reaches.reads`: in a run a result is read only after it was stored, in the same call.
-/

namespace Resumable

open List hiding iterate

open Job

variable {rs rs' : List NodeId} {t : Tree} {cs : Children} {w ts : List Job} {r : Role} {k : Int}
  {j : Job}

namespace Tree

/-! ## Results that are read -/

/-- The calls whose kept results a tree reads, without those in its blocks. -/
def reads : Tree → List NodeId
  | mk n cs =>
    if n.kind = .statementList then []
    else (if n.kind = .callSubResult then (n.link? .declaration).toList else []) ++ go cs
where
  go : Children → List NodeId
    | [] => []
    | (_, t) :: rest => t.reads ++ go rest

theorem gathers_reads : Gathers reads.go reads := ⟨rfl, fun _ _ => rfl⟩

@[simp] theorem reads_go_append (xs ys : Children) :
    reads.go (xs ++ ys) = reads.go xs ++ reads.go ys := gathers_reads.append xs ys

theorem reads_subset_go {p : Role × Tree} (hp : p ∈ cs) : p.2.reads ⊆ reads.go cs := by
  obtain ⟨xs, ys, rfl⟩ := append_of_mem hp
  intro k hk
  simp [reads.go, hk]

theorem reads_child {e : Tree} (h : t.child? r = some e) : e.reads ⊆ reads.go t.children :=
  reads_subset_go (mem_of_lookup h)

end Tree

def Job.reads (j : Job) : List NodeId := j.operands.flatMap Tree.reads

namespace Tree

/-! ## Results that are at hand -/

/-- What is at hand in all rounds of a loop, or behind a statement with labels. -/
def lasting (rs : List NodeId) (t : Tree) : List NodeId := if t.isCut then [] else rs

/-- The results that are at hand behind a statement, on all ways that lead there. -/
def ready (rs : List NodeId) (t : Tree) : List NodeId :=
  if t.kind = .callSub then [t.id] else t.lasting rs

/-- Whatever a tree reads is at hand, if the given results are at hand before it. Behind the label
of a wait or of a call that was taken out, nothing is. -/
def backed : List NodeId → Tree → Prop
  | rs, mk n cs =>
    match n.kind with
    | .statementList => inList rs cs
    | .ifElse => (run (mk n cs)).reads ⊆ rs ∧ inPart rs .thenBranch cs ∧ inPart rs .elseBranch cs
    | .whileLoop | .doWhileLoop | .forLoop =>
      (run (mk n cs)).reads ⊆ rs ∧ (test (mk n cs)).reads ⊆ (mk n cs).lasting rs ∧
        (iterate (mk n cs)).reads ⊆ (mk n cs).lasting rs ∧
          inPart ((mk n cs).lasting rs) .body cs
    | .callSub => (call (mk n cs)).reads = []
    | _ => (run (mk n cs)).reads ⊆ rs ∧ (wait (mk n cs)).reads = []
where
  inList : List NodeId → Children → Prop
    | _, [] => True
    | rs, (_, t) :: rest => t.backed rs ∧ inList (t.ready rs) rest
  inPart (rs : List NodeId) (r : Role) : Children → Prop
    | [] => True
    | (r', t) :: rest => if r = r' then t.backed rs else inPart rs r rest

theorem backed_inPart : backed.inPart rs r cs ↔ ∀ b, cs.lookup r = some b → b.backed rs := by
  induction cs with
  | nil => simp [backed.inPart]
  | cons p cs ih =>
    obtain ⟨r', t⟩ := p
    rw [backed.inPart, lookup_cons]
    by_cases h : r = r'
    · simp [h]
    · rw [if_neg h, ih, beq_false_of_ne h]

theorem lasting_mono (h : rs ⊆ rs') : t.lasting rs ⊆ t.lasting rs' := by
  unfold lasting
  split
  · exact nil_subset _
  · exact h

theorem lasting_subset : t.lasting rs ⊆ rs := by
  unfold lasting
  split
  · exact nil_subset _
  · exact List.Subset.refl _

theorem ready_mono (h : rs ⊆ rs') : t.ready rs ⊆ t.ready rs' := by
  unfold ready
  split
  · exact List.Subset.refl _
  · exact lasting_mono h

theorem lasting_of_not_cut (h : t.isCut = false) : t.lasting rs = rs := by
  rw [lasting, h, if_neg Bool.false_ne_true]

theorem lasting_of_cut (h : t.isCut = true) : t.lasting rs = [] := by
  rw [lasting, if_pos h]

/-- A statement without a label loses no results. -/
theorem ready_of_not_cut (h : t.isCut = false) : t.ready rs = rs := by
  unfold ready
  split
  · next hk =>
    rw [isCut_of_kind hk rfl] at h
    cases h
  · exact lasting_of_not_cut h

theorem backed_inList_mono (ih : ∀ p ∈ cs, ∀ rs rs', rs ⊆ rs' → p.2.backed rs → p.2.backed rs')
    (hrs : rs ⊆ rs') (h : backed.inList rs cs) : backed.inList rs' cs := by
  induction cs generalizing rs rs' with
  | nil => trivial
  | cons p cs ihcs =>
    obtain ⟨ihp, ih⟩ := forall_mem_cons.mp ih
    exact ⟨ihp rs rs' hrs h.1, ihcs ih (ready_mono hrs) h.2⟩

/-- A tree that can do with some results can do with more. -/
theorem backed_mono (hrs : rs ⊆ rs') (h : t.backed rs) : t.backed rs' := by
  induction t using ofChildren generalizing rs rs' with
  | step n cs ih =>
    have hpart : ∀ {r rs rs'}, rs ⊆ rs' → backed.inPart rs r cs → backed.inPart rs' r cs := by
      intro r rs rs' hrs h
      rw [backed_inPart] at h ⊢
      exact fun b hb => ih _ (mem_of_lookup hb) hrs (h b hb)
    rw [backed] at h ⊢
    split at h
    case h_1 => exact backed_inList_mono (fun p hp _ _ => ih p hp) hrs h
    case h_2 =>
      obtain ⟨hrun, hthen, helse⟩ := h
      exact ⟨List.Subset.trans hrun hrs, hpart hrs hthen, hpart hrs helse⟩
    case h_3 | h_4 | h_5 =>
      obtain ⟨hrun, htest, hiterate, hbody⟩ := h
      exact ⟨List.Subset.trans hrun hrs, List.Subset.trans htest (lasting_mono hrs),
        List.Subset.trans hiterate (lasting_mono hrs), hpart (lasting_mono hrs) hbody⟩
    case h_6 => exact h
    case h_7 => exact ⟨List.Subset.trans h.1 hrs, h.2⟩

theorem backed_list_mono (hrs : rs ⊆ rs') (h : backed.inList rs cs) : backed.inList rs' cs :=
  backed_inList_mono (fun _ _ _ _ => backed_mono) hrs h

end Tree

/-! ## Work -/

/-- The results that a job reads are at hand. -/
def Job.backed (rs : List NodeId) : Job → Prop
  | run t => t.backed rs
  | test t | iterate t =>
    (test t).reads ⊆ t.lasting rs ∧ (iterate t).reads ⊆ t.lasting rs ∧
      Tree.backed.inPart (t.lasting rs) .body t.children
  | wait t => (wait t).reads ⊆ rs
  | call t => (call t).reads ⊆ rs

/-- The results that are at hand when the job is done. -/
def Job.ready (rs : List NodeId) : Job → List NodeId
  | run t => t.ready rs
  | test t | iterate t => t.lasting rs
  | wait _ => rs
  | call t => [t.id]

/-- Each job finds the results that it reads. -/
def Backed : List NodeId → List Job → Prop
  | _, [] => True
  | rs, j :: w => j.backed rs ∧ Backed (j.ready rs) w

open Resumable.Tree

theorem Backed.mono (h : Backed rs w) (hrs : rs ⊆ rs') : Backed rs' w := by
  induction w generalizing rs rs' with
  | nil => trivial
  | cons j w ih =>
    obtain ⟨hj, hw⟩ := h
    cases j with
    | run t => exact ⟨backed_mono hrs hj, ih hw (ready_mono hrs)⟩
    | test t | iterate t =>
      obtain ⟨htest, hiterate, hbody⟩ := hj
      refine ⟨⟨List.Subset.trans htest (lasting_mono hrs),
        List.Subset.trans hiterate (lasting_mono hrs), ?_⟩, ih hw (lasting_mono hrs)⟩
      rw [backed_inPart] at hbody ⊢
      exact fun b hb => backed_mono (lasting_mono hrs) (hbody b hb)
    | wait t => exact ⟨List.Subset.trans hj hrs, ih hw hrs⟩
    | call t => exact ⟨List.Subset.trans hj hrs, ih hw (List.Subset.refl _)⟩

theorem backed_runAll {rs₀ : List NodeId} (h : backed.inList rs cs) (hw : Backed rs₀ w)
    (hrs : rs₀ ⊆ rs) (hcut : rs₀ = [] ∨ ∀ p ∈ cs, p.2.isCut = false) :
    Backed rs (runAll cs ++ w) := by
  induction cs generalizing rs with
  | nil => exact hw.mono hrs
  | cons p cs ih =>
    obtain ⟨ht, hrest⟩ := h
    refine ⟨ht, ih hrest ?_ (hcut.imp_right fun h => (forall_mem_cons.mp h).2)⟩
    rcases hcut with rfl | hcut
    · exact nil_subset _
    · change rs₀ ⊆ p.2.ready rs
      rwa [ready_of_not_cut (forall_mem_cons.mp hcut).1]

theorem backed_runIn (h : backed.inPart rs r t.children) (hw : Backed (t.lasting rs) w) :
    Backed rs (runIn t r ++ w) := by
  rw [backed_inPart] at h
  rw [runIn, child?]
  cases hr : t.children.lookup r with
  | none => exact hw.mono lasting_subset
  | some b =>
    refine ⟨h b hr, hw.mono ?_⟩
    -- A part of an uncut tree is uncut itself, so what is at hand before it is so behind it.
    cases hcut : t.isCut with
    | true =>
      rw [lasting_of_cut hcut]
      exact nil_subset _
    | false =>
      have hb : b.isCut = false := by
        obtain ⟨n, cs⟩ := t
        exact not_isCut_child hcut (mem_of_lookup hr)
      rw [lasting_of_not_cut hcut]
      change rs ⊆ b.ready rs
      rw [ready_of_not_cut hb]
      exact List.Subset.refl _

theorem lasting_lasting : t.lasting (t.lasting rs) = t.lasting rs := by
  unfold lasting
  split <;> rfl

theorem backed_afterRound (h : (test t).backed rs) (hw : Backed (t.lasting rs) w) :
    Backed (t.lasting rs) (afterRound t :: w) := by
  have hloop : (test t).backed (t.lasting rs) := by
    simpa only [Job.backed, lasting_lasting] using h
  unfold afterRound
  split <;>
  · refine ⟨hloop, ?_⟩
    simpa only [Job.ready, lasting_lasting] using hw

theorem backed_round (h : (test t).backed rs) (hw : Backed (t.lasting rs) w) :
    Backed rs (runIn t .body ++ [afterRound t] ++ w) := by
  have hafter := backed_afterRound h hw
  rw [append_assoc]
  refine (backed_runIn h.2.2 ?_).mono lasting_subset
  rw [lasting_lasting]
  exact hafter

/-- A job that is carried out without a stop leaves work that finds its results. -/
theorem Backed.next {j : Job} {yes : Bool} (h : Backed rs (j :: w)) (hf : j.flow yes = .next ts) :
    Backed rs (ts ++ w) := by
  obtain ⟨hj, hw⟩ := h
  cases j with
  | run t =>
    -- Only a call brings a new result, and calls have a flow of their own.
    have hlasting : Backed (t.lasting rs) w ∨ t.kind = .callSub := by
      by_cases hk : t.kind = .callSub
      · exact Or.inr hk
      · rw [Job.ready, Tree.ready, if_neg hk] at hw
        exact Or.inl hw
    obtain ⟨n, cs⟩ := t
    simp only [flow, kind, node] at hf
    split at hf
    case h_1 hk =>
      cases hf
      have hw := hlasting.resolve_right (by simp [kind, node, hk])
      simp only [Job.backed, Tree.backed, hk] at hj
      refine backed_runAll hj hw lasting_subset ?_
      -- With a label in the list nothing lasts; without one everything does.
      cases hcut : (mk n cs).isCut with
      | true => exact Or.inl (lasting_of_cut hcut)
      | false => exact Or.inr fun p hp => not_isCut_child hcut hp
    case h_2 hk =>
      cases hf
      have hw := hlasting.resolve_right (by simp [kind, node, hk])
      simp only [Job.backed, Tree.backed, hk] at hj
      cases yes with
      | true => exact backed_runIn hj.2.1 hw
      | false => exact backed_runIn hj.2.2 hw
    case h_3 hk | h_4 hk =>
      cases hf
      have hw := hlasting.resolve_right (by simp [kind, node, hk])
      simp only [Job.backed, Tree.backed, hk] at hj
      exact ⟨hj.2, hw⟩
    case h_5 hk =>
      cases hf
      have hw := hlasting.resolve_right (by simp [kind, node, hk])
      simp only [Job.backed, Tree.backed, hk] at hj
      exact backed_round hj.2 hw
    case h_6 | h_7 | h_8 | h_9 | h_10 | h_11 | h_12 | h_13 | h_14 => cases hf
    case h_15 =>
      cases hf
      rcases hlasting with hw | hk
      · exact hw.mono lasting_subset
      · contradiction
  | test t =>
    cases hf
    cases yes with
    | true => exact backed_round hj hw
    | false => exact hw.mono lasting_subset
  | iterate t =>
    cases hf
    exact ⟨hj, hw⟩
  | wait t | call t => cases hf

theorem backed_seek_inList (ih : ∀ p ∈ cs, ∀ ts w rs, p.2.seek k = some ts → p.2.backed rs →
      Backed (p.2.ready rs) w → Backed [] (ts ++ w)) (h : seek.inList k cs = some ts)
    (hcs : backed.inList rs cs) (hw : Backed [] w) : Backed [] (ts ++ w) := by
  induction cs generalizing rs with
  | nil => cases h
  | cons p cs ihcs =>
    obtain ⟨r, t⟩ := p
    obtain ⟨iht, ih⟩ := forall_mem_cons.mp ih
    obtain ⟨ht, hrest⟩ := hcs
    rw [seek.inList] at h
    cases hseek : t.seek k with
    | none =>
      rw [hseek] at h
      exact ihcs ih h hrest
    | some us =>
      rw [hseek] at h
      cases h
      rw [append_assoc]
      exact iht us _ rs hseek ht (backed_runAll hrest hw (nil_subset _) (Or.inl rfl))

/-- What is left to do behind a label reads only what is at hand there, which is nothing at
first. -/
theorem backed_seek (h : t.seek k = some ts) (ht : t.backed rs) (hw : Backed (t.ready rs) w) :
    Backed [] (ts ++ w) := by
  induction t using ofChildren generalizing ts w rs with
  | step n cs ih =>
    have hcut := isCut_of_seek h
    -- The tree has a label, so behind it nothing is at hand but the result of a call.
    have hnone : n.kind ≠ .callSub → Backed [] w := by
      intro hk
      rwa [Tree.ready, if_neg (by exact hk), lasting_of_cut hcut] at hw
    have hpart : ∀ {r rs ts w}, seek.inPart k r cs = some ts → backed.inPart rs r cs →
        Backed [] w → Backed [] (ts ++ w) := by
      intro r rs ts w h hb hw
      rw [seek_inPart] at h
      obtain ⟨b, hr, h⟩ := Option.bind_eq_some_iff.mp h
      exact ih _ (mem_of_lookup hr) h (backed_inPart.mp hb b hr) (hw.mono (nil_subset _))
    rw [seek] at h
    split at h
    case h_1 hk | h_2 hk =>
      split at h
      · cases h
        exact hnone (by simp [hk])
      · cases h
    case h_3 hk | h_4 hk =>
      split at h
      · cases h
        simp only [Tree.backed, hk] at ht
        refine ⟨?_, hnone (by simp [hk])⟩
        change (wait (mk n cs)).reads ⊆ []
        rw [ht.2]
        exact List.Subset.refl _
      · cases h
    case h_5 hk =>
      split at h
      · cases h
        simp only [Tree.backed, hk] at ht
        rw [Tree.ready, if_pos (by exact hk)] at hw
        refine ⟨?_, hw⟩
        change (call (mk n cs)).reads ⊆ []
        rw [ht]
        exact List.Subset.refl _
      · cases h
    case h_6 hk =>
      simp only [Tree.backed, hk] at ht
      exact backed_seek_inList (fun p hp _ _ _ => ih p hp) h ht (hnone (by simp [hk]))
    case h_7 hk =>
      simp only [Tree.backed, hk] at ht
      rcases Option.or_eq_some_iff.mp h with h | ⟨-, h⟩
      · exact hpart h ht.2.1 (hnone (by simp [hk]))
      · exact hpart h ht.2.2 (hnone (by simp [hk]))
    case h_8 hk | h_9 hk | h_10 hk =>
      simp only [Tree.backed, hk] at ht
      obtain ⟨us, hbody, rfl⟩ := Option.map_eq_some_iff.mp h
      have hw := hnone (by simp [hk])
      -- The next test must do without results as well.
      have hafter := backed_afterRound ht.2 (hw.mono (nil_subset _))
      rw [lasting_of_cut hcut] at hafter
      rw [append_assoc]
      exact hpart hbody ht.2.2.2 hafter
    case h_11 => cases h

/-- One move of a run keeps the invariant. -/
theorem backed_moves {p q : Point} (hm : Moves p q)
    (h : ∃ rs, rs ⊆ p.results ∧ Backed rs p.work) :
    ∃ rs, rs ⊆ q.results ∧ Backed rs q.work := by
  obtain ⟨rs, hrs, h⟩ := h
  cases hm with
  | next hf => exact ⟨rs, hrs, h.next hf⟩
  | store hf =>
    obtain ⟨hj, hw⟩ := h
    obtain ⟨⟨n, cs⟩, rfl, ⟨hk, rfl⟩ | ⟨hk, rfl⟩ | ⟨hk, -, rfl⟩⟩ := flow_store hf
    · rw [Job.ready, Tree.ready, if_neg (by simp [hk])] at hw
      exact ⟨rs, hrs, hw.mono lasting_subset⟩
    · rw [Job.ready, Tree.ready, if_pos hk] at hw
      simp only [Job.backed, Tree.backed, show n.kind = _ from hk] at hj
      refine ⟨rs, hrs, ?_, hw⟩
      change (call (mk n cs)).reads ⊆ rs
      rw [hj]
      exact nil_subset _
    · rw [Job.ready, Tree.ready, if_neg (by simp [hk])] at hw
      exact ⟨rs, hrs, hw.mono lasting_subset⟩
  | ask hf =>
    obtain ⟨-, hw⟩ := h
    obtain ⟨t, ⟨rfl, hk⟩ | rfl | rfl⟩ := flow_ask hf
    · rw [Job.ready, Tree.ready, if_neg (by simp [hk])] at hw
      exact ⟨rs, hrs, hw.mono lasting_subset⟩
    · exact ⟨rs, hrs, hw⟩
    · -- An answered call brings the one result that the work behind it may read.
      exact ⟨[t.id], subset_append_left _ _, hw⟩
  | dispatch hf =>
    obtain ⟨-, hw⟩ := h
    obtain ⟨t, rfl, hk⟩ := flow_dispatch hf
    rw [Job.ready, Tree.ready, if_neg (by simp [hk])] at hw
    exact ⟨rs, hrs, hw.mono lasting_subset⟩

/-- A job that is backed reads only results that are at hand. -/
theorem Job.backed_reads (h : j.backed rs) : j.reads ⊆ rs := by
  cases j with
  | run t =>
    obtain ⟨n, cs⟩ := t
    have hnone : (run (mk n cs)).operands = [] → (run (mk n cs)).reads ⊆ rs := by
      intro h
      rw [Job.reads, h]
      exact nil_subset _
    simp only [Job.backed, Tree.backed] at h
    split at h
    case h_1 hk | h_6 hk => exact hnone (by simp [operands, kind, node, hk])
    case h_2 | h_3 | h_4 | h_5 | h_7 => exact h.1
  | test t => exact List.Subset.trans h.1 lasting_subset
  | iterate t => exact List.Subset.trans h.2.1 lasting_subset
  | wait t | call t => exact h

/-- If whatever a function reads is at hand, then wherever it comes to, only results are read that
were kept since it was called. -/
theorem Reaches.reads {body : Tree} {p : Point} (h : Reaches body p) (hb : body.backed [])
    (hw : p.work = j :: w) : j.reads ⊆ p.results := by
  have hinv : ∃ rs, rs ⊆ p.results ∧ Backed rs p.work := by
    refine h.invariant (I := fun p => ∃ rs, rs ⊆ p.results ∧ Backed rs p.work) ?_ ?_ ?_
    · exact ⟨[], nil_subset _, hb, trivial⟩
    · intro k ts hseek
      have hts := backed_seek (w := []) hseek hb trivial
      rw [append_nil] at hts
      exact ⟨[], nil_subset _, hts⟩
    · exact fun _ _ hI hm => backed_moves hm hI
  obtain ⟨rs, hrs, hbacked⟩ := hinv
  rw [hw] at hbacked
  exact List.Subset.trans (backed_reads hbacked.1) hrs

/-! ## Other names -/

section Names

variable {g : Node → Node}

theorem Tree.reads_mapNodes (hg : Renames g) (t : Tree) : (t.mapNodes g).reads = t.reads := by
  induction t using ofChildren with
  | step n cs ih =>
    have hgo : reads.go (mapNodes.go g cs) = reads.go cs := go_mapNodes (congrArg₂ (· ++ ·)) ih
    rw [mapNodes, Tree.reads, Tree.reads, hg.kind, hg.link?, hgo]

theorem reads_map (hg : Renames g) (ts : List Tree) :
    (ts.map (mapNodes g)).flatMap Tree.reads = ts.flatMap Tree.reads := by
  rw [flatMap_map]
  exact congrArg (ts.flatMap ·) (funext (reads_mapNodes hg))

theorem Job.reads_mapNodes (hg : Renames g) (t : Tree) :
    (run (t.mapNodes g)).reads = (run t).reads ∧ (test (t.mapNodes g)).reads = (test t).reads ∧
      (iterate (t.mapNodes g)).reads = (iterate t).reads ∧
        (wait (t.mapNodes g)).reads = (wait t).reads ∧
          (call (t.mapNodes g)).reads = (call t).reads := by
  obtain ⟨hrun, htest, hiterate, hwait, hcall⟩ := Job.operands_mapNodes hg t
  simp only [Job.reads, hrun, htest, hiterate, hwait, hcall, reads_map hg, and_self]

theorem Tree.lasting_mapNodes (hg : Renames g) (t : Tree) (rs : List NodeId) :
    (t.mapNodes g).lasting rs = t.lasting rs := by
  rw [lasting, isCut_mapNodes hg, lasting]

theorem Tree.ready_mapNodes (hg : Renames g) (t : Tree) (rs : List NodeId) :
    (t.mapNodes g).ready rs = t.ready rs := by
  have hid : (t.mapNodes g).id = t.id := by
    obtain ⟨n, cs⟩ := t
    exact hg.id n
  rw [ready, hg.kind_mapNodes, hid, lasting_mapNodes hg, ready]

theorem Tree.backed_list_mapNodes (hg : Renames g)
    (ih : ∀ p ∈ cs, ∀ rs, p.2.backed rs → (p.2.mapNodes g).backed rs) (h : backed.inList rs cs) :
    backed.inList rs (mapNodes.go g cs) := by
  induction cs generalizing rs with
  | nil => trivial
  | cons p cs ihcs =>
    obtain ⟨ihp, ih⟩ := forall_mem_cons.mp ih
    refine ⟨ihp rs h.1, ?_⟩
    rw [ready_mapNodes hg]
    exact ihcs ih h.2

theorem Tree.backed_mapNodes (hg : Renames g) (h : t.backed rs) : (t.mapNodes g).backed rs := by
  induction t using ofChildren generalizing rs with
  | step n cs ih =>
    obtain ⟨hrun, htest, hiterate, hwait, hcall⟩ := Job.reads_mapNodes hg (mk n cs)
    have hlasting := lasting_mapNodes hg (mk n cs) rs
    -- Each demand below is about kinds, names read or a part, and renaming keeps all three.
    have hpart : ∀ {r rs}, backed.inPart rs r cs → backed.inPart rs r (mapNodes.go g cs) := by
      intro r rs h
      rw [backed_inPart] at h ⊢
      intro b hb
      rw [lookup_mapNodes] at hb
      obtain ⟨b', hb', rfl⟩ := Option.map_eq_some_iff.mp hb
      exact ih _ (mem_of_lookup hb') (h b' hb')
    rw [mapNodes] at hrun htest hiterate hwait hcall hlasting ⊢
    rw [backed] at h ⊢
    rw [hg.kind]
    split at h
    case h_1 => exact backed_list_mapNodes hg (fun p hp _ => ih p hp) h
    case h_2 =>
      rw [hrun]
      exact ⟨h.1, hpart h.2.1, hpart h.2.2⟩
    case h_3 | h_4 | h_5 =>
      rw [hrun, htest, hiterate, hlasting]
      exact ⟨h.1, h.2.1, h.2.2.1, hpart h.2.2.2⟩
    case h_6 =>
      rw [hcall]
      exact h
    case h_7 =>
      rw [hrun, hwait]
      exact h

end Names

end Resumable
