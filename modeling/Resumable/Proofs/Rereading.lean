import Mathlib.Logic.Relation
import Resumable.Edits.Text
import Resumable.Proofs.Overlaps

/-!
# Readings between recordings

A reading leaves the edits reduced, and what is recorded afterwards meets the reduced edits and not
those that were recorded. For two kinds of edits this makes a difference. A replacement puts the
insertions at its first token in front of its text in reverse, unless a reading has joined them. A
deletion is merged with an earlier one that overlaps it, unless a reading has put an insertion in
front of that one, so that it deletes no more. In all other histories readings can be left out.

The passes are followed one edit at a time. An insertion that a reading settles may as well be
settled later: `Settles` is one such step, and no edit recorded later tells its two sides apart.

* `Edits.Settles`: one insertion is settled early.
* `Edits.Settles.replaced_settles`: no replacement that is recorded later tells the difference.
* `Edits.Settles.resume_eq`: nor does what a later reading gives.
* `Edits.read_after_readings`: readings between recordings can be left out.
* `Edits.reading_changes_later_text`: in other histories they cannot.
-/

namespace Resumable

open List

variable {es recorded q : Edits} {b : Int} {s : Option String}

namespace Edits

variable {first last c d : Int} {text : Option String}

/-! ## Insertions that are settled early -/

/-- No two edits have a token in common. -/
def Reduced (es : Edits) : Prop := (present es).Pairwise Edit.Free

/-- An insertion is joined with an earlier one at the same token, or goes in front of an earlier
replacement, among edits that are otherwise reduced. -/
inductive Settles (i : Int) : Edits → Edits → Prop
  | join {x y z : Edits} {u t : String} (h : Reduced (x ++ some (.insert i u) :: y)) :
      Settles i (x ++ some (.insert i u) :: y ++ some (.insert i t) :: z)
        (x ++ none :: y ++ some (.insert i (u ++ t)) :: z)
  | lead {x y z : Edits} {l : Int} {s : Option String} {t : String}
      (h : Reduced (x ++ some (.replace i l s) :: y)) :
      Settles i (x ++ some (.replace i l s) :: y ++ some (.insert i t) :: z)
        (x ++ some (.replace i l (some (t ++ s.getD ""))) :: y ++ none :: z)

namespace Settles

variable {i : Int} {l l' : Edits} (h : Settles i l l')

include h

theorem append (es : Edits) : Settles i (l ++ es) (l' ++ es) := by
  cases h with
  | join h => simpa using Settles.join (z := _ ++ es) h
  | lead h => simpa using Settles.lead (z := _ ++ es) h

theorem exists_pair : ∃ e t, [e, .insert i t].Sublist (present l) ∧ e.index = i := by
  cases h with
  | @join x y z u t h =>
    refine ⟨.insert i u, t, ?_, rfl⟩
    simp
  | @lead x y z b s t h =>
    refine ⟨.replace i b s, t, ?_, rfl⟩
    simp

theorem first_ne (hf : (Edit.replace first last text).Follows (present l)) : first ≠ i := by
  rintro rfl
  obtain ⟨e, t, hsub, he⟩ := h.exists_pair
  cases rel_of_pairwise_cons (hf.2.1.sublist hsub) (mem_singleton_self _) he rfl

theorem insertions_eq {j : Int} (hj : j ≠ i) :
    insertions j (present l') = insertions j (present l) := by
  cases h with
  | join h => simp [Ne.symm hj]
  | lead h => simp [Ne.symm hj]

/-- Settling an insertion leaves settled edits that are milder. -/
theorem keeps (hs : Settled (present l)) :
    Settled (present l') ∧ Milder (present l) (present l') := by
  cases h with
  | @join x y z u t h =>
    -- One insertion is dropped and the other gets a longer text, which changes no trait.
    have hsub : (present x ++ (present y ++ .insert i t :: present z)).Sublist
        (present (x ++ some (.insert i u) :: y ++ some (.insert i t) :: z)) := by simp
    have hl : present (x ++ none :: y ++ some (.insert i (u ++ t)) :: z) =
        (present x ++ present y) ++ .insert i (u ++ t) :: present z := by simp
    rw [← append_assoc] at hsub
    rw [hl]
    refine ⟨(hs.sublist hsub).change rfl id fun _ => Iff.rfl, (Milder.of_sublist hsub).trans ?_⟩
    refine .change rfl rfl fun hP h => ?_
    cases hP with
    | index => exact h
    | deletes => cases h
    | juts => cases h
  | @lead x y z b s t h =>
    have hsub : (present x ++ .replace i b s :: (present y ++ present z)).Sublist
        (present (x ++ some (.replace i b s) :: y ++ some (.insert i t) :: z)) := by simp
    have hl : present (x ++ some (.replace i b (some (t ++ s.getD ""))) :: y ++ none :: z) =
        present x ++ .replace i b (some (t ++ s.getD "")) :: (present y ++ present z) := by simp
    rw [hl]
    refine ⟨(hs.sublist hsub).change rfl id fun _ => Iff.rfl, (Milder.of_sublist hsub).trans ?_⟩
    refine .change rfl rfl fun hP h => ?_
    cases hP with
    | index => exact h
    | deletes => cases h
    | juts => cases h

omit h in
theorem not_juts {es : List Edit} {t : String} (hs : Settled es)
    (hf : (Edit.replace first last text).Follows es) (ht : text = none)
    (hpair : [.replace i b none, .insert i t].Sublist es) : ∀ e ∈ es, ¬ e.Juts first last := by
  intro e he hjut
  have hib : i ≤ b := hs.proper (.replace i b none) (hpair.subset (by simp))
  cases rel_of_pairwise_cons ((hf.2.2 ht ⟨e, he, hjut⟩).sublist hpair)
    (mem_singleton_self _) ⟨Int.le_refl i, hib⟩

/-- A later replacement has the same range and the same text. -/
theorem replaced_eq (hs : Settled (present l))
    (hf : (Edit.replace first last text).Follows (present l)) :
    withInsertions first text l' = withInsertions first text l ∧
      (replaced first last text l').2.1 = (replaced first last text l).2.1 ∧
      (replaced first last text l').2.2.isSome = (replaced first last text l).2.2.isSome := by
  have htext : withInsertions first text l' = withInsertions first text l := by
    unfold withInsertions
    rw [h.insertions_eq (h.first_ne hf)]
  refine ⟨htext, ?_⟩
  have hle : first ≤ last := hf.1
  have hsub := outside_sublist first last l
  have hsub' := outside_sublist first last l'
  have htraits := (h.keeps hs).2.traits (.juts hle)
  unfold replaced
  rw [htext]
  generalize htaken : withInsertions first text l = text₁
  cases h with
  | join h =>
    refine takeReplacements_congr ?_
    rw [map_span_outside, map_span_outside]
    simp [span]
  | @lead x y z b s t h =>
    -- Only two deletions look at whether the earlier one still deletes.
    by_cases hn : s = none ∧ text₁ = none
    · obtain ⟨rfl, rfl⟩ := hn
      have hstill := not_juts (i := i) (b := b) (t := t) hs hf (text_of_withInsertions htaken)
        (by simp)
      have h₁ := fun e he => hstill e (hsub.subset he)
      have h₂ : ∀ e ∈ present _, ¬ Edit.Juts first last e := fun e he hjut => by
        obtain ⟨d, hd, hjut⟩ := htraits ⟨e, hsub'.subset he, hjut⟩
        exact hstill d hd hjut
      rw [takeReplacements_still fun _ => h₁, takeReplacements_still fun _ => h₂,
        takeReplacements_text h₁, takeReplacements_text h₂]
      refine ⟨rfl, (takeReplacements_congr ?_).2⟩
      rw [map_span_outside, map_span_outside]
      simp [span]
    · refine takeReplacements_congr ?_
      rw [map_span_outside, map_span_outside]
      have hflag : ¬ (s.isNone = true ∧ text₁.isNone = true) := by simpa using hn
      simp [span, Bool.eq_false_iff.mpr (mt (Bool.and_eq_true ..).mp hflag)]

/-- What it leaves is the same, or still differs by this insertion. -/
theorem replaced_settles (hs : Settled (present l))
    (hf : (Edit.replace first last text).Follows (present l))
    (hk : (replaced first last text l).2.2 = none) :
    (replaced first last text l).1 = (replaced first last text l').1 ∨
      Settles i (replaced first last text l).1 (replaced first last text l').1 := by
  obtain ⟨htext, hrange, hsome⟩ := h.replaced_eq hs hf
  have hk' : (replaced first last text l').2.2 = none := by simpa [hk] using hsome
  have hsub := outside_sublist first last l
  have hsub' := outside_sublist first last l'
  have hl := takeReplacements_ok (hs.sublist hsub).spread hf.1 hk
  have hl' := takeReplacements_ok ((h.keeps hs).1.sublist hsub').spread hf.1 hk'
  have hgrows := @takeReplacements_grows first last (withInsertions first text l)
    (l.map (outside first last))
  have hapart := fun {b s} hmem => @takeReplacements_apart first last (withInsertions first text l)
    (l.map (outside first last)) i b s (present l) hs.spread hsub hmem hf.1
  have hcovers := fun b s => @takeReplacements_covers first last (withInsertions first text l)
    (l.map (outside first last)) (hs.sublist hsub).spread hf.1 hk i b s
  unfold replaced at hrange ⊢
  rw [hl, hl', hrange]
  generalize (takeReplacements first last (withInsertions first text l)
    (l.map (outside first last))).2.1 = r at *
  obtain ⟨c, d⟩ := r
  have hne := h.first_ne hf
  have hred : ∀ {x : Edits}, Reduced x → Reduced ((x.map (outside first last)).map (beyond c d)) :=
    fun hx => hx.sublist ((present_beyond c d _ ▸ filter_sublist).trans
      (outside_sublist first last _))
  cases h with
  | @join x y z u t h =>
    -- Both insertions stand at one token, so the range takes both or none.
    have h' := hred h
    by_cases hin : i = first ∨ first < i ∧ i ≤ last
    · left
      simp [outside, beyond, hin]
    · right
      simp only [map_append, map_cons, outside, beyond, if_neg hin] at h' ⊢
      exact .join h'
  | @lead x y z b s t h =>
    have h' := hred h
    have hib : i ≤ b := hs.proper (.replace i b s) (by simp)
    have hmem : .replace i b s ∈ present ((x ++ some (.replace i b s) :: y ++
        some (.insert i t) :: z).map (outside first last)) := by
      simp [outside]
    by_cases hfar : b < c ∨ d < i
    · have hout : ¬ (i = first ∨ first < i ∧ i ≤ last) := by
        have := hf.1
        simp only at hgrows
        omega
      right
      simp only [map_append, map_cons, outside, beyond, if_neg hout, if_pos hfar] at h' ⊢
      exact .lead h'
    · -- The range at the token is covered or lies apart, for a merge of deletions is ruled out
      -- here.
      have hcover : first ≤ i ∧ b ≤ last ∨ (b < first ∨ last < i) := by
        by_cases hn : s = none ∧ withInsertions first text
            (x ++ some (.replace i b s) :: y ++ some (.insert i t) :: z) = none
        · obtain ⟨rfl, hn⟩ := hn
          have := not_juts (i := i) (b := b) (t := t) hs hf (text_of_withInsertions hn) (by simp)
            (.replace i b none) (by simp)
          simp only [Edit.Juts] at this
          omega
        · exact hcovers b s hmem hn
      have hin : i = first ∨ first < i ∧ i ≤ last := by
        rcases hcover with h | h
        · omega
        · exact absurd (hapart (s := s) (by simp) h) hfar
      left
      simp [outside, beyond, hin, hfar]

end Settles

/-! ## The pass over the insertions -/

section Pass

variable {i : Int} {t : String} {x y z p : Edits}

/-- An insertion passes over the edits that have nothing to do with its token. -/
theorem untouched (hp : ∀ e ∈ present x, e.Proper) (hx : ∀ e ∈ present x, ¬ e.Touches i)
    (y : Edits) :
    joinInsertions i t (x ++ y) = (x ++ (joinInsertions i t y).1, (joinInsertions i t y).2) ∧
      meetReplacements i t (x ++ y) =
        (x ++ (meetReplacements i t y).1, (meetReplacements i t y).2) := by
  induction x with
  | nil => exact ⟨rfl, rfl⟩
  | cons e x ih =>
    rcases e with _ | ⟨j, u⟩ | ⟨f, l, u⟩
    · obtain ⟨h₁, h₂⟩ := ih hp hx
      simp [joinInsertions, meetReplacements, h₁, h₂]
    · obtain ⟨hj, hx⟩ := forall_mem_cons.mp hx
      obtain ⟨h₁, h₂⟩ := ih (forall_mem_cons.mp hp).2 hx
      have hj : j ≠ i := hj
      simp [joinInsertions, meetReplacements, h₁, h₂, hj]
    · obtain ⟨hj, hx⟩ := forall_mem_cons.mp hx
      obtain ⟨hfl, hp⟩ := forall_mem_cons.mp hp
      obtain ⟨h₁, h₂⟩ := ih hp hx
      have hj : ¬ (f ≤ i ∧ i ≤ l) := hj
      have hfl : f ≤ l := hfl
      have hf : i ≠ f := by omega
      simp [joinInsertions, meetReplacements, h₁, h₂, hj, hf]

theorem Reduced.untouched {e : Edit} (h : Reduced (x ++ some e :: y)) (he : e.Touches i) :
    (∀ e ∈ present x, ¬ e.Touches i) ∧ ∀ e ∈ present y, ¬ e.Touches i := by
  have h : (present x ++ e :: present y).Pairwise Edit.Free := by simpa [Reduced] using h
  obtain ⟨-, hy, hx⟩ := pairwise_append.mp h
  exact ⟨fun f hf hfi => hx f hf e mem_cons_self i hfi he,
    fun f hf => rel_of_pairwise_cons hy hf i he⟩

theorem Reduced.append_insert (h : Reduced p) (hp : ∀ e ∈ present p, ¬ e.Touches i) :
    Reduced (p ++ [some (.insert i t)]) := by
  have hl : present (p ++ [some (.insert i t)]) = present p ++ [.insert i t] := by simp
  rw [Reduced, hl]
  refine pairwise_append.mpr ⟨h, pairwise_singleton _ _, fun e he f hf j hej => ?_⟩
  cases mem_singleton.mp hf
  rintro rfl
  exact hp e he hej

theorem Reduced.rejoin {u : String} (h : Reduced (x ++ some (.insert i u) :: y)) :
    Reduced (x ++ none :: y ++ [some (.insert i t)]) := by
  obtain ⟨hx, hy⟩ := h.untouched (show (Edit.insert i u).Touches i from rfl)
  refine Reduced.append_insert (h.sublist (by simp)) fun e he => ?_
  rw [present_append] at he
  exact (mem_append.mp he).elim (hx e) (hy e)

/-- An insertion that meets nothing stays. -/
theorem reduceInsertions_alone (hp : ∀ e ∈ present p, e.Proper)
    (h : ∀ e ∈ present p, ¬ e.Touches i) :
    reduceInsertions p (some (.insert i t) :: z) =
      reduceInsertions (p ++ [some (.insert i t)]) z := by
  have h₀ := untouched (t := t) hp h []
  rw [append_nil] at h₀
  simp [reduceInsertions_insert, h₀, joinInsertions, meetReplacements]

theorem Reduced.around {e : Edit} (h : Reduced (x ++ some e :: y)) (he : e.Touches i)
    (hp : ∀ f ∈ present (x ++ some e :: y), f.Proper) (e' : Option Edit) :
    joinInsertions i t (x ++ e' :: y) =
        (x ++ (joinInsertions i t [e']).1 ++ y, (joinInsertions i t [e']).2) ∧
      meetReplacements i t (x ++ e' :: y) =
        (x ++ (meetReplacements i t [e']).1 ++ y, (meetReplacements i t [e']).2) := by
  obtain ⟨hx, hy⟩ := h.untouched he
  have hx := fun t => @Edits.untouched i t x (fun e he => hp e (by simp [he])) hx (e' :: y)
  have hy := fun t => @Edits.untouched i t y (fun e he => hp e (by simp [he])) hy []
  simp only [append_nil, joinInsertions, meetReplacements] at hy
  rw [(hx t).1, (hx t).2]
  rcases e' with _ | ⟨j, u⟩ | ⟨f, l, u⟩
  · simp [joinInsertions, meetReplacements, hy]
  · by_cases hj : j = i <;> simp [joinInsertions, meetReplacements, hy, hj]
  · rcases eq_or_ne i f with rfl | hf
    · simp [joinInsertions, meetReplacements, hy]
    · by_cases hin : f ≤ i ∧ i ≤ l <;> simp [joinInsertions, meetReplacements, hy, hf, hin]

/-- An insertion is joined with the one before it. -/
theorem reduceInsertions_join {u : String}
    (hp : ∀ e ∈ present (x ++ some (.insert i u) :: y), e.Proper)
    (h : Reduced (x ++ some (.insert i u) :: y)) :
    reduceInsertions (x ++ some (.insert i u) :: y) (some (.insert i t) :: z) =
      reduceInsertions (x ++ none :: y ++ [some (.insert i (u ++ t))]) z := by
  have haround := fun t => @h.around i t _ _ _ rfl hp
  simp [reduceInsertions_insert, haround, joinInsertions, meetReplacements]

/-- An insertion goes in front of the range that begins at its token. -/
theorem reduceInsertions_lead (hp : ∀ e ∈ present (x ++ some (.replace i b s) :: y), e.Proper)
    (h : Reduced (x ++ some (.replace i b s) :: y)) :
    reduceInsertions (x ++ some (.replace i b s) :: y) (some (.insert i t) :: z) =
      reduceInsertions (x ++ some (.replace i b (some (t ++ s.getD ""))) :: y ++ [none]) z := by
  have hib : i ≤ b := hp (.replace i b s) (by simp)
  have haround := fun t => @Reduced.around i t _ _ _ h ⟨Int.le_refl i, hib⟩ hp
  simp [reduceInsertions_insert, haround, joinInsertions, meetReplacements]

/-- An insertion inside of a range is a conflict. -/
theorem reduceInsertions_inside {f : Int} (hfi : f < i) (hib : i ≤ b)
    (hp : ∀ e ∈ present (x ++ some (.replace f b s) :: y), e.Proper)
    (h : Reduced (x ++ some (.replace f b s) :: y)) :
    ∃ k, reduceInsertions (x ++ some (.replace f b s) :: y) (some (.insert i t) :: z) =
      (x ++ some (.replace f b s) :: y ++ some (.insert i t) :: z, some k) := by
  have hne : i ≠ f := by omega
  have hin : f ≤ i ∧ i ≤ b := by omega
  have haround := fun t => @Reduced.around i t _ _ _ h hin hp
  exact ⟨.inside (.insert i t) (.replace f b s), by
    simp [reduceInsertions_insert, haround, joinInsertions, meetReplacements, hne, hin]⟩

theorem reduceInsertions_reduced (hp : ∀ e ∈ present (p ++ q), e.Proper) (h : Reduced (p ++ q)) :
    reduceInsertions p (q ++ z) = reduceInsertions (p ++ q) z := by
  induction q generalizing p with
  | nil => simp
  | cons e q ih =>
    have hsplit : p ++ e :: q = p ++ [e] ++ q := by simp
    have ih := ih (hsplit ▸ hp) (hsplit ▸ h)
    rw [hsplit, ← ih]
    rcases e with _ | ⟨j, u⟩ | ⟨f, l, u⟩
    · rfl
    · exact reduceInsertions_alone (fun e he => hp e (by simp [he]))
        (h.untouched (show (Edit.insert j u).Touches j from rfl)).1
    · rfl

theorem reduceInsertions_nil (hp : ∀ e ∈ present q, e.Proper) (h : Reduced q) :
    reduceInsertions [] (q ++ z) = reduceInsertions q z :=
  reduceInsertions_reduced (p := []) hp h

end Pass

/-! ## What recording behind edits gives -/

/-- The edits that a pass gives, if it found no conflict. -/
def outcome : Edits × Option Conflict → Option Edits
  | (es, none) => some es
  | (_, some _) => none

/-- The reduced edits when more are recorded behind edits whose replacements are reduced already. -/
def resume (before es : Edits) : Option Edits :=
  (outcome (reduceReplacements before es)).bind fun r => outcome (reduceInsertions [] r)

namespace Settles

variable {i : Int} {l l' : Edits}

theorem reduceInsertions_eq (h : Settles i l l') (hs : Settled (present l)) :
    reduceInsertions [] l = reduceInsertions [] l' := by
  have hp := hs.proper
  have hp' := (h.keeps hs).1.proper
  cases h with
  | @join x y z u t h =>
    have hpx := forall_present_append hp
    rw [append_cons _ _ z] at hp'
    rw [reduceInsertions_nil hpx h, append_cons _ _ z,
      reduceInsertions_nil (forall_present_append hp') h.rejoin]
    exact reduceInsertions_join hpx h
  | @lead x y z b s t h =>
    have hpx := forall_present_append hp
    have h' : Reduced (x ++ some (.replace i b (some (t ++ s.getD ""))) :: y ++ [none]) := by
      simpa [Reduced, pairwise_append, Edit.Free, Edit.Touches] using h
    rw [append_cons _ _ z] at hp'
    rw [reduceInsertions_nil hpx h, append_cons _ _ z,
      reduceInsertions_nil (forall_present_append hp') h']
    exact reduceInsertions_lead hpx h

/-- What is recorded later does not tell the difference. -/
theorem resume_eq (h : Settles i l l') (hs : Settled (present l))
    (hc : Calm (present l) (present es)) : resume l es = resume l' es := by
  induction es generalizing l l' with
  | nil =>
    change outcome (reduceInsertions [] l) = outcome (reduceInsertions [] l')
    rw [h.reduceInsertions_eq hs]
  | cons e es ih =>
    rcases e with _ | ⟨j, u⟩ | ⟨f, b, u⟩
    · exact ih (h.append [none]) (by simpa using hs) (by simpa using hc)
    · refine ih (h.append [some (.insert j u)]) ?_ ?_
      · simpa using hs.append_insert j u
      · rw [present_append]
        exact hc.2
    · have hf : (Edit.replace f b u).Follows (present l) := hc.1
      obtain ⟨htext, hrange, hsome⟩ := h.replaced_eq hs hf
      have hself : replacement f b u l' = replacement f b u l := by
        rw [replacement, replacement, htext, hrange]
      unfold resume
      rw [reduceReplacements_replace, reduceReplacements_replace, hself]
      cases hk : (replaced f b u l).2.2 with
      | some k =>
        obtain ⟨k', hk'⟩ : ∃ k', (replaced f b u l').2.2 = some k' := by
          rw [hk] at hsome
          exact Option.isSome_iff_exists.mp hsome
        rw [hk']
        rfl
      | none =>
        have hk' : (replaced f b u l').2.2 = none := by simpa [hk] using hsome
        rw [hk']
        -- The replacement takes both insertions in, or the difference stays.
        rcases h.replaced_settles hs hf hk with heq | hsettles
        · rw [heq]
        · exact ih (hsettles.append _) (settled_replaced hs hf hk)
            ((milder_replaced hs hf.1).calm hc.2)

end Settles

/-- Some insertions are settled early. -/
abbrev Chain : Edits → Edits → Prop := Relation.ReflTransGen fun l l' => ∃ i, Settles i l l'

/-- The pass over the insertions settles them one after the other. -/
theorem chain_reduceInsertions {p es : Edits} (hp : Reduced p) (hs : Settled (present (p ++ es))) :
    Chain (p ++ es) (reduceInsertions p es).1 := by
  induction es generalizing p with
  | nil =>
    rw [append_nil]
    exact .refl
  | cons e es ih =>
    have hsplit : p ++ e :: es = p ++ [e] ++ es := by simp
    have hproper : ∀ e ∈ present p, e.Proper := fun e he => hs.proper e (by simp [he])
    rcases e with _ | ⟨i, t⟩ | ⟨f, b, t⟩
    · rw [hsplit] at hs ⊢
      exact ih (by simpa [Reduced] using hp) hs
    · -- At most one of the reduced edits has to do with the token.
      by_cases hex : ∃ e ∈ present p, e.Touches i
      · obtain ⟨e, he, hei⟩ := hex
        obtain ⟨x, y, rfl⟩ : ∃ x y, p = x ++ some e :: y :=
          append_of_mem (by simpa [present] using he)
        rcases e with ⟨j, u⟩ | ⟨f, b, u⟩
        · obtain rfl : j = i := hei
          have hstep := Settles.join (z := es) (t := t) hp
          rw [reduceInsertions_join hproper hp]
          refine .head ⟨j, hstep⟩ ?_
          have hs' := (hstep.keeps hs).1
          rw [append_cons _ _ es] at hs' ⊢
          exact ih hp.rejoin hs'
        · obtain ⟨hfi, hib⟩ : f ≤ i ∧ i ≤ b := hei
          rcases Int.lt_or_eq_of_le hfi with hlt | rfl
          · obtain ⟨k, hk⟩ := reduceInsertions_inside (t := t) (z := es) hlt hib hproper hp
            rw [hk]
          · have hstep := Settles.lead (z := es) (t := t) hp
            rw [reduceInsertions_lead hproper hp]
            refine .head ⟨f, hstep⟩ ?_
            have hs' := (hstep.keeps hs).1
            rw [append_cons _ _ es] at hs' ⊢
            refine ih ?_ hs'
            simpa [Reduced, pairwise_append, Edit.Free, Edit.Touches] using hp
      · have hfree : ∀ e ∈ present p, ¬ e.Touches i := fun e he hei => hex ⟨e, he, hei⟩
        rw [reduceInsertions_alone hproper hfree]
        rw [hsplit] at hs ⊢
        exact ih (hp.append_insert hfree) hs
    · rw [hsplit] at hs ⊢
      refine ih ?_ hs
      have hl : present (p ++ [some (.replace f b t)]) = present p ++ [.replace f b t] := by simp
      rw [Reduced, hl]
      refine pairwise_append.mpr ⟨hp, pairwise_singleton _ _, fun e he g hg => ?_⟩
      cases mem_singleton.mp hg
      have hclear : (present p ++ .replace f b t :: present es).Pairwise
          fun e f => f.replaces = true → e.Free f := by simpa using hs.clear
      exact (pairwise_append.mp hclear).2.2 e he _ mem_cons_self rfl

theorem Chain.resume_eq {l l' : Edits} (h : Chain l l') (hs : Settled (present l)) :
    Settled (present l') ∧ Milder (present l) (present l') ∧
      ∀ es, Calm (present l) (present es) → resume l es = resume l' es := by
  induction h with
  | refl => exact ⟨hs, .of_sublist (List.Sublist.refl _), fun _ _ => rfl⟩
  | tail _ hstep ih =>
    obtain ⟨hs', hmild, hresume⟩ := ih
    obtain ⟨i, hstep⟩ := hstep
    obtain ⟨hs'', hmild'⟩ := hstep.keeps hs'
    refine ⟨hs'', hmild.trans hmild', fun es hc => (hresume es hc).trans ?_⟩
    exact hstep.resume_eq hs' (hmild.calm hc)

/-! ## Readings between recordings -/

theorem resume_append (before es es' : Edits) : resume before (es ++ es') =
    (outcome (reduceReplacements before es)).bind fun r => resume r es' := by
  unfold resume
  rw [reduceReplacements_append]
  obtain ⟨r, _ | k⟩ := reduceReplacements before es <;> rfl

theorem Doomed.resume_eq_none (h : Doomed es) (es' : Edits) : resume [] (es ++ es') = none := by
  obtain ⟨r, k, hr, -⟩ := h.reduceReplacements
  rw [resume_append, hr]
  rfl

/-- Edits that were read now and then can stand for the edits that were recorded, whatever is
recorded later. -/
structure StandsFor (es recorded : Edits) : Prop where
  empty : es = [] ↔ recorded = []
  resume : ∀ later : Edits, Calm [] (present recorded ++ present later) →
    resume [] (es ++ later) = resume [] (recorded ++ later) ∧
      (Calm [] (present es ++ present later) ∨ Doomed es)

theorem StandsFor.append (h : StandsFor es recorded) (new : Edits) :
    StandsFor (es ++ new) (recorded ++ new) := by
  refine ⟨by simp [h.empty], fun later hc => ?_⟩
  have hl : ∀ es : Edits,
      present (es ++ new) ++ present later = present es ++ present (new ++ later) := by simp
  rw [hl] at hc ⊢
  rw [append_assoc, append_assoc]
  exact (h.resume (new ++ later) hc).imp_right fun hor => hor.imp_right fun hd => hd.append new

/-- Reduced edits stand for those that were recorded. -/
theorem standsFor_reduce (es : Edits) {later : Edits}
    (h : Calm [] (present es ++ present later) ∨ Doomed es) :
    resume [] (es.reduce.1 ++ later) = resume [] (es ++ later) ∧
      (Calm [] (present es.reduce.1 ++ present later) ∨ Doomed es.reduce.1) := by
  have hdoom : ∀ {r k}, reduceReplacements [] es = (r, some k) → Doomed r →
      resume [] (es.reduce.1 ++ later) = resume [] (es ++ later) ∧
        (Calm [] (present es.reduce.1 ++ present later) ∨ Doomed es.reduce.1) := by
    intro r k hr hd
    rw [reduce, hr]
    refine ⟨?_, Or.inr hd⟩
    rw [hd.resume_eq_none, resume_append, hr]
    rfl
  rcases h with hc | hd
  · rw [calm_append] at hc
    have hnil : Settled (present []) := ⟨by simp, by simp⟩
    cases hr : reduceReplacements [] es with
    | mk r k =>
    have hpass := reduceReplacements_leaves hnil hc.1 hr
    cases k with
    | some k => exact hdoom hr hpass
    | none =>
      obtain ⟨hs, hmild⟩ := hpass
      -- Both passes are undone: first the insertions, one by one, then the replacements.
      have hchain := @chain_reduceInsertions [] r List.Pairwise.nil hs
      obtain ⟨hs', hmild', hresume⟩ := hchain.resume_eq hs
      have hlater : Calm (present r) (present later) := hmild.calm hc.2
      rw [reduce, hr]
      refine ⟨?_, Or.inl (calm_append.mpr ⟨@Settled.calm [] _ hs', hmild'.calm hlater⟩)⟩
      rw [resume_append, resume_append, hr, @reduceReplacements_settled [] _ hs']
      exact (hresume later hlater).symm
  · obtain ⟨r, k, hr, hd⟩ := hd.reduceReplacements
    exact hdoom hr hd

theorem reduceReplacements_ne_nil {before es : Edits} (h : before ++ es ≠ []) :
    (reduceReplacements before es).1 ≠ [] := by
  fun_induction reduceReplacements before es <;> simp_all

theorem reduceInsertions_ne_nil {before es : Edits} (h : before ++ es ≠ []) :
    (reduceInsertions before es).1 ≠ [] := by
  fun_induction reduceInsertions before es <;> simp_all

theorem reduce_ne_nil (h : es ≠ []) : es.reduce.1 ≠ [] := by
  have hr := @reduceReplacements_ne_nil [] es h
  unfold reduce
  generalize reduceReplacements [] es = r at hr ⊢
  obtain ⟨r, _ | k⟩ := r
  · exact @reduceInsertions_ne_nil [] r hr
  · exact hr

variable {tokens : Array Token} {start stop : Int}

theorem toOption_read (h : es ≠ []) :
    (es.read tokens start stop).1.toOption = (resume [] es).bind fun r =>
      (reducedText tokens (max start 0) (min stop ((tokens.size : Int) - 1))
        (present r)).toOption := by
  have hne : es.isEmpty = false := by simpa using h
  simp only [read, hne, Bool.false_eq_true, if_false, reduce, resume]
  obtain ⟨r, _ | k⟩ := reduceReplacements [] es
  · simp only [outcome, Option.bind_some]
    obtain ⟨r, _ | k⟩ := reduceInsertions [] r <;> rfl
  · rfl

theorem read_snd (es : Edits) :
    (es.read tokens start stop).2 = if es = [] then [] else es.reduce.1 := by
  cases es with
  | nil => rfl
  | cons e es =>
    simp only [read, isEmpty_cons, Bool.false_eq_true, if_false, reduceCtorEq]
    obtain ⟨r, _ | k⟩ := reduce (e :: es) <;> rfl

/-- What can be done with the edits of a token list. -/
inductive Use where
  | insertBefore (index : Int) (text : String)
  | insertAfter (index : Int) (text : String)
  | replace (first last : Int) (text : Option String)
  | read (start stop : Int)

namespace Use

/-- Whether a use records an edit. -/
def records : Use → Bool
  | read .. => false
  | _ => true

/-- The edits afterwards. A replacement of a bad range is not recorded. -/
def perform (tokens : Array Token) (es : Edits) : Use → Edits
  | insertBefore i t => es.insertBefore i t
  | insertAfter i t => es.insertAfter i t
  | replace first last text =>
    match es.replace tokens.size first last text with
    | .ok es => es
    | .error _ => es
  | read start stop => (es.read tokens start stop).2

end Use

/-- The edits after a history. -/
def after (tokens : Array Token) (history : List Use) : Edits :=
  history.foldl (Use.perform tokens) []

theorem Use.perform_records (use : Use) (tokens : Array Token) (h : use.records = true) :
    ∃ new : Edits, ∀ es, use.perform tokens es = es ++ new := by
  cases use with
  | insertBefore i t => exact ⟨[some (.insert i t)], fun _ => rfl⟩
  | insertAfter i t => exact ⟨[some (.insert (i + 1) t)], fun _ => rfl⟩
  | replace first last text =>
    by_cases hbad : last < first ∨ first < 0 ∨ last < 0 ∨ (tokens.size : Int) ≤ last
    · exact ⟨[], fun es => by simp [perform, Edits.replace, hbad]⟩
    · refine ⟨[some (.replace first last text)], fun es => ?_⟩
      simp only [perform, Edits.replace, if_neg hbad]
  | read => cases h

/-- One step: a recording goes behind the edits on both sides, and a reading changes one side only.
-/
theorem StandsFor.perform (h : StandsFor es recorded) (tokens : Array Token) (use : Use) :
    StandsFor (use.perform tokens es)
      (if use.records = true then use.perform tokens recorded else recorded) := by
  split
  · next hrec =>
    obtain ⟨new, hnew⟩ := use.perform_records tokens hrec
    rw [hnew, hnew]
    exact h.append new
  · next hrec =>
    cases use with
    | read start stop =>
      rw [Use.perform, read_snd]
      split
      · next hnil => exact hnil ▸ h
      · next hne =>
        refine ⟨?_, fun later hc => ?_⟩
        · exact iff_of_false (reduce_ne_nil hne) (mt h.empty.mpr hne)
        obtain ⟨heq, hor⟩ := h.resume later hc
        -- A reading only reduces.
        obtain ⟨heq', hor'⟩ := standsFor_reduce es hor
        exact ⟨heq'.trans heq, hor'⟩
    | _ => exact absurd rfl hrec

/-- Along a history, with and without its readings. -/
theorem StandsFor.history (h : StandsFor es recorded) (history : List Use) :
    StandsFor (history.foldl (Use.perform tokens) es)
      ((history.filter Use.records).foldl (Use.perform tokens) recorded) := by
  induction history generalizing es recorded with
  | nil => exact h
  | cons use history ih =>
    have hstep := ih (h.perform tokens use)
    rw [foldl_cons, filter_cons]
    split at hstep
    · rwa [if_pos ‹_›]
    · rwa [if_neg ‹_›]

theorem StandsFor.read (h : StandsFor es recorded) (hc : Calm [] (present recorded))
    (tokens : Array Token) (start stop : Int) :
    (es.read tokens start stop).1.toOption = (recorded.read tokens start stop).1.toOption := by
  by_cases hnil : es = []
  · rw [hnil, h.empty.mp hnil]
  · have heq := (h.resume [] (by simpa using hc)).1
    rw [append_nil, append_nil] at heq
    rw [toOption_read hnil, toOption_read (mt h.empty.mpr hnil), heq]

/-- Readings between the recordings change no later reading, if each edit can be recorded behind
those before it. -/
theorem read_after_readings (tokens : Array Token) (history : List Use)
    (hc : Calm [] (present (after tokens (history.filter Use.records)))) (start stop : Int) :
    ((after tokens history).read tokens start stop).1.toOption =
      ((after tokens (history.filter Use.records)).read tokens start stop).1.toOption :=
  have hnil : StandsFor [] [] := ⟨Iff.rfl, fun _ hc => ⟨rfl, Or.inl hc⟩⟩
  (hnil.history history).read hc tokens start stop

/-- The tokens of `a+b`. -/
def sumTokens : Array Token :=
  #[⟨.identifier, "a", 1, 0, 0⟩, ⟨.punct .plus, "+", 1, 1, 1⟩, ⟨.identifier, "b", 1, 2, 2⟩,
    ⟨.endOfFile, "<EOF>", 1, 3, 3⟩]

theorem read_after_readings_twice :
    Calm [] (present (after sumTokens
      [.insertBefore 1 "u", .replace 1 1 (some "R"), .insertAfter 2 "v", .replace 0 1 none])) ∧
    ((after sumTokens [.insertBefore 1 "u", .read 0 3, .replace 1 1 (some "R"), .insertAfter 2 "v",
      .read 1 1, .replace 0 1 none]).read sumTokens 0 3).1.toOption =
    ((after sumTokens [.insertBefore 1 "u", .replace 1 1 (some "R"), .insertAfter 2 "v",
      .replace 0 1 none]).read sumTokens 0 3).1.toOption :=
  ⟨by decide, read_after_readings sumTokens
    [.insertBefore 1 "u", .read 0 3, .replace 1 1 (some "R"),
    .insertAfter 2 "v", .read 1 1, .replace 0 1 none] (by decide) 0 3⟩

/-- A reading joins two insertions that a replacement would have put in front of it in reverse, and
it puts an insertion in front of a deletion, which then is in conflict with a later one. -/
theorem reading_changes_later_text :
    ((after sumTokens [.insertBefore 1 "u", .insertBefore 1 "v", .replace 1 1 (some "R")]).readAll
      sumTokens).1 = .ok "avuRb" ∧
    ((after sumTokens [.insertBefore 1 "u", .insertBefore 1 "v", .read 0 3,
      .replace 1 1 (some "R")]).readAll sumTokens).1 = .ok "auvRb" ∧
    ((after sumTokens [.replace 1 2 none, .insertBefore 1 "x", .replace 0 1 none]).readAll
      sumTokens).1 = .ok "" ∧
    ((after sumTokens [.replace 1 2 none, .insertBefore 1 "x", .read 0 3,
      .replace 0 1 none]).readAll sumTokens).1.toOption = none := by
  refine ⟨?_, ?_, ?_, ?_⟩ <;> rfl

end Edits

end Resumable
