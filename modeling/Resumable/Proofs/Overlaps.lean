import Resumable.Proofs.Merging

/-!
# Replacements that overlap earlier edits

A replacement takes over what was inserted at its first token, drops what it covers, and is merged
with deletions if it is one itself. Afterwards no earlier edit has to do with its range, if in the
history before it nothing was inserted into a deleted range that is merged later.

Behind the edits that are left no less can be recorded than behind those that were there. A conflict
between two replacements is found again by every later pass.

* `Edits.Calm`: each edit can be recorded behind those before it.
* `Edits.takeReplacements_ok`: a replacement without conflict leaves what is clear of its range.
* `Edits.settled_replaced`: behind it no earlier edit has to do with its range.
* `Edits.milder_replaced`: no less can be recorded behind what is left.
* `Edits.reduceReplacements_leaves`: the pass over all replacements.
-/

namespace Resumable

open List

variable {e e' : Edit} {i : Int} {es y x : List Edit} {t : String} {P : Edit → Prop}

/-! ## Edits that can be recorded behind others -/

namespace Edit

/-- The edit has to do with the token. -/
def Touches (i : Int) : Edit → Prop
  | insert j _ => j = i
  | replace first last _ => first ≤ i ∧ i ≤ last

/-- The edit deletes the token. -/
def Deletes (i : Int) : Edit → Prop
  | replace first last none => first ≤ i ∧ i ≤ last
  | _ => False

/-- Whether an edit deletes a range that shares tokens with another range and goes beyond it. -/
def Juts (first last : Int) : Edit → Prop
  | replace f l none => ¬ (first ≤ f ∧ l ≤ last) ∧ ¬ (l < first ∨ last < f)
  | _ => False

/-- Whether a range shares no token with another one. -/
def clearOf (c d : Int) : Edit → Bool
  | insert .. => true
  | replace first last _ => last < c ∨ d < first

/-- The edits have no token in common. -/
def Free (e f : Edit) : Prop := ∀ i, e.Touches i → ¬ f.Touches i

/-- Whether an edit can be recorded behind others, whenever these are read. An insertion that is not
the first edit at its token stays the last one that begins there. If a deletion is merged with one
that it does not cover, nothing was inserted into what was deleted before. -/
def Follows (before : List Edit) : Edit → Prop
  | insert .. => True
  | replace first last text =>
    first ≤ last ∧
    before.Pairwise (fun e f => e.index = first → f.index = first → f.replaces = true) ∧
    (text = none → (∃ d ∈ before, d.Juts first last) →
      before.Pairwise fun d e => d.Deletes e.index → e.replaces = true)

instance (i : Int) (e : Edit) : Decidable (e.Deletes i) :=
  match e with
  | insert .. => isFalse id
  | replace first last none => inferInstanceAs (Decidable (first ≤ i ∧ i ≤ last))
  | replace _ _ (some _) => isFalse id

instance (first last : Int) (e : Edit) : Decidable (e.Juts first last) :=
  match e with
  | insert .. => isFalse id
  | replace f l none =>
    inferInstanceAs (Decidable (¬ (first ≤ f ∧ l ≤ last) ∧ ¬ (l < first ∨ last < f)))
  | replace _ _ (some _) => isFalse id

instance (before : List Edit) (e : Edit) : Decidable (e.Follows before) :=
  match e with
  | insert .. => isTrue trivial
  | replace first last text =>
    inferInstanceAs (Decidable (first ≤ last ∧
      before.Pairwise (fun e f => e.index = first → f.index = first → f.replaces = true) ∧
      (text = none → (∃ d ∈ before, d.Juts first last) →
        before.Pairwise fun d e => d.Deletes e.index → e.replaces = true)))

theorem Free.symm {f : Edit} (h : e.Free f) : f.Free e := fun i hf he => h i he hf

theorem Deletes.touches (h : e.Deletes i) : e.Touches i := by
  unfold Deletes at h
  split at h
  · exact h
  · cases h

theorem touches_index (h : e.Proper) : e.Touches e.index := by
  cases e with
  | insert i t => rfl
  | replace f l t => exact ⟨Int.le_refl f, h⟩

/-- Ranges are free of each other if one lies behind the other. -/
theorem free_replace {f l f' l' : Int} {t t' : Option String} (h : f ≤ l) (h' : f' ≤ l') :
    (replace f l t).Free (replace f' l' t') ↔ l < f' ∨ l' < f := by
  constructor
  · intro hfree
    have := hfree (max f f')
    simp only [Touches] at this
    omega
  · rintro hd i ⟨h₁, h₂⟩ ⟨h₃, h₄⟩
    omega

end Edit

namespace Edits

/-- Each edit can be recorded behind those before it. -/
def Calm (before : List Edit) : List Edit → Prop
  | [] => True
  | e :: es => e.Follows before ∧ Calm (before ++ [e]) es

instance decidableCalm : (before es : List Edit) → Decidable (Calm before es)
  | _, [] => isTrue trivial
  | before, e :: es =>
    have := decidableCalm (before ++ [e]) es
    inferInstanceAs (Decidable (e.Follows before ∧ Calm (before ++ [e]) es))

theorem calm_append {before es' : List Edit} :
    Calm before (es ++ es') ↔ Calm before es ∧ Calm (before ++ es) es' := by
  induction es generalizing before with
  | nil => simp [Calm]
  | cons e es ih => simp [Calm, ih, and_assoc]

/-! ## What is recorded later -/

/-- Ranges are proper, and no edit before a replacement has to do with its range. -/
structure Settled (es : List Edit) : Prop where
  proper : ∀ e ∈ es, e.Proper
  clear : es.Pairwise fun e f => f.replaces = true → e.Free f

theorem Settled.sublist {es' : List Edit} (h : Settled es) (hs : es'.Sublist es) : Settled es' :=
  ⟨fun e he => h.proper e (hs.subset he), h.clear.sublist hs⟩

/-- Ranges are proper, and two of them have no token in common. -/
structure Spread (es : List Edit) : Prop where
  proper : ∀ e ∈ es, e.Proper
  clear : es.Pairwise fun e f => e.replaces = true → f.replaces = true → e.Free f

theorem Settled.spread (h : Settled es) : Spread es :=
  ⟨h.proper, h.clear.imp fun {_ _} hab _ hb => hab hb⟩

theorem Spread.sublist {es' : List Edit} (h : Spread es) (hs : es'.Sublist es) : Spread es' :=
  ⟨fun e he => h.proper e (hs.subset he), h.clear.sublist hs⟩

theorem Spread.free (h : Spread es) {a b : Edit} (ha : a ∈ es) (hb : b ∈ es)
    (hra : a.replaces = true) (hrb : b.replaces = true) (hne : a ≠ b) : a.Free b := by
  rcases pairwise_or h.clear ha hb hne with h | h
  · exact h hra hrb
  · exact (h hrb hra).symm

theorem Settled.change (h : Settled (x ++ e :: y)) (hr : e'.replaces = e.replaces)
    (hp : e.Proper → e'.Proper) (ht : ∀ i, e'.Touches i ↔ e.Touches i) :
    Settled (x ++ e' :: y) := by
  constructor
  · have := h.proper
    simp only [forall_mem_append, forall_mem_cons] at this ⊢
    exact ⟨this.1, hp this.2.1, this.2.2⟩
  · simpa only [pairwise_append, pairwise_cons, forall_mem_cons, Edit.Free, hr, ht]
      using h.clear

/-! ## Replacements among what was recorded before -/

/-- The edit, unless it is a range that shares a token with this one. -/
def beyond (first last : Int) : Option Edit → Option Edit
  | some (.replace f l t) => if l < first ∨ last < f then some (.replace f l t) else none
  | e => e

variable {first last c d : Int} {text : Option String} {es es' : Edits}

/-- What holds of the range of a replacement, and still holds when a deletion is merged with it,
holds of what becomes of the range. -/
theorem takeReplacements_range {P : Int → Int → Prop} (hP : P first last)
    (hstep : ∀ f l a b, .replace f l none ∈ present es → ¬ (a ≤ f ∧ l ≤ b) → ¬ (l < a ∨ b < f) →
      text = none → P a b → P (min f a) (max l b)) :
    P (takeReplacements first last text es).2.1.1 (takeReplacements first last text es).2.1.2 := by
  fun_induction takeReplacements first last text es with
  | case1 => exact hP
  | case2 first last f l t es hc es₁ r hr ih | case3 first last f l t es hc hd es₁ r hr ih =>
    rw [hr] at ih
    exact ih hP fun f l a b hmem => hstep f l a b (mem_cons_of_mem _ hmem)
  | case4 first last f l t es hc hd hn es₁ r hr ih =>
    -- Two deletions that overlap are merged; no other case changes the range.
    rw [hr] at ih
    have ht : t = none := by simpa using hn.1
    refine ih (hstep f l first last (ht ▸ mem_cons_self) hc hd (by simpa using hn.2) hP) ?_
    exact fun f l a b hmem => hstep f l a b (mem_cons_of_mem _ hmem)
  | case5 => exact hP
  | case6 first last e es hne es₁ r hr ih =>
    rw [hr] at ih
    refine ih hP fun f l a b hmem => hstep f l a b ?_
    cases e with
    | none => exact hmem
    | some e => exact mem_cons_of_mem _ hmem

/-- A range only grows. -/
theorem takeReplacements_grows : (takeReplacements first last text es).2.1.1 ≤ first ∧
    last ≤ (takeReplacements first last text es).2.1.2 := by
  refine takeReplacements_range (P := fun a b => a ≤ first ∧ last ≤ b) (by simp) ?_
  intro f l a b _ _ _ _ h
  omega

theorem takeReplacements_still (h : text = none → ∀ e ∈ present es, ¬ e.Juts first last) :
    (takeReplacements first last text es).2.1 = (first, last) := by
  have := @takeReplacements_range first last text es (fun a b => a = first ∧ b = last) ⟨rfl, rfl⟩ ?_
  · exact Prod.ext this.1 this.2
  · rintro f l a b hmem hc hd ht ⟨rfl, rfl⟩
    exact absurd ⟨hc, hd⟩ (h ht _ hmem)

/-- Whether two replacements have a conflict depends on their ranges, and on whether both delete. -/
def span (text : Option String) : Option Edit → Option (Int × Int × Bool)
  | some (.replace f l t) => some (f, l, t.isNone && text.isNone)
  | _ => none

/-- Of the earlier edits only the ranges matter, and whether they delete. -/
theorem takeReplacements_congr (h : es.map (span text) = es'.map (span text)) :
    (takeReplacements first last text es).2.1 = (takeReplacements first last text es').2.1 ∧
      ((takeReplacements first last text es).2.2.isSome =
        (takeReplacements first last text es').2.2.isSome) := by
  induction es generalizing es' first last with
  | nil =>
    cases es' with
    | nil => exact ⟨rfl, rfl⟩
    | cons e' es' => cases h
  | cons e es ih =>
    cases es' with
    | nil => cases h
    | cons e' es' =>
    obtain ⟨he, hes⟩ := List.cons.inj h
    have ih := fun {first last} => @ih first last es' hes
    -- Edits with the same span take the same branch.
    rcases e with _ | ⟨i, t⟩ | ⟨f, l, t⟩ <;> rcases e' with _ | ⟨i', t'⟩ | ⟨f', l', t'⟩ <;>
      simp only [span, reduceCtorEq, Option.some.injEq, Prod.mk.injEq] at he <;>
      try exact ih
    obtain ⟨rfl, rfl, hn⟩ := he
    simp only [takeReplacements]
    split
    · exact ih
    · split
      · exact ih
      · have hiff : (t.isNone = true ∧ text.isNone = true) ↔
            (t'.isNone = true ∧ text.isNone = true) := by
          rw [← Bool.and_eq_true, ← Bool.and_eq_true, hn]
        by_cases hb : t.isNone = true ∧ text.isNone = true
        · rw [if_pos hb, if_pos (hiff.mp hb)]
          exact ih
        · rw [if_neg hb, if_neg (mt hiff.mpr hb)]
          exact ⟨rfl, rfl⟩

theorem takeReplacements_text (h : ∀ e ∈ present es, ¬ e.Juts first last) :
    (takeReplacements first last none es).2.2.isSome =
      (takeReplacements first last (some "") es).2.2.isSome := by
  induction es with
  | nil => rfl
  | cons e es ih =>
    rcases e with _ | ⟨i, t⟩ | ⟨f, l, t⟩
    · exact ih h
    · exact ih (forall_mem_cons.mp h).2
    · obtain ⟨he, hes⟩ := forall_mem_cons.mp h
      simp only [takeReplacements]
      split
      · exact ih hes
      · next hc =>
        split
        · exact ih hes
        · next hd =>
          cases t with
          | none => exact absurd ⟨hc, hd⟩ he
          | some s => simp

/-- A range that has no token in common with a replacement, nor with what may be merged with it, has
none in common with what becomes of it. -/
theorem takeReplacements_apart {f l : Int} {t : Option String} {all : List Edit} (hs : Spread all)
    (hsub : (present es).Sublist all) (hmem : .replace f l t ∈ all) (hle : first ≤ last)
    (hd : l < first ∨ last < f) : l < (takeReplacements first last text es).2.1.1 ∨
      (takeReplacements first last text es).2.1.2 < f := by
  refine (takeReplacements_range (P := fun a b => a ≤ b ∧ (l < a ∨ b < f)) ⟨hle, hd⟩ ?_).2
  intro f' l' a b hmem' _ hmeets _ h
  have hmem' := hsub.subset hmem'
  have hfl : f ≤ l := hs.proper _ hmem
  have hfl' : f' ≤ l' := hs.proper _ hmem'
  by_cases heq : Edit.replace f l t = .replace f' l' none
  · cases heq
    omega
  · have hfree := hs.free hmem hmem' rfl rfl heq
    rw [Edit.free_replace hfl hfl'] at hfree
    omega

/-- Without a conflict the edits clear of the range are left. -/
theorem takeReplacements_ok (hs : Spread (present es)) (hle : first ≤ last)
    (hk : (takeReplacements first last text es).2.2 = none) :
    (takeReplacements first last text es).1 =
      es.map (beyond (takeReplacements first last text es).2.1.1
        (takeReplacements first last text es).2.1.2) := by
  induction es generalizing first last with
  | nil => rfl
  | cons e es ih =>
    rcases e with _ | ⟨i, t⟩ | ⟨f, l, t⟩
    · simpa [takeReplacements, beyond] using ih hs hle hk
    · simpa [takeReplacements, beyond] using ih (hs.sublist (sublist_cons_self _ _)) hle hk
    · have hrest : Spread (present es) := hs.sublist (sublist_cons_self _ _)
      have hfl : f ≤ l := hs.proper (.replace f l t) mem_cons_self
      rw [takeReplacements] at hk ⊢
      split at hk
      · next hc =>
        have hg := @takeReplacements_grows first last text es
        rw [if_pos hc, map_cons, beyond, if_neg (by simp only; omega)]
        exact congrArg _ (ih hrest hle hk)
      · next hc =>
        rw [if_neg hc]
        split at hk
        · next hd =>
          rw [if_pos hd, map_cons, beyond,
            if_pos (takeReplacements_apart hs (sublist_cons_self _ _) mem_cons_self hle hd)]
          exact congrArg _ (ih hrest hle hk)
        · next hd =>
          rw [if_neg hd]
          split at hk
          · next hn =>
            -- A deletion that was merged lies in the range, which only grows.
            have hg := @takeReplacements_grows (min f first) (max l last) text es
            rw [if_pos hn, map_cons, beyond, if_neg (by simp only; omega)]
            exact congrArg _ (ih hrest (by omega) hk)
          · cases hk

/-- Without a conflict a range with a text is covered or lies apart. -/
theorem takeReplacements_covers (hs : Spread (present es)) (hle : first ≤ last)
    (hk : (takeReplacements first last text es).2.2 = none) {f l : Int} {t : Option String}
    (hmem : .replace f l t ∈ present es) (hn : ¬ (t = none ∧ text = none)) :
    (first ≤ f ∧ l ≤ last) ∨ (l < first ∨ last < f) := by
  induction es generalizing first last with
  | nil => cases hmem
  | cons e es ih =>
    rcases e with _ | ⟨i, u⟩ | ⟨f', l', u⟩
    · exact ih hs hle hk hmem
    · exact ih (hs.sublist (sublist_cons_self _ _)) hle hk
        ((mem_cons.mp hmem).resolve_left (by simp))
    · have hrest : Spread (present es) := hs.sublist (sublist_cons_self _ _)
      rw [takeReplacements] at hk
      rcases mem_cons.mp hmem with heq | hmem
      · cases heq
        split at hk
        · exact Or.inl ‹_›
        · split at hk
          · exact Or.inr ‹_›
          · rw [if_neg (by simpa using hn)] at hk
            cases hk
      · have hfl : f ≤ l := hrest.proper _ hmem
        have hfl' : f' ≤ l' := hs.proper (.replace f' l' u) mem_cons_self
        have hfree := (pairwise_cons.mp hs.clear).1 _ hmem rfl rfl
        split at hk
        · exact ih hrest hle hk hmem
        · split at hk
          · exact ih hrest hle hk hmem
          · split at hk
            · -- Merging another deletion does not bring this range inside, as the two are free.
              have := ih hrest (by omega) hk hmem
              rw [Edit.free_replace hfl' hfl] at hfree
              omega
            · cases hk

theorem takeReplacements_sublist :
    (present (takeReplacements first last text es).1).Sublist (present es) := by
  fun_induction takeReplacements first last text es with
  | case1 | case5 => exact List.Sublist.refl _
  | case2 first last f l t es hc es₁ r hr ih | case4 first last f l t es hc hd hn es₁ r hr ih =>
    rw [hr] at ih
    exact ih.cons _
  | case3 first last f l t es hc hd es₁ r hr ih =>
    rw [hr] at ih
    exact ih.cons_cons _
  | case6 first last e es hne es₁ r hr ih =>
    rw [hr] at ih
    cases e with
    | none => exact ih
    | some e => exact ih.cons_cons _

/-- A conflict is found again. -/
theorem takeReplacements_again (hs : Spread (present es)) (hle : first ≤ last)
    (hk : (takeReplacements first last text es).2.2.isSome = true) {text' : Option String}
    (ht : text' = none → text = none) :
    (takeReplacements (takeReplacements first last text es).2.1.1
      (takeReplacements first last text es).2.1.2 text'
      (takeReplacements first last text es).1).2.2.isSome = true := by
  induction es generalizing first last with
  | nil => cases hk
  | cons e es ih =>
    rcases e with _ | ⟨i, t⟩ | ⟨f, l, t⟩
    · exact ih hs hle hk
    · exact ih (hs.sublist (sublist_cons_self _ _)) hle hk
    · have hrest : Spread (present es) := hs.sublist (sublist_cons_self _ _)
      have hfl : f ≤ l := hs.proper (.replace f l t) mem_cons_self
      rw [takeReplacements] at hk ⊢
      split at hk
      · next hc =>
        rw [if_pos hc]
        exact ih hrest hle hk
      · next hc =>
        rw [if_neg hc]
        split at hk
        · next hd =>
          -- It lies apart, and the range that has grown does not reach it either.
          have hapart := @takeReplacements_apart _ _ text _ _ _ t _ hs (sublist_cons_self _ _)
            mem_cons_self hle hd
          have hg := @takeReplacements_grows first last text es
          rw [if_pos hd]
          dsimp only
          rw [takeReplacements, if_neg (by omega), if_pos hapart]
          exact ih hrest hle hk
        · next hd =>
          rw [if_neg hd]
          split at hk
          · next hn =>
            rw [if_pos hn]
            exact ih hrest (by omega) hk
          · next hn =>
            have hn' : ¬ (t.isNone = true ∧ text'.isNone = true) := by
              simp only [Option.isNone_iff_eq_none] at hn ⊢
              exact fun h => hn ⟨h.1, ht h.2⟩
            rw [if_neg hn]
            dsimp only
            rw [takeReplacements, if_neg hc, if_neg hd, if_neg hn']
            rfl

/-! ## A replacement and all that was recorded before it -/

theorem present_beyond (c d : Int) (es : Edits) :
    present (es.map (beyond c d)) = (present es).filter (·.clearOf c d) := by
  refine present_map rfl (fun e => ?_) es
  cases e with
  | insert i t => rfl
  | replace f l t => by_cases hfar : l < c ∨ d < f <;> simp [beyond, Edit.clearOf, hfar]

theorem mem_outside (h : .insert i t ∈ present (es.map (outside first last))) :
    ¬ (i = first ∨ first < i ∧ i ≤ last) := by
  rw [present_outside] at h
  exact of_decide_eq_false (Bool.not_eq_true' _ ▸ (mem_filter.mp h).2)

theorem map_span_outside : (es.map (outside first last)).map (span text) = es.map (span text) := by
  rw [map_map]
  refine map_congr_left fun e _ => ?_
  rcases e with _ | ⟨i, t⟩ | ⟨f, l, t⟩
  · rfl
  · simp only [Function.comp_apply, outside]
    split <;> rfl
  · rfl

theorem text_of_withInsertions (h : withInsertions first text es = none) : text = none := by
  unfold withInsertions at h
  generalize insertions first (present es) = ts at h
  induction ts generalizing text with
  | nil => exact h
  | cons t ts ih => cases ih h

theorem replace_free_replacement {before : Edits} (hs : Spread (present before))
    (hle : first ≤ last)
    (hk : (replaced first last text before).2.2 = none) {f l : Int} {s : Option String}
    (he : .replace f l s ∈ present (replaced first last text before).1) :
    (Edit.replace f l s).Free (replacement first last text before) := by
  have hsub := outside_sublist first last before
  have hok := takeReplacements_ok (hs.sublist hsub) hle hk
  have hfar : l < (replaced first last text before).2.1.1 ∨
      (replaced first last text before).2.1.2 < f := by
    unfold replaced at he
    rw [hok, present_beyond] at he
    exact of_decide_eq_true (mem_filter.mp he).2
  rintro j ⟨h₁, h₂⟩ ⟨h₃, h₄⟩
  omega

section Step

variable {before : Edits} (hs : Settled (present before))
  (hf : (Edit.replace first last text).Follows (present before))

include hs hf

theorem not_deletes (hj : text = none ∧ ∃ e ∈ present before, e.Juts first last)
    (hi : .insert i t ∈ present before) (he : e ∈ present before) : ¬ e.Deletes i := by
  intro hdel
  by_cases hne : Edit.insert i t = e
  · subst hne
    exact hdel
  · rcases pairwise_or (hs.clear.and (hf.2.2 hj.1 hj.2)) hi he hne with ⟨hclear, -⟩ | ⟨-, hinto⟩
    · cases e with
      | insert j u => exact hdel
      | replace f l u => exact hclear rfl i rfl hdel.touches
    · cases hinto hdel

theorem insertion_beyond (hi : .insert i t ∈ present (before.map (outside first last))) :
    ¬ ((replaced first last text before).2.1.1 ≤ i ∧
      i ≤ (replaced first last text before).2.1.2) := by
  have hout := mem_outside hi
  have hsub := outside_sublist first last before
  by_cases hj : text = none ∧ ∃ e ∈ present before, e.Juts first last
  · refine takeReplacements_range (P := fun a b => ¬ (a ≤ i ∧ i ≤ b)) (by omega) ?_
    intro f l a b hmem _ hmeets _ hab
    have hdel : ¬ (f ≤ i ∧ i ≤ l) := not_deletes hs hf hj (hsub.subset hi) (hsub.subset hmem)
    omega
  · have hstill : (replaced first last text before).2.1 = (first, last) := by
      refine takeReplacements_still fun ht e he hjut => hj ?_
      exact ⟨text_of_withInsertions ht, e, hsub.subset he, hjut⟩
    rw [hstill]
    simp only
    omega

/-- What is left is free of the replacement. -/
theorem free_replacement (hk : (replaced first last text before).2.2 = none)
    (he : e ∈ present (replaced first last text before).1) :
    e.Free (replacement first last text before) := by
  cases e with
  | insert i t =>
    rintro j rfl
    exact insertion_beyond hs hf (takeReplacements_sublist.subset he)
  | replace f l t => exact replace_free_replacement hs.spread hf.1 hk he

theorem settled_replaced (hk : (replaced first last text before).2.2 = none) :
    Settled (present ((replaced first last text before).1 ++
      [some (replacement first last text before)])) := by
  have hsub := outside_sublist first last before
  have hleft : Settled (present (replaced first last text before).1) :=
    (hs.sublist hsub).sublist takeReplacements_sublist
  have hgrows : (replaced first last text before).2.1.1 ≤ first ∧
      last ≤ (replaced first last text before).2.1.2 := takeReplacements_grows
  have hle : first ≤ last := hf.1
  rw [present_append]
  refine ⟨fun e he => ?_, pairwise_concat.mpr ⟨hleft.clear, fun e he _ => ?_⟩⟩
  · rcases mem_append.mp he with he | he
    · exact hleft.proper e he
    · cases mem_singleton.mp he
      change _ ≤ _
      omega
  · exact free_replacement hs hf hk he

end Step

/-! ## Edits behind which more can be recorded -/

/-- What later edits have to heed about an edit. -/
inductive Trait : (Edit → Prop) → Prop
  | index (i : Int) : Trait fun e => e.index = i
  | deletes (i : Int) : Trait (Edit.Deletes i)
  | juts {f l : Int} (h : f ≤ l) : Trait (Edit.Juts f l)

/-- Behind the edits of the second list all can be recorded that can be recorded behind the first.
-/
structure Milder (es es' : List Edit) : Prop where
  traits : ∀ {P}, Trait P → (∃ e ∈ es', P e) → ∃ e ∈ es, P e
  order : ∀ i, es.Pairwise (fun e f => e.index = i → f.index = i → f.replaces = true) →
    es'.Pairwise fun e f => e.index = i → f.index = i → f.replaces = true
  into : (es.Pairwise fun d e => d.Deletes e.index → e.replaces = true) →
    es'.Pairwise fun d e => d.Deletes e.index → e.replaces = true

theorem Milder.append {es es' : List Edit} (h : Milder es es') (e : Edit) :
    Milder (es ++ [e]) (es' ++ [e]) where
  traits := by
    rintro P hP ⟨f, hf, hPf⟩
    rcases mem_append.mp hf with hf | hf
    · obtain ⟨d, hd, hPd⟩ := h.traits hP ⟨f, hf, hPf⟩
      exact ⟨d, mem_append_left _ hd, hPd⟩
    · exact ⟨f, mem_append_right _ hf, hPf⟩
  order := by
    intro i hp
    obtain ⟨hes, hcross⟩ := pairwise_concat.mp hp
    refine pairwise_concat.mpr ⟨h.order i hes, fun f hf hfi => ?_⟩
    -- An index that the milder edits have is one that the others have.
    obtain ⟨d, hd, hdi⟩ := h.traits (.index i) ⟨f, hf, hfi⟩
    exact hcross d hd hdi
  into := by
    intro hp
    obtain ⟨hes, hcross⟩ := pairwise_concat.mp hp
    refine pairwise_concat.mpr ⟨h.into hes, fun f hf hdel => ?_⟩
    obtain ⟨d, hd, hdi⟩ := h.traits (.deletes e.index) ⟨f, hf, hdel⟩
    exact hcross d hd hdi

theorem Milder.append_list {es es' : List Edit} (h : Milder es es') (rest : List Edit) :
    Milder (es ++ rest) (es' ++ rest) := by
  induction rest generalizing es es' with
  | nil => simpa using h
  | cons e rest ih => simpa using ih (h.append e)

/-- Behind milder edits the same can be recorded. -/
theorem Milder.calm {es es' rest : List Edit} (h : Milder es es') (hc : Calm es rest) :
    Calm es' rest := by
  induction rest generalizing es es' with
  | nil => trivial
  | cons e rest ih =>
    refine ⟨?_, ih (h.append e) hc.2⟩
    cases e with
    | insert i t => trivial
    | replace f l t =>
      obtain ⟨hle, horder, hinto⟩ := hc.1
      exact ⟨hle, h.order f horder, fun ht hj => h.into (hinto ht (h.traits (.juts hle) hj))⟩

theorem Milder.trans {a b e : List Edit} (h : Milder a b) (h' : Milder b e) : Milder a e :=
  ⟨fun hP hx => h.traits hP (h'.traits hP hx), fun i hp => h'.order i (h.order i hp),
    fun hp => h'.into (h.into hp)⟩

theorem Milder.of_sublist {es es' : List Edit} (h : es'.Sublist es) : Milder es es' :=
  ⟨fun _ ⟨e, he, hPe⟩ => ⟨e, h.subset he, hPe⟩, fun _ hp => hp.sublist h, fun hp => hp.sublist h⟩

theorem Milder.change (hi : e'.index = e.index) (hr : e'.replaces = e.replaces)
    (htraits : ∀ {P}, Trait P → P e' → P e) :
    Milder (x ++ e :: y) (x ++ e' :: y) where
  traits := by
    rintro P hP ⟨f, hf, hPf⟩
    simp only [mem_append, mem_cons] at hf ⊢
    rcases hf with hf | rfl | hf
    · exact ⟨f, Or.inl hf, hPf⟩
    · exact ⟨e, Or.inr (Or.inl rfl), htraits hP hPf⟩
    · exact ⟨f, Or.inr (Or.inr hf), hPf⟩
  order i hp := by
    simpa only [pairwise_append, pairwise_cons, forall_mem_cons, hi, hr] using hp
  into hp := by
    simp only [pairwise_append, pairwise_cons, forall_mem_cons, hi, hr] at hp ⊢
    obtain ⟨hx, ⟨he, hy⟩, hcross⟩ := hp
    exact ⟨hx, ⟨fun f hf hdel => he f hf (htraits (.deletes _) hdel), hy⟩, hcross⟩

/-- A merged range has no trait that none of its parts has. -/
theorem trait_replacement {before : Edits} (hs : Settled (present before)) (hle : first ≤ last)
    (hP : Trait P) (h : P (replacement first last text before)) :
    ∃ e ∈ present before ++ [.replace first last text], P e := by
  have hsub := outside_sublist first last before
  -- Wherever the range is when a deletion is merged with it, one of the two has the trait.
  suffices hrange : ∀ t, (t = none → text = none) →
      P (.replace (replaced first last text before).2.1.1
        (replaced first last text before).2.1.2 t) →
      ∃ e ∈ present before ++ [.replace first last text], P e
    from hrange _ text_of_withInsertions h
  intro t ht
  refine (takeReplacements_range (P := fun a b => a ≤ b ∧ (P (.replace a b t) →
    ∃ e ∈ present before ++ [.replace first last text], P e)) ⟨hle, fun h => ?_⟩ ?_).2
  · refine ⟨_, mem_append_right _ (mem_singleton_self _), ?_⟩
    cases hP with
    | index i => exact h
    | deletes i | juts hfl =>
      cases t with
      | none => rw [ht rfl]; exact h
      | some s => cases h
  · intro f l a b hmem _ hmeets _ ⟨hab, hi⟩
    have hmem := hsub.subset hmem
    have hfl : f ≤ l := hs.proper _ hmem
    refine ⟨by omega, fun h => ?_⟩
    have hone : P (.replace f l none) ∨ P (.replace a b t) := by
      cases hP with
      | index i =>
        have : min f a = i := h
        change f = i ∨ a = i
        omega
      | deletes i =>
        cases t with
        | none =>
          have : min f a ≤ i ∧ i ≤ max l b := h
          change (f ≤ i ∧ i ≤ l) ∨ (a ≤ i ∧ i ≤ b)
          omega
        | some s => cases h
      | @juts f' l' hfl' =>
        cases t with
        | none =>
          have : ¬ (f' ≤ min f a ∧ max l b ≤ l') ∧ ¬ (max l b < f' ∨ l' < min f a) := h
          change (¬ (f' ≤ f ∧ l ≤ l') ∧ ¬ (l < f' ∨ l' < f)) ∨
            (¬ (f' ≤ a ∧ b ≤ l') ∧ ¬ (b < f' ∨ l' < a))
          omega
        | some s => cases h
    rcases hone with h | h
    · exact ⟨_, mem_append_left _ hmem, h⟩
    · exact hi h

theorem milder_replaced {before : Edits} (hs : Settled (present before))
    (hle : first ≤ last) : Milder (present before ++ [.replace first last text])
      (present ((replaced first last text before).1 ++
        [some (replacement first last text before)])) := by
  have hsub : (present (replaced first last text before).1).Sublist (present before) :=
    takeReplacements_sublist.trans (outside_sublist first last before)
  rw [present_append]
  refine ⟨fun {P} hP => ?_, fun i hp => ?_, fun hp => ?_⟩
  · rintro ⟨e, he, hPe⟩
    rcases mem_append.mp he with he | he
    · exact ⟨e, mem_append_left _ (hsub.subset he), hPe⟩
    · cases mem_singleton.mp he
      exact trait_replacement hs hle hP hPe
  all_goals
    refine pairwise_concat.mpr ⟨(pairwise_append.mp hp).1.sublist hsub, fun e _ => ?_⟩
    simp [replacement, Edit.replaces]

theorem Settled.append_insert {es : List Edit} (h : Settled es) (i : Int) (t : String) :
    Settled (es ++ [.insert i t]) := by
  constructor
  · intro e he
    rcases mem_append.mp he with he | he
    · exact h.proper e he
    · cases mem_singleton.mp he
      trivial
  · exact pairwise_concat.mpr ⟨h.clear, fun e _ hr => by cases hr⟩

theorem forall_present_append {x y : Edits} (h : ∀ e ∈ present (x ++ y), P e) :
    ∀ e ∈ present x, P e := by
  intro e he
  refine h e ?_
  rw [present_append]
  exact mem_append_left _ he

/-! ## The pass over the replacements -/

theorem reduceReplacements_append (before es es' : Edits) :
    reduceReplacements before (es ++ es') =
      match reduceReplacements before es with
      | (r, none) => reduceReplacements r es'
      | (r, some k) => (r ++ es', some k) := by
  induction es generalizing before with
  | nil => rfl
  | cons e es ih =>
    rcases e with _ | ⟨i, t⟩ | ⟨f, l, t⟩
    · exact ih _
    · exact ih _
    · rw [cons_append, reduceReplacements_replace, reduceReplacements_replace]
      cases (replaced f l t before).2.2 with
      | none => exact ih _
      | some k => simp

theorem replaced_alone {before : Edits} (hp : ∀ e ∈ present before, e.Proper) (hle : first ≤ last)
    (h : ∀ e ∈ present before, e.Free (.replace first last text)) :
    replaced first last text before = (before, (first, last), none) ∧
      withInsertions first text before = text := by
  -- No insertion is taken over or dropped, and no range is touched.
  have hno : ∀ {i t}, .insert i t ∈ present before → ¬ (first ≤ i ∧ i ≤ last) := fun he =>
    h _ he _ rfl
  have hout : before.map (outside first last) = before := by
    refine (map_congr_left fun e he => ?_).trans (map_id _)
    rcases e with _ | ⟨i, t⟩ | ⟨f, l, t⟩
    · rfl
    · have := hno (i := i) (t := t) (by simpa [present] using he)
      exact if_neg (by omega)
    · rfl
  have hins : insertions first (present before) = [] := by
    refine insertions_eq_nil.mpr fun e he => ?_
    cases e with
    | insert i t => exact if_neg fun hi => hno he (by omega)
    | replace f l t => rfl
  refine ⟨?_, by rw [withInsertions, hins]; rfl⟩
  rw [replaced_apart fun e he => ⟨hp e he, ?_⟩, hout]
  cases e with
  | insert i t => exact fun hin => hno he (by omega)
  | replace f l t => exact (Edit.free_replace (hp _ he) hle).mp (h _ he)

theorem reduceReplacements_settled {before es : Edits} (hs : Settled (present (before ++ es))) :
    reduceReplacements before es = (before ++ es, none) := by
  induction es generalizing before with
  | nil => simp [reduceReplacements]
  | cons e es ih =>
    have hsplit : before ++ e :: es = before ++ [e] ++ es := by simp
    have ih := ih (hsplit ▸ hs)
    rw [hsplit, ← ih]
    rcases e with _ | ⟨i, t⟩ | ⟨f, l, t⟩
    · rfl
    · rfl
    · have hle : f ≤ l := hs.proper (.replace f l t) (by simp)
      have hclear : (present before ++ .replace f l t :: present es).Pairwise
          fun e f => f.replaces = true → e.Free f := by simpa using hs.clear
      obtain ⟨hrep, htext⟩ := @replaced_alone f l t before (forall_present_append hs.proper) hle
        fun e he => (pairwise_append.mp hclear).2.2 e he _ mem_cons_self rfl
      rw [reduceReplacements_replace, replacement, hrep, htext]

/-- Settled edits could be recorded in their order. -/
theorem Settled.calm {before es : List Edit} (hs : Settled (before ++ es)) : Calm before es := by
  induction es generalizing before with
  | nil => trivial
  | cons e es ih =>
    refine ⟨?_, ih (by simpa using hs)⟩
    cases e with
    | insert i t => trivial
    | replace f l t =>
      have hle : f ≤ l := hs.proper (.replace f l t) (by simp)
      have hfree : ∀ e ∈ before, e.Proper ∧ e.Free (.replace f l t) := fun e he =>
        ⟨hs.proper e (by simp [he]),
          (pairwise_append.mp hs.clear).2.2 e he _ mem_cons_self rfl⟩
      refine ⟨hle, ?_, ?_⟩
      · refine (pairwise_of_forall_mem_list fun e he g _ hef => ?_)
        have htouch := Edit.touches_index (hfree e he).1
        rw [hef] at htouch
        exact absurd ⟨Int.le_refl f, hle⟩ ((hfree e he).2 f htouch)
      · -- A deletion that juts out would share a token with this one.
        rintro - ⟨d, hd, hjut⟩
        obtain ⟨hproper, hfree⟩ := hfree d hd
        rcases d with ⟨i, u⟩ | ⟨f', l', _ | u⟩
        · cases hjut
        · exact absurd ((Edit.free_replace hproper hle).mp hfree) hjut.2
        · cases hjut

/-! ## Conflicts between replacements -/

/-- A replacement is in conflict with one recorded before it. -/
inductive Doomed : Edits → Prop
  | intro {before es : Edits} {first last : Int} {text : Option String}
      (hs : Settled (present before)) (hle : first ≤ last)
      (hk : (replaced first last text before).2.2.isSome = true) :
      Doomed (before ++ some (.replace first last text) :: es)

theorem Doomed.append {es : Edits} (h : Doomed es) (es' : Edits) : Doomed (es ++ es') := by
  cases h with
  | @intro before es first last text hs hle hk =>
    simpa using @Doomed.intro before (es ++ es') first last text hs hle hk

/-- Behind a conflict there is no way out. -/
theorem doomed_replaced {before : Edits} (hs : Settled (present before)) (hle : first ≤ last)
    (hk : (replaced first last text before).2.2.isSome = true) (es : Edits) :
    Doomed ((replaced first last text before).1 ++
      some (replacement first last text before) :: es) := by
  have hsub := outside_sublist first last before
  have hgrows : (replaced first last text before).2.1.1 ≤ first ∧
      last ≤ (replaced first last text before).2.1.2 := takeReplacements_grows
  refine .intro ((hs.sublist hsub).sublist takeReplacements_sublist) (by omega) ?_
  rw [replaced, (takeReplacements_congr map_span_outside).2]
  exact takeReplacements_again (hs.sublist hsub).spread hle hk text_of_withInsertions

/-- The pass leaves edits settled, and behind them no less can be recorded; or it finds a conflict,
which is there for good. -/
theorem reduceReplacements_leaves {before es r : Edits} {k : Option Conflict}
    (hs : Settled (present before)) (hc : Calm (present before) (present es))
    (hr : reduceReplacements before es = (r, k)) :
    k.elim (Settled (present r) ∧ Milder (present before ++ present es) (present r)) fun _ =>
      Doomed r := by
  induction es generalizing before with
  | nil =>
    cases hr
    exact ⟨hs, .of_sublist (by simp)⟩
  | cons e es ih =>
    rcases e with _ | ⟨i, t⟩ | ⟨f, l, t⟩
    · simpa using @ih (before ++ [none]) (by simpa using hs) (by simpa using hc) hr
    · have hl : present (before ++ [some (.insert i t)]) = present before ++ [.insert i t] := by
        simp
      have := @ih (before ++ [some (.insert i t)]) (hl ▸ hs.append_insert i t) (hl ▸ hc.2) hr
      rw [hl, append_assoc] at this
      exact this
    · rw [reduceReplacements_replace] at hr
      cases hk : (replaced f l t before).2.2 with
      | some k =>
        rw [hk] at hr
        cases hr
        exact doomed_replaced hs hc.1.1 (by rw [hk]; rfl) es
      | none =>
        rw [hk] at hr
        -- What is still to come can be recorded behind what is left.
        have hmild := @milder_replaced f l t before hs hc.1.1
        have hrest := ih (settled_replaced hs hc.1 hk) (hmild.calm hc.2) hr
        cases k with
        | some k => exact hrest
        | none =>
          refine ⟨hrest.1, .trans ?_ hrest.2⟩
          rw [show present (some (.replace f l t) :: es) = [.replace f l t] ++ present es from rfl,
            ← append_assoc]
          exact hmild.append_list _

theorem Doomed.reduceReplacements {es : Edits} (h : Doomed es) :
    ∃ r k, reduceReplacements [] es = (r, some k) ∧ Doomed r := by
  cases h with
  | @intro before es first last text hs hle hk =>
    obtain ⟨k, hk'⟩ := Option.isSome_iff_exists.mp hk
    refine ⟨_, k, ?_, doomed_replaced hs hle hk es⟩
    rw [reduceReplacements_append, @reduceReplacements_settled [] _ hs]
    simp only [reduceReplacements_replace, nil_append, hk']

end Edits

end Resumable
