import Mathlib.Data.List.TakeWhile
import Resumable.Proofs.Reading
import Resumable.Proofs.Rereading

/-!
# The edits that a reduction leaves

Replacements that are left share no token, and of the insertions at one token one is left. An
insertion that is left stands in no range either, with one exception. A deletion is merged with an
earlier one that it does not cover; what was inserted between the two, at a token of the earlier
one, is not dropped by the later one and stands in the merged range.

Insertions at one token are joined in their order. A replacement at this token takes them over one
after the other and puts each of them in front, so that they come out in reverse.

* `Edits.Traced`: where the edits that are left come from.
* `Edits.Traced.append_replace`: a replacement keeps that.
* `Edits.Passed.insert`: so does an insertion.
* `Edits.reduce_leaves_free`: what is left shares no token, but for insertions between deletions.
* `Edits.readAll_orders_insertions`: the order of insertions in the text that is read.
-/

namespace Resumable

open List

/-- Whether an edit writes a text, that is, whether it is not a deletion. -/
def Edit.Writes : Edit → Prop
  | replace _ _ none => False
  | _ => True

theorem Edit.writes_led {i : Int} {t : String} {e : Edit} (h : e.Writes) : (e.led i t).Writes := by
  cases e with
  | insert j u => trivial
  | replace a b u =>
    rw [led]
    split
    · trivial
    · exact h

namespace Edits

variable {past before es p q : List Edit} {e f e' f' : Edit} {i first last : Int}
  {t u : String} {text : Option String}

/-! ## Insertions between deletions -/

/-- At a token something was inserted behind a deletion of it and before a deletion that does not
reach it, and a range holds what both delete. -/
def Between (past : List Edit) (i first last : Int) : Prop :=
  ∃ a b c d t, [.replace a b none, .insert i t, .replace c d none].Sublist past ∧
    (a ≤ i ∧ i ≤ b) ∧ ¬ (c ≤ i ∧ i ≤ d) ∧ (first ≤ a ∧ b ≤ last) ∧ first ≤ c ∧ d ≤ last

/-- An insertion stands in a range because deletions were merged. -/
def Reopened (past : List Edit) : Edit → Edit → Prop
  | .insert i _, .replace first last _ => Between past i first last
  | _, _ => False

/-- Two edits have no token in common, up to the exception. -/
def Tidy (past : List Edit) (e f : Edit) : Prop := e.Free f ∨ Reopened past e f

theorem tidy_congr (he : e.shape = e'.shape) (hf : f.shape = f'.shape) :
    Tidy past e f ↔ Tidy past e' f' := by
  cases e <;> cases e' <;> cases he <;> cases f <;> cases f' <;> cases hf <;> exact Iff.rfl

/-- A wider range has the insertion between its deletions as well. -/
theorem Between.mono {past' : List Edit} {f' l' : Int} (h : Between past i first last)
    (hp : past.Sublist past') (hf : f' ≤ first) (hl : last ≤ l') : Between past' i f' l' := by
  obtain ⟨a, b, c, d, t, hsub, hi, hout, hab, hcd⟩ := h
  exact ⟨a, b, c, d, t, hsub.trans hp, hi, hout, by omega, by omega⟩

theorem Tidy.mono {past' : List Edit} (h : Tidy past e f) (hp : past.Sublist past') :
    Tidy past' e f := by
  refine h.imp_right fun h => ?_
  rcases e with ⟨j, u⟩ | ⟨a, b, u⟩ <;> rcases f with ⟨k, v⟩ | ⟨c, d, v⟩
  · exact h
  · exact Between.mono h hp (Int.le_refl _) (Int.le_refl _)
  · exact h
  · exact h

/-! ## Where the edits come from -/

/-- The token is deleted by an edit of the past, inside of the range. -/
def Deletion (past : List Edit) (i first last : Int) : Prop :=
  ∃ a b, .replace a b none ∈ past ∧ (a ≤ i ∧ i ≤ b) ∧ first ≤ a ∧ b ≤ last

/-- An insertion behind a deletion was recorded behind one that deletes the token, if any. -/
def Dug (past : List Edit) : Edit → Edit → Prop
  | .replace first last none, .insert i _ => first ≤ i → i ≤ last →
      ∃ a b t, [.replace a b none, .insert i t].Sublist past ∧ (a ≤ i ∧ i ≤ b) ∧
        first ≤ a ∧ b ≤ last
  | _, _ => True

/-- The text of an edit, if the edits of a second list are still to come. An insertion has the texts
inserted at its token in their order. A replacement has those inserted at its first token in
reverse and then its own, unless something was inserted between deletions there. -/
def Told (past rest : List Edit) : Edit → Prop
  | .insert i t => ∃ us, t = String.join us ∧
      (us ++ insertions i rest).Sublist (insertions i past)
  | .replace first last t => Between past first first last ∨
      ∃ us a b u, .replace a b u ∈ past ∧ t.getD "" = String.join us.reverse ++ u.getD "" ∧
        (us ++ insertions first rest).Sublist (insertions first past)

/-- The texts of edits that are gone through one after the other. -/
def Orderly (past : List Edit) : List Edit → Prop
  | [] => True
  | e :: es => Told past es e ∧ Orderly past es

theorem Told.imp {past' rest rest' : List Edit} (h : Told past rest e) (hp : past.Sublist past')
    (hrest : ∀ us, (us ++ insertions e.index rest).Sublist (insertions e.index past) →
      (us ++ insertions e.index rest').Sublist (insertions e.index past')) :
    Told past' rest' e := by
  cases e with
  | insert i t =>
    obtain ⟨us, ht, hus⟩ := h
    exact ⟨us, ht, hrest us hus⟩
  | replace a b t =>
    refine h.imp (fun hb => hb.mono hp (Int.le_refl _) (Int.le_refl _)) ?_
    rintro ⟨us, c, d, u, hmem, ht, hus⟩
    exact ⟨us, c, d, u, hp.subset hmem, ht, hrest us hus⟩

theorem Orderly.mono {past' es' : List Edit} (h : Orderly past es) (hp : past.Sublist past')
    (hes : es'.Sublist es) : Orderly past' es' := by
  induction hes with
  | slnil => trivial
  | cons e _ ih => exact ih h.2
  | cons_cons e hes ih =>
    refine ⟨h.1.imp hp fun us hus => ?_, ih h.2⟩
    exact (((List.Sublist.refl us).append (hes.filterMap _)).trans hus).trans (hp.filterMap _)

theorem Orderly.append {past' : List Edit} (h : Orderly past es) (he : Told past' [] e)
    (hp : past.Sublist past')
    (hi : ∀ i, (insertions i past ++ insertions i [e]).Sublist (insertions i past')) :
    Orderly past' (es ++ [e]) := by
  induction es with
  | nil => exact ⟨he, trivial⟩
  | cons f es ih =>
    refine ⟨h.1.imp hp fun us hus => ?_, ih h.2⟩
    have hlast := (hus.append (List.Sublist.refl _)).trans (hi f.index)
    rwa [append_assoc, ← insertions_append] at hlast

/-- The edits that are left of those recorded so far, while the replacements are gone through. -/
structure Traced (past before : List Edit) : Prop where
  proper : ∀ e ∈ before, e.Proper
  inserted : ∀ i, (insertions i before).Sublist (insertions i past)
  orderly : Orderly past before
  deleted : ∀ a b, .replace a b none ∈ before → ∀ i, a ≤ i → i ≤ b → Deletion past i a b
  dug : before.Pairwise (Dug past)
  tidy : before.Pairwise fun e f => f.replaces = true → Tidy past e f

theorem Traced.spread (h : Traced past before) : Spread before := by
  refine ⟨h.proper, h.tidy.imp fun {e f} hef he hf => ?_⟩
  cases e with
  | insert j u => cases he
  | replace a b u => exact (hef hf).resolve_right id

theorem Traced.writes (h : Traced past before) (hp : ∀ e ∈ past, e.Writes) :
    ∀ e ∈ before, e.Writes := by
  intro e he
  rcases e with ⟨j, u⟩ | ⟨a, b, _ | u⟩
  · trivial
  · obtain ⟨c, d, hcd, -⟩ := h.deleted a b he a (Int.le_refl a) (h.proper _ he)
    exact hp (.replace c d none) hcd
  · trivial

/-- Fewer edits can be traced to a longer past. -/
theorem Traced.mono {past' before' : List Edit} (h : Traced past before)
    (hp : past.Sublist past') (hb : before'.Sublist before) : Traced past' before' where
  proper e he := h.proper e (hb.subset he)
  inserted i := ((hb.filterMap _).trans (h.inserted i)).trans (hp.filterMap _)
  orderly := h.orderly.mono hp hb
  deleted a b hab i ha hb' := by
    obtain ⟨c, d, hmem, hcd⟩ := h.deleted a b (hb.subset hab) i ha hb'
    exact ⟨c, d, hp.subset hmem, hcd⟩
  dug := by
    refine (h.dug.sublist hb).imp fun {e f} hef => ?_
    rcases e with ⟨j, u⟩ | ⟨a, b, _ | u⟩ <;> rcases f with ⟨k, v⟩ | ⟨c, d, v⟩
    case replace.none.insert =>
      intro h₁ h₂
      obtain ⟨a', b', t, hsub, hin⟩ := hef h₁ h₂
      exact ⟨a', b', t, hsub.trans hp, hin⟩
    all_goals trivial
  tidy := (h.tidy.sublist hb).imp fun {e f} hef hf => (hef hf).mono hp

/-- An insertion is traced to itself. -/
theorem Traced.append_insert (h : Traced past before) (i : Int) (t : String) :
    Traced (past ++ [.insert i t]) (before ++ [.insert i t]) := by
  have h' := h.mono (sublist_append_left past [.insert i t]) (List.Sublist.refl _)
  refine ⟨fun e he => ?_, fun j => ?_, ?_, fun a b hab => ?_, ?_, ?_⟩
  · rcases mem_append.mp he with he | he
    · exact h.proper e he
    · cases mem_singleton.mp he
      trivial
  · rw [insertions_append, insertions_append]
    exact (h.inserted j).append (List.Sublist.refl _)
  · refine h.orderly.append ⟨[t], by simp, by simp⟩ (sublist_append_left _ _) fun j => ?_
    exact (insertions_append j past _).symm ▸ List.Sublist.refl _
  · exact h'.deleted a b ((mem_append.mp hab).resolve_right (by simp))
  · refine pairwise_concat.mpr ⟨h'.dug, fun e he => ?_⟩
    rcases e with ⟨j, u⟩ | ⟨a, b, _ | u⟩
    · trivial
    · intro ha hb
      -- An insertion into a deleted range comes behind a deletion of its token.
      obtain ⟨c, d, hmem, hin, hcd⟩ := h.deleted a b he i ha hb
      exact ⟨c, d, t, (singleton_sublist.mpr hmem).append (List.Sublist.refl _), hin, hcd⟩
    · trivial
  · exact pairwise_concat.mpr ⟨h'.tidy, fun e _ hr => by cases hr⟩

section Step

variable {before : Edits} (h : Traced past (present before))

include h

/-- A token in what becomes of a range, outside of the range, was deleted by a deletion that is now
part of it. -/
theorem mem_widened (hout : ¬ (first ≤ i ∧ i ≤ last))
    (hc : (replaced first last text before).2.1.1 ≤ i)
    (hd : i ≤ (replaced first last text before).2.1.2) :
    withInsertions first text before = none ∧ ∃ a b, .replace a b none ∈ present before ∧
      (a ≤ i ∧ i ≤ b) ∧ (replaced first last text before).2.1.1 ≤ a ∧
        b ≤ (replaced first last text before).2.1.2 := by
  have hsub := outside_sublist first last before
  refine (takeReplacements_range (P := fun c d => c ≤ i ∧ i ≤ d →
    withInsertions first text before = none ∧ ∃ a b, .replace a b none ∈ present before ∧
      (a ≤ i ∧ i ≤ b) ∧ c ≤ a ∧ b ≤ d) (fun hin => absurd hin hout) ?_) ⟨hc, hd⟩
  intro f l a b hmem _ hmeets ht hab hin
  have hfl : f ≤ l := h.proper _ (hsub.subset hmem)
  -- the two ranges meet, so the token is in one of them
  by_cases hi : f ≤ i ∧ i ≤ l
  · exact ⟨ht, f, l, hsub.subset hmem, hi, by omega, by omega⟩
  · obtain ⟨-, c, d, hcd, hci, hca, hdb⟩ := hab (by omega)
    exact ⟨ht, c, d, hcd, hci, by omega, by omega⟩

/-- An insertion that is left in a merged range stands between two deletions. -/
theorem between_replacement (hi : .insert i t ∈ present (before.map (outside first last)))
    (hc : (replaced first last text before).2.1.1 ≤ i)
    (hd : i ≤ (replaced first last text before).2.1.2) :
    Between (past ++ [.replace first last text]) i (replaced first last text before).2.1.1
      (replaced first last text before).2.1.2 := by
  have hsub := outside_sublist first last before
  have hgrows : (replaced first last text before).2.1.1 ≤ first ∧
      last ≤ (replaced first last text before).2.1.2 := takeReplacements_grows
  have hout : ¬ (first ≤ i ∧ i ≤ last) := by
    have := mem_outside hi
    omega
  obtain ⟨hnone, a, b, hab, hin, hca, hbd⟩ := mem_widened h hout hc hd
  obtain rfl := text_of_withInsertions hnone
  -- the deletion stands before the insertion or behind it
  rcases pairwise_or (h.dug.and h.tidy) hab (hsub.subset hi) nofun with ⟨hdug, -⟩ | ⟨-, htidy⟩
  · obtain ⟨c, d, v, hcd, hci, hac, hdb⟩ := hdug hin.1 hin.2
    exact ⟨c, d, first, last, v, hcd.append (List.Sublist.refl _), hci, hout, by omega, hgrows⟩
  · have hbetween := (htidy rfl).resolve_left fun hfree => hfree i rfl hin
    exact Between.mono hbetween (sublist_append_left _ _) hca hbd

/-- A replacement takes the insertions at its first token over in reverse. If it is merged with
others, there were none. -/
theorem told_replacement :
    Told (past ++ [.replace first last text]) [] (replacement first last text before) := by
  have hmem : .replace first last text ∈ past ++ [.replace first last text] := by simp
  cases hw : withInsertions first text before with
  | none =>
    obtain rfl := text_of_withInsertions hw
    exact .inr ⟨[], first, last, none, hmem, by rw [hw]; simp, by simp⟩
  | some s =>
    have hstill : (replaced first last text before).2.1 = (first, last) :=
      takeReplacements_still fun hnone => by rw [hw] at hnone; cases hnone
    refine .inr ⟨_, first, last, text, hmem, getD_withInsertions before, ?_⟩
    rw [hstill]
    simpa using h.inserted first

/-- A replacement is traced to itself and to what it took over. -/
theorem Traced.append_replace (hle : first ≤ last)
    (hk : (replaced first last text before).2.2 = none) :
    Traced (past ++ [.replace first last text])
      (present ((replaced first last text before).1 ++
        [some (replacement first last text before)])) := by
  have hout := outside_sublist first last before
  have hsub : (present (replaced first last text before).1).Sublist
      (present (before.map (outside first last))) := takeReplacements_sublist
  have h' := h.mono (sublist_append_left past [.replace first last text]) (hsub.trans hout)
  have hgrows : (replaced first last text before).2.1.1 ≤ first ∧
      last ≤ (replaced first last text before).2.1.2 := takeReplacements_grows
  rw [present_append]
  refine ⟨fun e he => ?_, fun j => ?_, ?_, fun a b hab i ha hb => ?_, ?_, ?_⟩
  · rcases mem_append.mp he with he | he
    · exact h'.proper e he
    · cases mem_singleton.mp he
      change _ ≤ _
      omega
  · simpa [replacement] using h'.inserted j
  · refine h'.orderly.append (told_replacement h) (List.Sublist.refl _) fun j => ?_
    simp [replacement]
  · rcases mem_append.mp hab with hab | hab
    · exact h'.deleted a b hab i ha hb
    · have hnew := Edit.replace.inj (mem_singleton.mp hab)
      obtain ⟨rfl, rfl, hnone⟩ := hnew
      -- A range without a text is a deletion that took nothing over.
      obtain rfl := text_of_withInsertions hnone.symm
      by_cases hin : first ≤ i ∧ i ≤ last
      · exact ⟨first, last, by simp, hin, hgrows⟩
      · obtain ⟨-, c, d, hcd, hci, hca, hdb⟩ := mem_widened h hin ha hb
        obtain ⟨a', b', hmem, hi, hab'⟩ := h.deleted c d hcd i hci.1 hci.2
        exact ⟨a', b', mem_append_left _ hmem, hi, by omega, by omega⟩
  · refine pairwise_concat.mpr ⟨h'.dug, fun e _ => ?_⟩
    rcases e with ⟨j, u⟩ | ⟨a, b, _ | u⟩ <;> trivial
  · refine pairwise_concat.mpr ⟨h'.tidy, fun e he _ => ?_⟩
    cases e with
    | replace a b u => exact .inl (replace_free_replacement h.spread hle hk he)
    | insert j u =>
      -- An insertion in the merged range stands there because it came between two deletions.
      by_cases hin : (replaced first last text before).2.1.1 ≤ j ∧
          j ≤ (replaced first last text before).2.1.2
      · exact .inr (between_replacement h (hsub.subset he) hin.1 hin.2)
      · refine .inl ?_
        rintro k rfl
        exact hin

end Step

/-- The pass over the replacements leaves edits that can be traced. -/
theorem traced_reduceReplacements {before es r : Edits} (h : Traced past (present before))
    (hp : ∀ e ∈ present es, e.Proper) (hr : reduceReplacements before es = (r, none)) :
    Traced (past ++ present es) (present r) := by
  induction es generalizing before past with
  | nil =>
    cases hr
    simpa using h
  | cons e es ih =>
    rcases e with _ | ⟨i, t⟩ | ⟨f, l, t⟩
    · exact @ih past (before ++ [none]) (by simpa using h) hp hr
    · have hl : present (before ++ [some (.insert i t)]) = present before ++ [.insert i t] := by
        simp
      have hrest := @ih (past ++ [.insert i t]) (before ++ [some (.insert i t)])
        (hl ▸ h.append_insert i t) (forall_mem_cons.mp hp).2 hr
      simpa using hrest
    · obtain ⟨hle, hp⟩ := forall_mem_cons.mp hp
      rw [reduceReplacements_replace] at hr
      -- Without a conflict the replacement is left, and the pass goes on.
      cases hk : (replaced f l t before).2.2 with
      | some k =>
        rw [hk] at hr
        cases hr
      | none =>
        rw [hk] at hr
        simpa using ih (h.append_replace hle hk) hp hr

/-! ## The pass over the insertions -/

/-- What the second pass keeps: the edits gone through are tidy and told, and so are those that come
after them once they are reached. -/
structure Passed (past p q : List Edit) : Prop where
  proper : ∀ e ∈ p ++ q, e.Proper
  behind : (p ++ q).Pairwise fun e f => f.replaces = true → Tidy past e f
  tidy : p.Pairwise (Tidy past)
  told : ∀ e ∈ p, Told past q e
  rest : Orderly past q
  inserted : ∀ i, (insertions i q).Sublist (insertions i past)
  written : (∀ e ∈ past, e.Writes) → ∀ e ∈ p ++ q, e.Writes

theorem length_insertions_of_tidy (h : p.Pairwise (Tidy past)) (i : Int) :
    (insertions i p).length ≤ 1 := by
  refine length_insertions_of_ne (h.imp fun {e f} hef he hf hindex => ?_) i
  cases e with
  | replace a b u => cases he
  | insert j u =>
    cases f with
    | replace a b v => cases hf
    | insert k v => exact (hef.resolve_right id) j rfl hindex.symm

/-- An insertion at the first token of a range that stands beside it was recorded between
deletions. -/
theorem between_of_tidy (h : p.Pairwise (Tidy past)) (hi : .insert i u ∈ p)
    (hr : .replace i last text ∈ p) (hle : i ≤ last) : Between past i i last := by
  rcases pairwise_or h hi hr nofun with (hfree | hbetween) | (hfree | hno)
  · exact absurd ⟨Int.le_refl i, hle⟩ (hfree i rfl)
  · exact hbetween
  · exact absurd rfl (hfree i ⟨Int.le_refl i, hle⟩)
  · cases hno

theorem exists_of_insertions (h : u ∈ insertions i p) : .insert i u ∈ p := by
  obtain ⟨e, he, hu⟩ := mem_filterMap.mp h
  cases e with
  | replace a b v => cases hu
  | insert j v =>
    simp only [Edit.insertion?] at hu
    split at hu
    · next hj =>
      cases hu
      exact hj ▸ he
    · cases hu

/-- Insertions are joined in their order. -/
theorem Passed.told_joined (h : Passed past p (.insert i t :: q)) :
    Told past q (.insert i (joined i t p)) := by
  have hone := length_insertions_of_tidy h.tidy i
  match hu : insertions i p, hone with
  | [], _ =>
    refine ⟨[t], by simp [joined, hu], ?_⟩
    simpa using h.inserted i
  | [u], _ =>
    obtain ⟨us, rfl, hus⟩ := h.told (.insert i u) (exists_of_insertions (by simp [hu]))
    refine ⟨us ++ [t], by simp [joined, hu], ?_⟩
    simpa using hus

/-- What goes in front of a range are its insertions. -/
theorem Passed.told_led (h : Passed past p (.insert i t :: q)) (he : e ∈ without i p) :
    Told past q (e.led i (joined i t p)) := by
  have hmem := (without_sublist i p).subset he
  have hkept := (mem_filter.mp he).2
  have htold := h.told e hmem
  -- what is inserted elsewhere does not matter for the edit
  have hskip : e.index ≠ i → Told past q e := fun hj =>
    htold.imp (List.Sublist.refl _) fun us hus => by simpa [Ne.symm hj] using hus
  cases e with
  | insert j u => exact hskip (by simpa [Edit.replaces, Edit.index] using hkept)
  | replace a b u =>
    by_cases ha : a = i
    · subst ha
      have hle : a ≤ b := h.proper _ (mem_append_left _ hmem)
      rw [Edit.led, if_pos rfl]
      rcases htold with hb | ⟨us, c, d, v, hv, hu, hus⟩
      · exact .inl hb
      · cases hins : insertions a p with
        | cons w ws =>
          exact .inl (between_of_tidy h.tidy
            (exists_of_insertions (u := w) (by simp [hins])) hmem hle)
        | nil =>
          refine .inr ⟨us ++ [t], c, d, v, hv, ?_, by simpa using hus⟩
          simp [joined, hins, hu, String.append_assoc]
    · rw [Edit.led, if_neg ha]
      exact hskip ha

theorem tidy_met (h : p.Pairwise (Tidy past)) (hmiss : ∀ e ∈ p, ¬ e.Encloses i) :
    (met i t p).Pairwise (Tidy past) := by
  have hled : ((without i p).map (Edit.led i (joined i t p))).Pairwise (Tidy past) :=
    pairwise_map.mpr ((h.sublist (without_sublist i p)).imp fun {e f} hef =>
      (tidy_congr (shape_led ..) (shape_led ..)).mpr hef)
  refine pairwise_append.mpr ⟨hled, ?_, fun e he f hf => .inl ?_⟩
  · unfold settled
    split <;> simp
  · unfold settled at hf
    split at hf
    · cases hf
    · next hr =>
      cases mem_singleton.mp hf
      obtain ⟨e, hmem, rfl⟩ := mem_map.mp he
      -- The new insertion is at no token that an earlier edit has to do with.
      have hne := index_ne_of_without (by simpa using hr) e hmem
      have hout := hmiss e ((without_sublist i p).subset hmem)
      rintro k hk rfl
      rcases e with ⟨j, u⟩ | ⟨a, b, u⟩
      · exact hne hk
      · have hne : a ≠ i := hne
        have hout : ¬ (a < i ∧ i ≤ b) := hout
        rw [Edit.led, if_neg hne] at hk
        have hk : a ≤ i ∧ i ≤ b := hk
        omega

/-- One step of the pass over the insertions. -/
theorem Passed.insert (h : Passed past p (.insert i t :: q)) (hmiss : ∀ e ∈ p, ¬ e.Encloses i) :
    Passed past (met i t p) q := by
  have hsub := sublist_settled i (joined i t p) t p q
  refine ⟨forall_of_sublist proper_congr hsub h.proper, ?_, tidy_met h.tidy hmiss, fun e he => ?_,
    h.rest.2, fun j => ?_, fun hpast e he => ?_⟩
  · refine pairwise_of_sublist (fun he hf => ?_) hsub h.behind
    rw [replaces_congr hf, tidy_congr he hf]
  · rcases mem_append.mp he with he | he
    · obtain ⟨e, hmem, rfl⟩ := mem_map.mp he
      exact h.told_led hmem
    · unfold settled at he
      split at he
      · cases he
      · cases mem_singleton.mp he
        exact h.told_joined
  · -- What is still to come has one insertion less.
    have hall := h.inserted j
    rw [insertions_insert] at hall
    split at hall
    · exact (sublist_cons_self _ _).trans hall
    · exact hall
  · have hall := h.written hpast
    rcases mem_append.mp he with he | he
    · rcases mem_append.mp he with he | he
      · obtain ⟨e, hmem, rfl⟩ := mem_map.mp he
        exact Edit.writes_led (hall e (mem_append_left _ ((without_sublist i p).subset hmem)))
      · unfold settled at he
        split at he
        · cases he
        · cases mem_singleton.mp he
          trivial
    · exact hall e (mem_append_right _ (mem_cons_of_mem _ he))

theorem Passed.replace (h : Passed past p (.replace first last text :: q)) :
    Passed past (p ++ [.replace first last text]) q := by
  refine ⟨by simpa using h.proper, by simpa using h.behind, ?_, fun e he => ?_, h.rest.2,
    h.inserted, by simpa using h.written⟩
  · refine pairwise_concat.mpr ⟨h.tidy, fun e he => ?_⟩
    exact (pairwise_append.mp h.behind).2.2 e he _ mem_cons_self rfl
  · rcases mem_append.mp he with he | he
    · exact h.told e he
    · cases mem_singleton.mp he
      exact h.rest.1

theorem passed_reduceInsertions {before es r : Edits}
    (h : Passed past (present before) (present es))
    (hr : reduceInsertions before es = (r, none)) : Passed past (present r) [] := by
  induction es generalizing before with
  | nil =>
    cases hr
    exact h
  | cons e es ih =>
    rcases e with _ | ⟨i, t⟩ | ⟨f, l, t⟩
    · exact @ih (before ++ [none]) (by simpa using h) hr
    · -- An insertion inside of a range would have ended the pass.
      by_cases hin : ∃ e ∈ present before, e.Encloses i
      · have hstop := @reduceInsertions_encloses i t before es hin
        rw [hr] at hstop
        cases hstop
      · have hmiss : ∀ e ∈ present before, ¬ e.Encloses i := fun e he hi => hin ⟨e, he, hi⟩
        obtain ⟨b, hb, hstep⟩ := @reduceInsertions_met i t before es hmiss
        exact @ih b (hb ▸ Passed.insert h hmiss) (hstep ▸ hr)
    · refine @ih (before ++ [some (.replace f l t)]) ?_ hr
      rw [present_append]
      exact Passed.replace h

/-- A whole reduction. -/
theorem passed_reduce {es r : Edits} (hp : ∀ e ∈ present es, e.Proper)
    (hr : es.reduce = (r, none)) : Passed (present es) (present r) [] := by
  unfold reduce at hr
  cases hpass : reduceReplacements [] es with
  | mk r₁ k =>
    rw [hpass] at hr
    cases k with
    | some k => cases hr
    | none =>
      have hnil : Traced [] (present []) := ⟨by simp, by simp, trivial, by simp, by simp, by simp⟩
      have htraced : Traced (present es) (present r₁) := by
        simpa using traced_reduceReplacements hnil hp hpass
      refine @passed_reduceInsertions _ [] _ _ ?_ hr
      exact ⟨htraced.proper, htraced.tidy, by simp, by simp, htraced.orderly, htraced.inserted,
        htraced.writes⟩

/-- Without insertions between deletions one edit is left for each token. -/
theorem oneEach_of_reduce {es r : Edits} (hp : ∀ e ∈ present es, e.Proper)
    (hr : es.reduce = (r, none)) (hnone : ∀ i first last, ¬ Between (present es) i first last) :
    oneEach (present r) = true := by
  have hpassed := passed_reduce hp hr
  have hproper := fun e he => hpassed.proper e (mem_append_left _ he)
  rw [oneEach_iff]
  refine hpassed.tidy.imp_of_mem fun {e f} he hf hef hindex => ?_
  rcases hef with hfree | hopen
  · exact hfree e.index (Edit.touches_index (hproper e he))
      (hindex ▸ Edit.touches_index (hproper f hf))
  · rcases e with ⟨j, u⟩ | ⟨a, b, u⟩ <;> rcases f with ⟨k, v⟩ | ⟨c, d, v⟩
    · cases hopen
    · exact hnone _ _ _ hopen
    · cases hopen
    · cases hopen

/-- Edits that are left have no token in common, unless something was inserted between deletions
that were merged. Without such an insertion at most one edit stands at each token. -/
theorem reduce_leaves_free {es r : Edits} (hp : ∀ e ∈ present es, e.Proper)
    (hr : es.reduce = (r, none)) :
    (present r).Pairwise (fun e f => e.Free f ∨ Reopened (present es) e f) ∧
      ((∀ i first last, ¬ Between (present es) i first last) → oneEach (present r) = true) :=
  ⟨(passed_reduce hp hr).tidy, oneEach_of_reduce hp hr⟩

theorem reduce_leaves_free_letters :
    let es : List Edit := [.replace 2 4 none, .insert 4 "x", .replace 3 6 none, .insert 1 "y",
      .replace 0 0 none, .insert 0 "z"]
    reduce (es.map some) = ([none, none, some (.replace 2 6 none), some (.insert 1 "y"),
      some (.replace 0 0 (some "z")), none], none) ∧
    [Edit.replace 2 6 none, .insert 1 "y", .replace 0 0 (some "z")].Pairwise
      (fun e f => e.Free f ∨ Reopened es e f) := by
  intro es
  have hr : reduce (es.map some) = ([none, none, some (.replace 2 6 none), some (.insert 1 "y"),
      some (.replace 0 0 (some "z")), none], none) := by decide
  refine ⟨hr, ?_⟩
  have hproper : ∀ e ∈ present (es.map some), e.Proper := by simp [es, Edit.Proper]
  simpa using (reduce_leaves_free hproper hr).1

/-- What was inserted between two deletions stays at a token of the range that they become, here at
its first one and in a second case inside of it. -/
theorem insertion_in_merged_deletions :
    reduce ([.replace 0 1 none, .insert 0 "x", .replace 1 2 none].map some) =
      ([none, some (.insert 0 "x"), some (.replace 0 2 none)], none) ∧
    (readAll ([.replace 0 1 none, .insert 0 "x", .replace 1 2 none].map some) sumTokens).1 =
      .error .doubled ∧
    reduce ([.replace 1 2 none, .insert 2 "x", .replace 0 1 none].map some) =
      ([none, some (.insert 2 "x"), some (.replace 0 2 none)], none) := by
  refine ⟨by decide, rfl, by decide⟩

/-! ## The order of insertions in a text -/

/-- The text of a token or an edit. -/
def pieceText : Token ⊕ Edit → String
  | .inl t => if t.kind = .endOfFile then "" else t.text
  | .inr (.insert _ t) => t
  | .inr (.replace _ _ t) => t.getD ""

def edits (ps : List (Token ⊕ Edit)) : List Edit := ps.filterMap Sum.getRight?

variable {tokens : Array Token} {stop : Int}

/-- The text is made of tokens and of edits, each of them used once. -/
def Pieced (tokens : Array Token) (es : List Edit) (text : String) (left : List Edit) : Prop :=
  ∃ ps : List (Token ⊕ Edit), text = String.join (ps.map pieceText) ∧
    (∀ t, .inl t ∈ ps → t ∈ tokens) ∧ (edits ps ++ left).Perm es

theorem Pieced.append {es left left' : List Edit} {s s' : String} (h : Pieced tokens es s left)
    (h' : Pieced tokens left s' left') : Pieced tokens es (s ++ s') left' := by
  obtain ⟨ps, rfl, htokens, hperm⟩ := h
  obtain ⟨ps', rfl, htokens', hperm'⟩ := h'
  refine ⟨ps ++ ps', by simp, fun t ht => ?_, ?_⟩
  · exact (mem_append.mp ht).elim (htokens t) (htokens' t)
  · rw [edits, filterMap_append, append_assoc]
    exact (hperm'.append_left _).trans hperm

theorem pieced_edit {e : Edit} {left : List Edit} (h : (e :: left).Perm es) :
    Pieced tokens es (pieceText (.inr e)) left :=
  ⟨[.inr e], by simp, by simp, h⟩

theorem pieced_token (i : Int) : Pieced tokens es (tokenText tokens i) es := by
  unfold tokenText
  cases ht : tokens[i.toNat]? with
  | none => exact ⟨[], rfl, by simp, .refl _⟩
  | some t =>
    refine ⟨[.inl t], by simp [pieceText], fun t' ht' => ?_, .refl _⟩
    obtain rfl : t' = t := by simpa using ht'
    exact Array.mem_of_getElem? ht

theorem perm_of_takeAt {left : List Edit} (h : takeAt i es = some (e, left)) :
    (e :: left).Perm es := by
  induction es generalizing left with
  | nil => cases h
  | cons f es ih =>
    rw [takeAt] at h
    split at h
    · cases h
      exact .refl _
    · obtain ⟨⟨g, rest⟩, hrest, heq⟩ := Option.map_eq_some_iff.mp h
      cases heq
      exact (Perm.swap f g rest).trans ((ih hrest).cons f)

/-- The walk writes tokens and edits. -/
theorem pieced_walk (fuel : Nat) (i : Int) (es : List Edit) :
    Pieced tokens es (walk tokens stop fuel i es).1 (walk tokens stop fuel i es).2 := by
  induction fuel generalizing i es with
  | zero => exact ⟨[], rfl, by simp, .refl _⟩
  | succ fuel ih =>
    rw [walk]
    split
    · split
      · next j t left htake =>
        exact ((pieced_edit (perm_of_takeAt htake)).append (pieced_token i)).append (ih _ _)
      · next f l t left htake =>
        exact (pieced_edit (perm_of_takeAt htake)).append (ih _ _)
      · exact (pieced_token i).append (ih _ _)
    · exact ⟨[], rfl, by simp, .refl _⟩

theorem pieced_trailing {size : Nat} {s : String} (h : trailing size es = .ok s) :
    ∃ left, Pieced tokens es s left := by
  induction es generalizing s with
  | nil =>
    cases h
    exact ⟨[], [], rfl, by simp, .refl _⟩
  | cons e es ih =>
    by_cases hend : (size : Int) - 1 ≤ e.index
    · -- the edit is written in front of the others
      have hlead : (trailing size es).map (pieceText (.inr e) ++ ·) = .ok s := by
        rcases e with ⟨j, t⟩ | ⟨a, b, _ | t⟩ <;> simp only [trailing, if_pos hend] at h
        · exact h
        · cases h
        · exact h
      cases hs : trailing size es with
      | error k =>
        rw [hs] at hlead
        cases hlead
      | ok s' =>
        rw [hs] at hlead
        cases hlead
        obtain ⟨left, hleft⟩ := ih hs
        exact ⟨left, (pieced_edit (.refl _)).append hleft⟩
    · have hskip : trailing size es = .ok s := by
        rcases e with ⟨j, t⟩ | ⟨a, b, _ | t⟩ <;> simpa only [trailing, if_neg hend] using h
      obtain ⟨left, ps, htext, htokens, hperm⟩ := ih hskip
      exact ⟨e :: left, ps, htext, htokens, perm_middle.trans (hperm.cons e)⟩

theorem pieced_reducedText {start : Int} {s : String}
    (h : reducedText tokens start stop es = .ok s) :
    Distinct es ∧ ∃ left, Pieced tokens es s left := by
  unfold reducedText at h
  cases hone : oneEach es with
  | false =>
    rw [hone] at h
    cases h
  | true =>
    refine ⟨oneEach_iff.mp hone, ?_⟩
    have hwalk := @pieced_walk tokens stop tokens.size start es
    simp only [hone, if_true] at h
    generalize walk tokens stop tokens.size start es = w at hwalk h
    obtain ⟨text, left⟩ := w
    simp only at h hwalk
    -- Only a reading up to the last token adds what stands behind it.
    by_cases hend : stop = (tokens.size : Int) - 1
    · simp only [if_pos hend] at h
      cases ht : trailing tokens.size left with
      | error k =>
        rw [ht] at h
        cases h
      | ok s₂ =>
        rw [ht] at h
        cases h
        obtain ⟨left', hleft⟩ := @pieced_trailing left tokens _ _ ht
        exact ⟨left', hwalk.append hleft⟩
    · simp only [if_neg hend] at h
      cases h
      exact ⟨left, hwalk⟩

/-- A text that is read consists of tokens and of one edit at most for each token. The texts
inserted at a token are in their order where no range begins there, and in reverse in front of a
range. -/
theorem readAll_orders_insertions {es : Edits} {s : String} (hp : ∀ e ∈ present es, e.Proper)
    (h : (es.readAll tokens).1 = .ok s) :
    ∃ ps : List (Token ⊕ Edit), s = String.join (ps.map pieceText) ∧
      (∀ t, .inl t ∈ ps → t ∈ tokens) ∧ Distinct (edits ps) ∧
        ∀ e ∈ edits ps, Told (present es) [] e := by
  rw [readAll, read] at h
  split at h
  · -- without edits all pieces are tokens
    cases h
    unfold plainText
    split
    · exact ⟨[], rfl, by simp, List.Pairwise.nil, by simp [edits]⟩
    · generalize hts : (tokens.toList.take _).drop _ = ts
      have hmem : ∀ t ∈ ts, t ∈ tokens := fun t ht =>
        Array.mem_toList_iff.mp (mem_of_mem_take (mem_of_mem_drop (hts ▸ ht)))
      have hedits : ∀ ts : List Token, edits (ts.map .inl) = [] := fun ts =>
        filterMap_eq_nil_iff.mpr fun p hp => by
          obtain ⟨t, -, rfl⟩ := mem_map.mp hp
          rfl
      refine ⟨(ts.takeWhile (·.kind ≠ .endOfFile)).map .inl, ?_, fun t ht => ?_, ?_, ?_⟩
      · rw [map_map]
        refine congrArg String.join (map_congr_left fun t ht => ?_)
        have hkind := mem_takeWhile_imp ht
        simp_all [pieceText]
      · obtain ⟨t', ht', heq⟩ := mem_map.mp ht
        cases heq
        exact hmem t ((takeWhile_sublist _).subset ht')
      · rw [hedits]
        exact List.Pairwise.nil
      · simp [hedits]
  · cases hr : es.reduce with
    | mk r k =>
      rw [hr] at h
      cases k with
      | some k => cases h
      | none =>
        have hpassed := passed_reduce hp hr
        obtain ⟨hdistinct, left, ps, hs, htokens, hperm⟩ := pieced_reducedText h
        have hall : Distinct (edits ps ++ left) :=
          (hperm.pairwise_iff fun {_ _} hne => Ne.symm hne).mpr hdistinct
        refine ⟨ps, hs, htokens, (pairwise_append.mp hall).1, fun e he => hpassed.told e ?_⟩
        exact hperm.subset (mem_append_left _ he)

theorem readAll_orders_insertions_sum :
    let es : List Edit := [.insert 1 "u", .insert 1 "v", .replace 2 2 (some "R"), .insert 2 "x"]
    (readAll (es.map some) sumTokens).1 = .ok "auv+xR" ∧
    ∃ ps : List (Token ⊕ Edit), "auv+xR" = String.join (ps.map pieceText) ∧
      (∀ t, .inl t ∈ ps → t ∈ sumTokens) ∧ Distinct (edits ps) ∧
        ∀ e ∈ edits ps, Told es [] e := by
  intro es
  have hr : (readAll (es.map some) sumTokens).1 = .ok "auv+xR" := rfl
  refine ⟨hr, ?_⟩
  have hproper : ∀ e ∈ present (es.map some), e.Proper := by simp [es, Edit.Proper]
  simpa using readAll_orders_insertions hproper hr

/-- A replacement puts the insertions at its first token in front of its text in reverse, whether it
is recorded behind them or before them. -/
theorem replacement_reverses_insertions :
    (readAll ([.insert 1 "u", .insert 1 "v", .replace 1 1 (some "R")].map some) sumTokens).1 =
      .ok "avuRb" ∧
    (readAll ([.replace 1 1 (some "R"), .insert 1 "u", .insert 1 "v"].map some) sumTokens).1 =
      .ok "avuRb" :=
  ⟨rfl, rfl⟩

end Edits

end Resumable
