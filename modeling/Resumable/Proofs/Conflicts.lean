import Resumable.Proofs.Remaining

/-!
# Edits that are in conflict

A reading fails if two edits do not go together. An edit may be dropped by a later one before it
meets the edit that it is in conflict with; but then the later one is in conflict in its place, or
was recorded behind both. So where no range is deleted, the conflicts can be read off what was
recorded: a replacement overlaps an earlier one without covering it, or something is inserted into
an earlier range that no replacement recorded behind it covers.

* `Edits.surviving`: the edits that no later one drops.
* `Edits.surviving_reduceReplacements`: they are what the first pass leaves, unless ranges cross.
* `Edits.reduceInsertions_eq_none`: the second pass fails if something is inserted into a range.
* `Edits.readAll_conflicts`: when a reading fails.
-/

namespace Resumable

open List

namespace Edit

/-- Whether a later replacement overlaps an earlier one and does not cover it. -/
def Crosses : Edit → Edit → Prop
  | replace f l _, replace first last _ => ¬ (first ≤ f ∧ l ≤ last) ∧ ¬ (l < first ∨ last < f)
  | _, _ => False

/-- Whether an edit is an insertion at a token that a range encloses. -/
def Holds (e f : Edit) : Prop := f.replaces = false ∧ e.Encloses f.index

/-- Whether the edit drops an earlier one. -/
def sweeps : Edit → Edit → Bool
  | replace first last _, insert i _ => first ≤ i ∧ i ≤ last
  | replace first last _, replace f l _ => first ≤ f ∧ l ≤ last
  | insert .., _ => false

@[simp] theorem sweeps_insert (first last i : Int) (u : Option String) (t : String) :
    (replace first last u).sweeps (insert i t) = decide (first ≤ i ∧ i ≤ last) := rfl

@[simp] theorem sweeps_replace (first last f l : Int) (t u : Option String) :
    (replace first last u).sweeps (replace f l t) = decide (first ≤ f ∧ l ≤ last) := rfl

@[simp] theorem insert_sweeps (i : Int) (t : String) (e : Edit) :
    (insert i t).sweeps e = false := by
  cases e <;> rfl

theorem crosses_congr {e e' f : Edit} (he : e.shape = e'.shape) :
    ¬ e.Crosses f ↔ ¬ e'.Crosses f := by
  cases e <;> cases e' <;> cases he <;> cases f <;> exact Iff.rfl

theorem holds_congr {e e' f f' : Edit} (he : e.shape = e'.shape) (hf : f.shape = f'.shape) :
    e.Holds f ↔ e'.Holds f' := by
  cases e <;> cases e' <;> cases he <;> cases f <;> cases f' <;> cases hf <;> exact Iff.rfl

end Edit

namespace Edits

variable {past es : List Edit} {e f : Edit} {i first last : Int} {t s : String}
  {text : Option String}

/-- Something was inserted at a token behind a replacement of a range, and behind the insertion no
replacement covers the range. -/
def Stuck (es : List Edit) (i first last : Int) : Prop :=
  ∃ x t y, es = x ++ .insert i t :: y ∧ (∃ u, .replace first last u ∈ x) ∧
    ∀ a b u, .replace a b u ∈ y → ¬ (a ≤ first ∧ last ≤ b)

/-! ## Edits that no later one drops -/

/-- The edits that no later one drops. -/
def surviving : List Edit → List Edit
  | [] => []
  | e :: es => if es.any (·.sweeps e) then surviving es else e :: surviving es

theorem surviving_append (es es' : List Edit) : surviving (es ++ es') =
    (surviving es).filter (fun e => !es'.any (·.sweeps e)) ++ surviving es' := by
  induction es with
  | nil => rfl
  | cons e es ih =>
    rw [cons_append, surviving, surviving, any_append, ih]
    cases es.any (·.sweeps e) <;> cases hlater : es'.any (·.sweeps e) <;> simp [hlater]

theorem sublist_surviving (es : List Edit) : (surviving es).Sublist es := by
  induction es with
  | nil => exact List.Sublist.refl _
  | cons e es ih =>
    rw [surviving]
    split
    · exact ih.cons _
    · exact ih.cons_cons _

/-- A range is covered by one that survives. -/
theorem exists_covering (h : .replace first last text ∈ es) :
    ∃ a b u, .replace a b u ∈ surviving es ∧ a ≤ first ∧ last ≤ b := by
  induction es generalizing first last text with
  | nil => cases h
  | cons e es ih =>
    rw [surviving]
    rcases mem_cons.mp h with rfl | h
    · split
      · next hany =>
        -- A later range covers this one, and is itself covered by one that survives.
        obtain ⟨q, hq, hsweeps⟩ := any_eq_true.mp hany
        cases q with
        | insert j v => cases hsweeps
        | replace c d v =>
          obtain ⟨a, b, u, hu, hac, hdb⟩ := ih hq
          have hcd : c ≤ first ∧ last ≤ d := by simpa using hsweeps
          exact ⟨a, b, u, hu, by omega, by omega⟩
      · exact ⟨first, last, text, mem_cons_self, Int.le_refl _, Int.le_refl _⟩
    · obtain ⟨a, b, u, hu, hab⟩ := ih h
      split
      · exact ⟨a, b, u, hu, hab⟩
      · exact ⟨a, b, u, mem_cons_of_mem _ hu, hab⟩

/-- To look for a range that is crossed, those that survive are enough. -/
theorem crosses_surviving : (∀ e ∈ surviving es, ¬ e.Crosses f) ↔ ∀ e ∈ es, ¬ e.Crosses f := by
  refine ⟨fun hall e he hc => ?_, fun hall e he => hall e ((sublist_surviving es).subset he)⟩
  rcases e with ⟨j, v⟩ | ⟨c, d, v⟩ <;> rcases f with ⟨k, w⟩ | ⟨first, last, w⟩
  · exact hc
  · exact hc
  · exact hc
  · obtain ⟨a, b, u, hu, hac, hdb⟩ := exists_covering he
    refine hall _ hu ?_
    have hc : ¬ (first ≤ c ∧ d ≤ last) ∧ ¬ (d < first ∨ last < c) := hc
    change ¬ (first ≤ a ∧ b ≤ last) ∧ ¬ (b < first ∨ last < a)
    omega

theorem surviving_pair (h : [e, f].Sublist (surviving es)) :
    ∃ x y, es = x ++ f :: y ∧ e ∈ x ∧ ∀ q ∈ y, q.sweeps e = false := by
  induction es with
  | nil => cases h
  | cons g es ih =>
    rw [surviving] at h
    split at h
    · obtain ⟨x, y, rfl, he, hy⟩ := ih h
      exact ⟨g :: x, y, rfl, mem_cons_of_mem _ he, hy⟩
    · next hany =>
      cases h with
      | cons _ h =>
        obtain ⟨x, y, rfl, he, hy⟩ := ih h
        exact ⟨g :: x, y, rfl, mem_cons_of_mem _ he, hy⟩
      | cons_cons _ h =>
        obtain ⟨x, y, rfl⟩ := append_of_mem ((sublist_surviving es).subset (singleton_sublist.mp h))
        refine ⟨e :: x, y, rfl, mem_cons_self, fun q hq => ?_⟩
        have hnone := any_eq_false.mp (Bool.eq_false_iff.mpr hany) q (by simp [hq])
        simpa using hnone

/-- Where no replacement crosses an earlier one, something is inserted into a surviving range just
if it is inserted into a range that no later replacement covers. -/
theorem holds_surviving (hcross : es.Pairwise fun p q => ¬ p.Crosses q) :
    (surviving es).Pairwise (fun e f => ¬ e.Holds f) ↔
      ¬ ∃ i first last, first < i ∧ i ≤ last ∧ Stuck es i first last := by
  rw [pairwise_iff_forall_sublist]
  constructor
  · rintro hall ⟨i, first, last, hf, hl, x, t, y, rfl, ⟨u, hu⟩, hy⟩
    obtain ⟨a, b, v, hv, ha, hb⟩ := exists_covering hu
    -- what drops one of the two would cover the range or cross it
    have hout : ∀ q ∈ y, q.sweeps (.replace a b v) = false ∧ q.sweeps (.insert i t) = false := by
      intro q hq
      cases q with
      | insert j w => exact ⟨rfl, rfl⟩
      | replace c d w =>
        have hcover := hy c d w hq
        have hmiss : ¬ (¬ (c ≤ first ∧ last ≤ d) ∧ ¬ (last < c ∨ d < first)) :=
          (pairwise_append.mp hcross).2.2 _ hu _ (mem_cons_of_mem _ hq)
        simp only [Edit.sweeps_replace, Edit.sweeps_insert, decide_eq_false_iff_not]
        omega
    have hrange : Edit.replace a b v ∈ (surviving x).filter
        fun e => !(Edit.insert i t :: y).any (·.sweeps e) := by
      refine mem_filter.mpr ⟨hv, ?_⟩
      simpa using fun q hq => (hout q hq).1
    have hpair : [Edit.replace a b v, .insert i t].Sublist
        (surviving (x ++ .insert i t :: y)) := by
      have hnone : ¬ y.any (·.sweeps (.insert i t)) = true := by
        simpa using fun q hq => (hout q hq).2
      rw [surviving_append, surviving, if_neg hnone]
      exact (singleton_sublist.mpr hrange).append (singleton_sublist.mpr mem_cons_self)
    refine hall hpair ⟨rfl, ?_⟩
    change a < i ∧ i ≤ b
    omega
  · rintro hno e f hsub ⟨hf, hin⟩
    obtain ⟨x, y, rfl, he, hy⟩ := surviving_pair hsub
    rcases e with ⟨j, v⟩ | ⟨a, b, v⟩ <;> rcases f with ⟨i, t⟩ | ⟨c, d, w⟩
    · cases hin
    · cases hin
    · refine hno ⟨i, a, b, hin.1, hin.2, x, t, y, rfl, ⟨v, he⟩, fun c d w hmem hcd => ?_⟩
      simpa [hcd] using hy _ hmem
    · cases hf

/-! ## The pass over the replacements -/

/-- Whether an edit is left by a replacement of a range, if it replaces a range itself. -/
def uncovered (first last : Int) (e : Edit) : Bool :=
  !(e.replaces && (Edit.replace first last none).sweeps e)

/-- A range that is crossed is a conflict. -/
theorem takeReplacements_crosses {es : Edits}
    (h : ∃ e ∈ present es, e.Crosses (.replace first last text)) :
    (takeReplacements first last (some s) es).2.2.isSome = true := by
  induction es with
  | nil => simp at h
  | cons e es ih =>
    rcases e with _ | ⟨i, u⟩ | ⟨f, l, u⟩
    · exact ih h
    · exact ih (by simpa [Edit.Crosses] using h)
    · obtain ⟨e, he, hcross⟩ := h
      rw [takeReplacements]
      rcases mem_cons.mp he with rfl | he
      · simp [hcross.1, hcross.2]
      · have ih := ih ⟨e, he, hcross⟩
        split
        · exact ih
        · split
          · exact ih
          · simp

/-- Without one, what the range covers is dropped. -/
theorem takeReplacements_covers_all {es : Edits}
    (h : ∀ e ∈ present es, ¬ e.Crosses (.replace first last text)) :
    takeReplacements first last (some s) es =
      (es.map (Option.filter (uncovered first last)), (first, last), none) := by
  induction es with
  | nil => rfl
  | cons e es ih =>
    rcases e with _ | ⟨i, u⟩ | ⟨f, l, u⟩
    · simp [takeReplacements, ih h]
    · simp [takeReplacements, Option.filter_some, uncovered, Edit.replaces,
        ih (forall_mem_cons.mp h).2]
    · obtain ⟨hcross, h⟩ := forall_mem_cons.mp h
      by_cases hc : first ≤ f ∧ l ≤ last
      · simp [takeReplacements, Option.filter_some, uncovered, Edit.replaces, hc, ih h]
      · have hd : l < first ∨ last < f := by_contra fun hd => hcross ⟨hc, hd⟩
        simp [takeReplacements, Option.filter_some, uncovered, Edit.replaces, hc, hd, ih h]

section Step

variable {before : Edits}

theorem withInsertions_some : ∃ u, withInsertions first (some s) before = some u := by
  cases hw : withInsertions first (some s) before with
  | none => cases text_of_withInsertions hw
  | some u => exact ⟨u, rfl⟩

theorem replaced_crosses (h : ∃ e ∈ present before, e.Crosses (.replace first last text)) :
    (replaced first last (some s) before).2.2.isSome = true := by
  obtain ⟨u, hu⟩ := @withInsertions_some first s before
  obtain ⟨e, he, hcross⟩ := h
  rw [replaced, hu]
  refine takeReplacements_crosses ⟨e, ?_, hcross⟩
  cases e with
  | insert i v => cases hcross
  | replace f l v =>
    rw [present_outside]
    exact mem_filter.mpr ⟨he, rfl⟩

theorem replaced_sweeps (hle : first ≤ last)
    (h : ∀ e ∈ present before, ¬ e.Crosses (.replace first last text)) :
    (replaced first last (some s) before).2 = ((first, last), none) ∧
      present (replaced first last (some s) before).1 =
        (present before).filter fun e => !(Edit.replace first last (some s)).sweeps e := by
  obtain ⟨u, hu⟩ := @withInsertions_some first s before
  rw [replaced, hu, takeReplacements_covers_all fun e he =>
    h e ((outside_sublist first last before).subset he)]
  refine ⟨rfl, ?_⟩
  rw [present_map rfl (fun e => Option.filter_some ..), present_outside, filter_filter]
  refine filter_congr fun e _ => ?_
  cases e with
  | insert i v =>
    have hiff : (i = first ∨ first < i ∧ i ≤ last) ↔ first ≤ i ∧ i ≤ last := by omega
    simp [uncovered, Edit.replaces, Edit.index, hiff]
  | replace f l v => simp [uncovered, Edit.replaces]

theorem surviving_replaced (hle : first ≤ last)
    (hsame : (present before).map Edit.shape = (surviving past).map Edit.shape)
    (h : ∀ e ∈ present before, ¬ e.Crosses (.replace first last (some s))) :
    (present ((replaced first last (some s) before).1 ++
      [some (replacement first last (some s) before)])).map Edit.shape =
        (surviving (past ++ [.replace first last (some s)])).map Edit.shape := by
  obtain ⟨hrange, hleft⟩ := replaced_sweeps (s := s) hle h
  have hfilter : ∀ es : List Edit,
      (es.filter fun e => !(Edit.replace first last (some s)).sweeps e).map Edit.shape =
        (es.map Edit.shape).filter fun e => !(Edit.replace first last (some s)).sweeps e := by
    intro es
    rw [filter_map]
    refine congrArg _ (filter_congr fun e _ => ?_)
    cases e <;> rfl
  rw [present_append, map_append, hleft, hfilter, hsame, ← hfilter, surviving_append]
  simp [surviving, replacement, hrange, Edit.shape]

end Step

/-- The first pass finds a conflict just if a replacement crosses an earlier one, and leaves the
surviving edits. -/
theorem surviving_reduceReplacements {before es : Edits}
    (hsame : (present before).map Edit.shape = (surviving past).map Edit.shape)
    (hcross : past.Pairwise fun p q => ¬ p.Crosses q)
    (hes : ∀ e ∈ present es, e.Proper ∧ e.Writes) :
    (past ++ present es).Pairwise (fun p q => ¬ p.Crosses q) ∧
      (∃ r, reduceReplacements before es = (r, none) ∧
        (present r).map Edit.shape = (surviving (past ++ present es)).map Edit.shape) ∨
    ¬ (past ++ present es).Pairwise (fun p q => ¬ p.Crosses q) ∧
      (reduceReplacements before es).2.isSome = true := by
  induction es generalizing before past with
  | nil =>
    rw [present_nil, append_nil]
    exact .inl ⟨hcross, before, rfl, hsame⟩
  | cons e es ih =>
    rcases e with _ | ⟨i, t⟩ | ⟨f, l, u⟩
    · exact @ih past (before ++ [none]) (by simpa using hsame) hcross hes
    · have hrest := @ih (past ++ [.insert i t]) (before ++ [some (.insert i t)]) ?_
        (pairwise_concat.mpr ⟨hcross, fun e _ => by cases e <;> exact id⟩)
          (forall_mem_cons.mp hes).2
      · rwa [append_assoc] at hrest
      · have hall : (surviving past).filter (fun e => !([Edit.insert i t].any (·.sweeps e))) =
            surviving past := filter_eq_self.mpr (by simp)
        rw [present_append, surviving_append, hall, map_append, hsame, map_append]
        rfl
    · obtain ⟨⟨hle, hwrites⟩, hrest⟩ := forall_mem_cons.mp hes
      cases u with
      | none => cases hwrites
      | some s =>
        have hiff : (∀ e ∈ present before, ¬ e.Crosses (.replace f l (some s))) ↔
            ∀ e ∈ past, ¬ e.Crosses (.replace f l (some s)) := by
          rw [← @crosses_surviving past]
          exact ⟨forall_of_sublist Edit.crosses_congr (hsame ▸ List.Sublist.refl _),
            forall_of_sublist Edit.crosses_congr (hsame ▸ List.Sublist.refl _)⟩
        rw [reduceReplacements_replace]
        -- Either this range crosses nothing and the pass goes on, or the pass ends here.
        by_cases hno : ∀ e ∈ present before, ¬ e.Crosses (.replace f l (some s))
        · have hall := @ih (past ++ [.replace f l (some s)]) _ (surviving_replaced hle hsame hno)
            (pairwise_concat.mpr ⟨hcross, hiff.mp hno⟩) hrest
          rw [(replaced_sweeps (s := s) hle hno).1]
          rwa [append_assoc] at hall
        · obtain ⟨k, hk⟩ := Option.isSome_iff_exists.mp
            (@replaced_crosses f l s _ before (by simpa using hno))
          rw [hk]
          refine .inr ⟨fun hall => hno (hiff.mpr fun e he => ?_), rfl⟩
          exact (pairwise_append.mp hall).2.2 e he _ mem_cons_self

/-! ## The pass over the insertions -/

/-- The pass over the insertions fails if a range holds a later insertion. -/
theorem reduceInsertions_eq_none {before es : Edits}
    (h : (present before).Pairwise fun e f => ¬ e.Holds f) :
    (reduceInsertions before es).2 = none ↔
      (present before ++ present es).Pairwise fun e f => ¬ e.Holds f := by
  induction es generalizing before with
  | nil => simpa [reduceInsertions] using h
  | cons e es ih =>
    rcases e with _ | ⟨i, t⟩ | ⟨f, l, u⟩
    · have hrest := @ih (before ++ [none]) (by simpa using h)
      rwa [present_append, append_assoc] at hrest
    · by_cases hin : ∃ e ∈ present before, e.Encloses i
      · have hstop := @reduceInsertions_encloses i t before es hin
        refine iff_of_false (fun hnone => by rw [hnone] at hstop; cases hstop) fun hall => ?_
        obtain ⟨e, he, hi⟩ := hin
        exact (pairwise_append.mp hall).2.2 e he (.insert i t) mem_cons_self ⟨rfl, hi⟩
      · have hmiss : ∀ e ∈ present before, ¬ e.Encloses i := fun e he hi => hin ⟨e, he, hi⟩
        obtain ⟨b, hb, hstep⟩ := @reduceInsertions_met i t before es hmiss
        have hend : (present before ++ [Edit.insert i t]).Pairwise fun e f => ¬ e.Holds f :=
          pairwise_concat.mpr ⟨h, fun e he hh => hmiss e he hh.2⟩
        have hsub := sublist_settled i (joined i t (present before)) t (present before)
        rw [hstep, @ih b ?_, hb]
        · refine ⟨fun hall => ?_, pairwise_of_sublist (not_congr <| Edit.holds_congr · ·) (hsub _)⟩
          -- a range that was there is still there
          obtain ⟨-, hes, hcross⟩ := pairwise_append.mp hall
          have hnew : present before ++ present (some (.insert i t) :: es) =
              present before ++ [.insert i t] ++ present es := by simp
          rw [hnew]
          refine pairwise_append.mpr ⟨hend, hes, fun e he f hf hh => ?_⟩
          rcases mem_append.mp he with he | he
          · have hkept : e ∈ without i (present before) := by
              cases e with
              | insert j u => cases hh.2
              | replace c d u => simpa [without, Edit.replaces] using he
            refine hcross (e.led i (joined i t (present before)))
              (mem_append_left _ (mem_map_of_mem hkept)) f hf ?_
            exact (Edit.holds_congr (shape_led ..) rfl).mpr hh
          · cases mem_singleton.mp he
            cases hh.2
        · rw [hb]
          have hmet := hsub []
          rw [append_nil] at hmet
          exact pairwise_of_sublist (not_congr <| Edit.holds_congr · ·) hmet hend
    · have hrest := @ih (before ++ [some (.replace f l u)]) ?_
      · rwa [present_append, append_assoc] at hrest
      · rw [present_append]
        exact pairwise_concat.mpr ⟨h, fun e _ hh => by cases hh.1⟩

/-! ## Readings that fail -/

/-- Edits that write something can be written behind the last token. -/
theorem trailing_writes {size : Nat} (h : ∀ e ∈ es, e.Writes) : ∃ s, trailing size es = .ok s := by
  induction es with
  | nil => exact ⟨"", rfl⟩
  | cons e es ih =>
    obtain ⟨he, hes⟩ := forall_mem_cons.mp h
    obtain ⟨s, hs⟩ := ih hes
    by_cases hend : (size : Int) - 1 ≤ e.index
    · rcases e with ⟨j, t⟩ | ⟨a, b, _ | t⟩
      · exact ⟨t ++ s, by simp [trailing, hend, hs, Except.map]⟩
      · cases he
      · exact ⟨t ++ s, by simp [trailing, hend, hs, Except.map]⟩
    · rcases e with ⟨j, t⟩ | ⟨a, b, _ | t⟩ <;>
        exact ⟨s, by simpa only [trailing, if_neg hend] using hs⟩

theorem reducedText_writes {tokens : Array Token} {start stop : Int} (hone : oneEach es = true)
    (h : ∀ e ∈ es, e.Writes) : ∃ s, reducedText tokens start stop es = .ok s := by
  obtain ⟨ps, -, -, hperm⟩ := @pieced_walk tokens stop tokens.size start es
  obtain ⟨s, hs⟩ := @trailing_writes (walk tokens stop tokens.size start es).2 tokens.size
    fun e he => h e (hperm.subset (mem_append_right _ he))
  unfold reducedText
  simp only [hone, if_true]
  by_cases hend : stop = (tokens.size : Int) - 1
  · exact ⟨_, by simp only [if_pos hend, hs]; rfl⟩
  · exact ⟨_, by simp only [if_neg hend]; rfl⟩

/-- Where nothing is deleted, the first pass and the second one find a conflict in the recorded
edits just if two of them do not go together. -/
theorem reduce_eq_none (h : ∀ e ∈ es, e.Proper ∧ e.Writes) :
    (reduce (es.map some)).2 = none ↔ ¬ ((∃ p q, [p, q].Sublist es ∧ p.Crosses q) ∨
      ∃ i first last, first < i ∧ i ≤ last ∧ Stuck es i first last) := by
  have hpass := @surviving_reduceReplacements [] [] (es.map some) rfl List.Pairwise.nil
    (by simpa using h)
  rw [nil_append, present_map_some] at hpass
  have hpairs : es.Pairwise (fun p q => ¬ p.Crosses q) ↔
      ¬ ∃ p q, [p, q].Sublist es ∧ p.Crosses q := by
    rw [pairwise_iff_forall_sublist]
    exact ⟨fun hall ⟨p, q, hsub, hc⟩ => hall hsub hc, fun hno _ _ hsub hc => hno ⟨_, _, hsub, hc⟩⟩
  rw [not_or, ← hpairs]
  -- If nothing crosses, it is up to the second pass.
  rcases hpass with ⟨hcross, r, hr, hsame⟩ | ⟨hcross, hstop⟩
  · have hholds : (present r).Pairwise (fun e f => ¬ e.Holds f) ↔
        (surviving es).Pairwise fun e f => ¬ e.Holds f :=
      ⟨pairwise_of_sublist (not_congr <| Edit.holds_congr · ·) (hsame ▸ List.Sublist.refl _),
        pairwise_of_sublist (not_congr <| Edit.holds_congr · ·) (hsame ▸ List.Sublist.refl _)⟩
    rw [reduce, hr, ← holds_surviving hcross, ← hholds]
    exact (@reduceInsertions_eq_none [] _ List.Pairwise.nil).trans
      (and_iff_right hcross).symm
  · refine iff_of_false (fun hnone => ?_) fun hno => hcross hno.1
    rw [reduce] at hnone
    generalize reduceReplacements [] (es.map some) = r at hstop hnone
    obtain ⟨r, _ | k⟩ := r
    · cases hstop
    · cases hnone

/-- Where nothing is deleted, a reading fails just if a replacement overlaps an earlier one without
covering it, or something is inserted into an earlier range that no replacement behind it covers.
In every other case it gives a text. -/
theorem readAll_conflicts (tokens : Array Token) (h : ∀ e ∈ es, e.Proper ∧ e.Writes) :
    ((∃ c, (readAll (es.map some) tokens).1 = .error (.conflict c)) ↔
      (∃ p q, [p, q].Sublist es ∧ p.Crosses q) ∨
        ∃ i first last, first < i ∧ i ≤ last ∧ Stuck es i first last) ∧
    ((∃ c, (readAll (es.map some) tokens).1 = .error (.conflict c)) ∨
      ∃ s, (readAll (es.map some) tokens).1 = .ok s) := by
  have hiff := reduce_eq_none h
  have hproper : ∀ e ∈ present (es.map some), e.Proper := by simpa using fun e he => (h e he).1
  cases es with
  | nil =>
    refine ⟨iff_of_false ?_ (hiff.mp rfl), .inr ⟨_, rfl⟩⟩
    rintro ⟨c, hc⟩
    cases hc
  | cons e es =>
    rw [readAll, read]
    simp only [map_cons, isEmpty_cons, Bool.false_eq_true, if_false] at hiff hproper ⊢
    cases hr : reduce (some e :: es.map some) with
    | mk r k =>
    rw [hr] at hiff
    cases k with
    | some c => exact ⟨iff_of_true ⟨c, rfl⟩ (by_contra fun hno => by cases hiff.mpr hno),
      .inl ⟨c, rfl⟩⟩
    | none =>
      have hpassed := passed_reduce hproper hr
      have hwrites := hpassed.written (by simpa using fun e he => (h e he).2)
      -- Nothing is deleted, so no insertion is left between deletions.
      have hone : oneEach (present r) = true := by
        refine oneEach_of_reduce hproper hr fun i f l hbetween => ?_
        obtain ⟨a, b, c, d, t, hsub, -⟩ := hbetween
        rw [← map_cons, present_map_some] at hsub
        exact (h _ (hsub.subset mem_cons_self)).2
      obtain ⟨s, hs⟩ := @reducedText_writes (present r) tokens (max 0 0)
        (min ((tokens.size : Int) - 1) ((tokens.size : Int) - 1)) hone (by simpa using hwrites)
      simp only [show r.filterMap id = present r from rfl, hs]
      refine ⟨iff_of_false ?_ (hiff.mp rfl), .inr ⟨s, rfl⟩⟩
      rintro ⟨c, hc⟩
      cases hc

/-- A replacement of the whole stream covers the range that something was inserted into. -/
theorem readAll_conflicts_sum :
    let es : List Edit := [.replace 1 2 (some "R"), .insert 2 "x", .replace 0 2 (some "S")]
    ¬ ((∃ p q, [p, q].Sublist es ∧ p.Crosses q) ∨
      ∃ i first last, first < i ∧ i ≤ last ∧ Stuck es i first last) := by
  intro es hconflict
  have hwell : ∀ e ∈ es, e.Proper ∧ e.Writes := by simp [es, Edit.Proper, Edit.Writes]
  obtain ⟨c, hc⟩ := (readAll_conflicts sumTokens hwell).1.mpr hconflict
  have hr : (readAll (es.map some) sumTokens).1 = .ok "S" := rfl
  rw [hr] at hc
  cases hc

end Edits

end Resumable
