import Mathlib.Data.List.Pairwise
import Resumable.Edits

/-!
# Edits that are merged

Edits are recorded in any order, and merged two by two before they are carried out, so that at most
one is left for each token. What they are to write can be said without any merging: a walk over the
tokens writes at each token what is inserted there and then the token, or the text of the range that
begins there. Merging keeps this text if the edits agree with each other: ranges share no token,
nothing is inserted inside a range, and at most one text in front of it. What is left agrees again.

* `Edits.Agree`: the edits do not get in each other's way.
* `Edits.written`: what they are to write, without any merging.
* `Edits.reduceReplacements_spec`, `Edits.reduceInsertions_spec`: each pass keeps this text.
* `Edits.reduce_spec`: so does merging, and it leaves one edit for each token.
-/

namespace Resumable

open List

variable {es before : List Edit}

/-! ## Edits that agree -/

namespace Edit

/-- Whether an edit names tokens of a list of some size. A text may be inserted behind the last
one. -/
def Within (size : Nat) : Edit → Prop
  | insert i _ => 0 ≤ i ∧ i ≤ size
  | replace first last _ => 0 ≤ first ∧ first ≤ last ∧ last < size

/-- Whether two edits leave each other alone: two ranges share no token, and nothing is inserted
behind the first token of a range. -/
def Apart : Edit → Edit → Prop
  | insert _ _, insert _ _ => True
  | insert i _, replace first last _ => ¬ (first < i ∧ i ≤ last)
  | replace first last _, insert i _ => ¬ (first < i ∧ i ≤ last)
  | replace first last _, replace first' last' _ => last < first' ∨ last' < first

instance (size : Nat) (e : Edit) : Decidable (e.Within size) :=
  match e with
  | insert i _ => inferInstanceAs (Decidable (0 ≤ i ∧ i ≤ (size : Int)))
  | replace first last _ =>
    inferInstanceAs (Decidable (0 ≤ first ∧ first ≤ last ∧ last < (size : Int)))

instance (e f : Edit) : Decidable (e.Apart f) :=
  match e, f with
  | insert _ _, insert _ _ => inferInstanceAs (Decidable True)
  | insert i _, replace first last _ => inferInstanceAs (Decidable (¬ (first < i ∧ i ≤ last)))
  | replace first last _, insert i _ => inferInstanceAs (Decidable (¬ (first < i ∧ i ≤ last)))
  | replace first last _, replace first' last' _ =>
    inferInstanceAs (Decidable (last < first' ∨ last' < first))

theorem Apart.symm {e f : Edit} (h : e.Apart f) : f.Apart e := by
  cases e <;> cases f
  · trivial
  · exact h
  · exact h
  · exact Or.symm h

instance : Std.Symm Apart := ⟨fun _ _ => Apart.symm⟩

/-- The range is not empty. -/
def Proper : Edit → Prop
  | insert .. => True
  | replace first last _ => first ≤ last

theorem Within.proper {size : Nat} {e : Edit} (h : e.Within size) : e.Proper := by
  cases e with
  | insert i text => trivial
  | replace first last text => exact h.2.1

/-- Whether an edit replaces a range that holds a token and the one before it. -/
def Encloses (i : Int) : Edit → Prop
  | insert .. => False
  | replace first last _ => first < i ∧ i ≤ last

def replaces : Edit → Bool
  | insert .. => false
  | replace .. => true

/-- The text that the edit inserts at the token. -/
def insertion? (i : Int) : Edit → Option String
  | insert j text => if j = i then some text else none
  | replace .. => none

/-- The end and the text of the range that begins at the token. -/
def replacement? (i : Int) : Edit → Option (Int × Option String)
  | insert .. => none
  | replace first last text => if first = i then some (last, text) else none

end Edit

namespace Edits

/-- The texts that are inserted at a token, in the order of recording. -/
def insertions (i : Int) (es : List Edit) : List String := es.filterMap (·.insertion? i)

/-- The end and the text of the range that begins at a token. -/
def replacement? (i : Int) (es : List Edit) : Option (Int × Option String) :=
  es.findSome? (·.replacement? i)

/-- Edits of a list of tokens that agree with each other. -/
structure Agree (size : Nat) (es : List Edit) : Prop where
  within : ∀ e ∈ es, e.Within size
  apart : es.Pairwise Edit.Apart
  single : ∀ e ∈ es, e.replaces = true → (insertions e.index es).length ≤ 1

instance (size : Nat) (es : List Edit) : Decidable (Agree size es) :=
  decidable_of_iff (_ ∧ _ ∧ _) ⟨fun h => ⟨h.1, h.2.1, h.2.2⟩, fun h => ⟨h.1, h.2, h.3⟩⟩

/-- What the edits make of a list of tokens, the first of which has the number `i`: at each token
the texts inserted there and the token, or the text of the range that begins there; behind the last
token the texts inserted there. -/
def written (es : List Edit) : Int → List Token → String
  | i, [] => String.join (insertions i es)
  | i, t :: ts =>
    match replacement? i es with
    | some (last, text) =>
      String.join (insertions i es) ++ text.getD "" ++
        written es (last + 1) (ts.drop (last - i).toNat)
    | none =>
      String.join (insertions i es) ++ (if t.kind = .endOfFile then "" else t.text) ++
        written es (i + 1) ts
termination_by _ ts => ts.length
decreasing_by all_goals simp only [List.length_cons, List.length_drop]; omega

/-! ## What edits write -/

/-- What is written before a token, or in place of the range that begins there. -/
def lead (es : List Edit) (i : Int) : String :=
  String.join (insertions i es) ++ ((replacement? i es).bind (·.2)).getD ""

/-- Where the replacement ends that begins at a token. -/
def extent (es : List Edit) (i : Int) : Option Int := (replacement? i es).map (·.1)

/-- Edits that write the same at each token. -/
structure Alike (es es' : List Edit) : Prop where
  lead : ∀ i, lead es i = lead es' i
  extent : ∀ i, extent es i = extent es' i

theorem Alike.refl (es : List Edit) : Alike es es := ⟨fun _ => rfl, fun _ => rfl⟩

theorem Alike.trans {es₁ es' : List Edit} (h : Alike es es₁) (h' : Alike es₁ es') : Alike es es' :=
  ⟨fun i => (h.lead i).trans (h'.lead i), fun i => (h.extent i).trans (h'.extent i)⟩

/-- What is written at one token. -/
theorem written_cons (es : List Edit) (i : Int) (t : Token) (ts : List Token) :
    written es i (t :: ts) =
      match extent es i with
      | some last => lead es i ++ written es (last + 1) (ts.drop (last - i).toNat)
      | none => lead es i ++ (if t.kind = .endOfFile then "" else t.text) ++
          written es (i + 1) ts := by
  rw [written]
  unfold extent lead
  cases replacement? i es with
  | none => simp
  | some r => simp

theorem extent_eq_none {i : Int} : extent es i = none ↔ replacement? i es = none :=
  Option.map_eq_none_iff

/-- Replacements lie within a text of this size. -/
def Bounded (size : Int) (es : List Edit) : Prop :=
  ∀ i last, extent es i = some last → i ≤ last ∧ last < size

/-- Edits that are alike write the same. -/
theorem Alike.written {es' : List Edit} (h : Alike es es') {size : Int} (hb : Bounded size es)
    {i : Int} {ts : List Token} (hsize : i + ts.length = size) :
    written es i ts = written es' i ts := by
  induction hn : ts.length using Nat.strongRecOn generalizing i ts with
  | ind n ih =>
    cases ts with
    | nil =>
      -- No range begins behind the last token.
      have hes : Edits.extent es i = none := by
        cases hx : Edits.extent es i with
        | none => rfl
        | some last =>
          have := hb i last hx
          simp at hsize
          omega
      have hes' : Edits.extent es' i = none := (h.extent i).symm.trans hes
      have hlead := h.lead i
      rw [Edits.lead, Edits.lead, extent_eq_none.mp hes, extent_eq_none.mp hes'] at hlead
      rw [Edits.written, Edits.written]
      simpa using hlead
    | cons t ts =>
      rw [length_cons] at hn hsize
      rw [written_cons, written_cons, ← h.extent i, ← h.lead i]
      cases hx : Edits.extent es i with
      | none =>
        have hrest : Edits.written es (i + 1) ts = Edits.written es' (i + 1) ts :=
          ih ts.length (by omega) (by omega) rfl
        simp only [hrest]
      | some last =>
        have hlast := hb i last hx
        have hlength : (ts.drop (last - i).toNat).length = ts.length - (last - i).toNat :=
          length_drop
        have hrest : Edits.written es (last + 1) (ts.drop (last - i).toNat) =
            Edits.written es' (last + 1) (ts.drop (last - i).toNat) :=
          ih (ts.drop (last - i).toNat).length (by omega) (by omega) rfl
        simp only [hrest]

/-! ## Edits without their texts -/

end Edits

/-- An edit without its text. -/
def Edit.shape : Edit → Edit
  | insert i _ => insert i ""
  | replace first last _ => replace first last none

namespace Edits

section Shapes

variable {size : Nat} {e f e' f' : Edit} {es es' : List Edit}

theorem replaces_congr (h : e.shape = e'.shape) : e.replaces = e'.replaces := by
  cases e <;> cases e' <;> cases h <;> rfl

theorem index_congr (h : e.shape = e'.shape) : e.index = e'.index := by
  cases e <;> cases e' <;> cases h <;> rfl

theorem proper_congr (h : e.shape = e'.shape) : e.Proper ↔ e'.Proper := by
  cases e <;> cases e' <;> cases h <;> exact Iff.rfl

theorem within_congr (h : e.shape = e'.shape) : e.Within size ↔ e'.Within size := by
  cases e <;> cases e' <;> cases h <;> exact Iff.rfl

theorem apart_congr (he : e.shape = e'.shape) (hf : f.shape = f'.shape) :
    e.Apart f ↔ e'.Apart f' := by
  cases e <;> cases e' <;> cases he <;> cases f <;> cases f' <;> cases hf <;> exact Iff.rfl

theorem length_insertions (i : Int) (es : List Edit) :
    (insertions i es).length = (es.map Edit.shape).countP (· == .insert i "") := by
  induction es with
  | nil => rfl
  | cons e es ih =>
    cases e with
    | insert j text =>
      by_cases hj : j = i <;>
        simp_all [insertions, Edit.insertion?, Edit.shape]
    | replace first last text => simp_all [insertions, Edit.insertion?, Edit.shape]

/-- An insertion never stands before a replacement at the same token. -/
def Behind (e f : Edit) : Prop :=
  f.replaces = true → e.replaces = false → e.index ≠ f.index

theorem behind_congr (he : e.shape = e'.shape) (hf : f.shape = f'.shape) :
    Behind e f ↔ Behind e' f' := by
  cases e <;> cases e' <;> cases he <;> cases f <;> cases f' <;> cases hf <;> exact Iff.rfl

/-- A relation that does not depend on the texts goes over to edits of which some were dropped or
got other texts. -/
theorem pairwise_of_sublist {R : Edit → Edit → Prop}
    (hR : ∀ {e e' f f' : Edit}, e.shape = e'.shape → f.shape = f'.shape → (R e f ↔ R e' f'))
    (hs : (es'.map Edit.shape).Sublist (es.map Edit.shape)) (h : es.Pairwise R) :
    es'.Pairwise R := by
  have hidem : ∀ e : Edit, e.shape = e.shape.shape := fun e => by cases e <;> rfl
  have hshapes : (es.map Edit.shape).Pairwise R :=
    pairwise_map.mpr (h.imp fun {a b} hab => (hR (hidem a) (hidem b)).mp hab)
  exact (pairwise_map.mp (hshapes.sublist hs)).imp fun {a b} hab =>
    (hR (hidem a) (hidem b)).mpr hab

theorem forall_of_sublist {P : Edit → Prop}
    (hP : ∀ {e e' : Edit}, e.shape = e'.shape → (P e ↔ P e'))
    (hs : (es'.map Edit.shape).Sublist (es.map Edit.shape)) (h : ∀ e ∈ es, P e) :
    ∀ e ∈ es', P e := by
  intro e he
  obtain ⟨f, hf, hfe⟩ := mem_map.mp (hs.subset (mem_map_of_mem he))
  exact (hP hfe).mp (h f hf)

/-- Whether edits agree does not depend on their texts, and fewer edits agree too. -/
theorem Agree.of_sublist (h : Agree size es)
    (hs : (es'.map Edit.shape).Sublist (es.map Edit.shape)) : Agree size es' := by
  refine ⟨forall_of_sublist within_congr hs h.within, pairwise_of_sublist apart_congr hs h.apart,
    forall_of_sublist (fun he => ?_) hs fun e he hr => ?_⟩
  · rw [replaces_congr he, index_congr he]
  · have hone := h.single e he hr
    rw [length_insertions] at hone ⊢
    exact Nat.le_trans hs.countP_le hone

end Shapes

/-! ## The parts of a list of edits -/

section Parts

variable {i : Int} {e : Edit} {es es' : List Edit}

@[simp] theorem insertions_append (i : Int) (es es' : List Edit) :
    insertions i (es ++ es') = insertions i es ++ insertions i es' := filterMap_append

theorem insertions_eq_nil : insertions i es = [] ↔ ∀ e ∈ es, e.insertion? i = none :=
  filterMap_eq_nil_iff

theorem replacement?_append (i : Int) (es es' : List Edit) :
    replacement? i (es ++ es') = (replacement? i es).or (replacement? i es') :=
  findSome?_append

theorem replacement?_eq_none : replacement? i es = none ↔ ∀ e ∈ es, e.replacement? i = none :=
  findSome?_eq_none_iff

@[simp] theorem insertions_nil (i : Int) : insertions i [] = [] := rfl

@[simp] theorem insertions_insert (i j : Int) (text : String) (es : List Edit) :
    insertions i (.insert j text :: es) =
      if j = i then text :: insertions i es else insertions i es := by
  by_cases h : j = i <;> simp [insertions, Edit.insertion?, h]

@[simp] theorem insertions_replace (i first last : Int) (text : Option String) (es : List Edit) :
    insertions i (.replace first last text :: es) = insertions i es := rfl

@[simp] theorem replacement?_nil (i : Int) : replacement? i [] = none := rfl

@[simp] theorem replacement?_insert (i j : Int) (text : String) (es : List Edit) :
    replacement? i (.insert j text :: es) = replacement? i es := rfl

@[simp] theorem replacement?_replace (i first last : Int) (text : Option String) (es : List Edit) :
    replacement? i (.replace first last text :: es) =
      if first = i then some (last, text) else replacement? i es := by
  by_cases h : first = i <;> simp [replacement?, Edit.replacement?, h]

theorem exists_of_replacement? {r : Int × Option String} (h : replacement? i es = some r) :
    .replace i r.1 r.2 ∈ es := by
  obtain ⟨e, he, hr⟩ := exists_of_findSome?_eq_some h
  cases e with
  | insert j t => cases hr
  | replace first last t =>
    simp only [Edit.replacement?] at hr
    split at hr
    · next hi =>
      cases hr
      exact hi ▸ he
    · cases hr

/-- The edits without the insertions at the token. -/
def without (i : Int) (es : List Edit) : List Edit :=
  es.filter fun e => e.replaces || e.index != i

@[simp] theorem without_nil (i : Int) : without i [] = [] := rfl

@[simp] theorem without_insert (i j : Int) (text : String) (es : List Edit) :
    without i (.insert j text :: es) =
      if j = i then without i es else .insert j text :: without i es := by
  by_cases h : j = i <;> simp [without, Edit.replaces, Edit.index, h]

@[simp] theorem without_replace (i first last : Int) (text : Option String) (es : List Edit) :
    without i (.replace first last text :: es) = .replace first last text :: without i es := rfl

theorem without_sublist (i : Int) (es : List Edit) : (without i es).Sublist es :=
  filter_sublist

@[simp] theorem insertions_without_self (i : Int) (es : List Edit) :
    insertions i (without i es) = [] := by
  refine insertions_eq_nil.mpr fun e he => ?_
  have hkept := (mem_filter.mp he).2
  cases e with
  | insert j text => simpa [Edit.insertion?, Edit.replaces, Edit.index] using hkept
  | replace first last text => rfl

theorem insertions_without {j : Int} (hj : j ≠ i) (es : List Edit) :
    insertions j (without i es) = insertions j es := by
  induction es with
  | nil => rfl
  | cons e es ih =>
    cases e with
    | insert k text =>
      by_cases hk : k = i
      · simpa [hk, Ne.symm hj] using ih
      · simp [hk, ih]
    | replace first last text => exact ih

@[simp] theorem replacement?_without (i j : Int) (es : List Edit) :
    replacement? j (without i es) = replacement? j es := by
  induction es with
  | nil => rfl
  | cons e es ih =>
    cases e with
    | insert k text =>
      by_cases hk : k = i
      · simpa [hk] using ih
      · simpa [hk] using ih
    | replace first last text => simp [ih]

end Parts

/-! ## Edits that are still there -/

/-- The edits that were not taken away. -/
def present (es : Edits) : List Edit := es.filterMap id

@[simp] theorem present_nil : present [] = [] := rfl

@[simp] theorem present_none (es : Edits) : present (none :: es) = present es := rfl

@[simp] theorem present_some (e : Edit) (es : Edits) :
    present (some e :: es) = e :: present es := rfl

@[simp] theorem present_append (es es' : Edits) :
    present (es ++ es') = present es ++ present es' := filterMap_append

theorem pairwise_or {R : Edit → Edit → Prop} {es : List Edit} {a b : Edit} (h : es.Pairwise R)
    (ha : a ∈ es) (hb : b ∈ es) (hne : a ≠ b) : R a b ∨ R b a := by
  let S (a b : Edit) : Prop := R a b ∨ R b a
  have : Std.Symm S := ⟨fun _ _ => Or.symm⟩
  have hpairs : es.Pairwise S := h.imp Or.inl
  exact hpairs.forall ha hb hne

theorem pairwise_concat {R : Edit → Edit → Prop} {es : List Edit} {e : Edit} :
    (es ++ [e]).Pairwise R ↔ es.Pairwise R ∧ ∀ d ∈ es, R d e := by
  simp [pairwise_append]

@[simp] theorem present_map_some (es : List Edit) : present (es.map some) = es := by
  simp [present]

/-! ## Replacements take insertions over -/

section Replacements

variable {size : Nat} {first last : Int} {text : Option String}

/-- What a replacement leaves of the insertions before it. -/
def outside (first last : Int) : Option Edit → Option Edit
  | some (.insert i t) => if i = first ∨ first < i ∧ i ≤ last then none else some (.insert i t)
  | e => e

/-- The text of a replacement with the insertions that it took over. -/
def withInsertions (first : Int) (text : Option String) (es : Edits) : Option String :=
  (insertions first (present es)).foldl (fun acc t => some (t ++ acc.getD "")) text

/-- What a replacement makes of the edits before it. -/
def replaced (first last : Int) (text : Option String) (es : Edits) :
    Edits × (Int × Int) × Option Conflict :=
  takeReplacements first last (withInsertions first text es) (es.map (outside first last))

/-- The replacement that is left, with what it took over. -/
def replacement (first last : Int) (text : Option String) (es : Edits) : Edit :=
  .replace (replaced first last text es).2.1.1 (replaced first last text es).2.1.2
    (withInsertions first text es)

/-- A replacement takes over the insertions at its first token and drops those inside. -/
theorem takeInsertions_eq {es : Edits} : takeInsertions first last text es =
    (es.map (outside first last), withInsertions first text es) := by
  unfold withInsertions
  induction es generalizing text with
  | nil => rfl
  | cons e es ih =>
    rcases e with _ | ⟨i, t⟩ | ⟨f, l, t⟩
    · simp [takeInsertions, ih, outside]
    · by_cases hi : i = first
      · simp [takeInsertions, ih, outside, hi]
      · by_cases hin : first < i ∧ i ≤ last <;> simp [takeInsertions, ih, outside, hi, hin]
    · simp [takeInsertions, ih, outside]

theorem reduceReplacements_replace (before es : Edits) :
    reduceReplacements before (some (.replace first last text) :: es) =
      match (replaced first last text before).2.2 with
      | none => reduceReplacements ((replaced first last text before).1 ++
          [some (replacement first last text before)]) es
      | some k => ((replaced first last text before).1 ++
          some (replacement first last text before) :: es, some k) := by
  rw [reduceReplacements]
  simp only [takeInsertions_eq]
  unfold replacement replaced
  generalize takeReplacements _ _ _ _ = r
  obtain ⟨b, ⟨c, d⟩, k⟩ := r
  cases k <;> rfl

theorem getD_withInsertions (es : Edits) : (withInsertions first text es).getD "" =
    String.join (insertions first (present es)).reverse ++ text.getD "" := by
  unfold withInsertions
  generalize insertions first (present es) = us
  induction us generalizing text with
  | nil => simp
  | cons u us ih => simp [ih, String.append_assoc]

theorem present_map {g : Option Edit → Option Edit} {p : Edit → Bool} (hnone : g none = none)
    (hsome : ∀ e, g (some e) = if p e then some e else none) (es : Edits) :
    present (es.map g) = (present es).filter p := by
  induction es with
  | nil => rfl
  | cons e es ih =>
    cases e with
    | none => simpa [hnone] using ih
    | some e => cases hp : p e <;> simp [hsome, hp, ih]

theorem present_outside (first last : Int) (es : Edits) : present (es.map (outside first last)) =
    (present es).filter fun e =>
      e.replaces || !decide (e.index = first ∨ first < e.index ∧ e.index ≤ last) := by
  refine present_map rfl (fun e => ?_) es
  cases e with
  | insert i t =>
    by_cases hin : i = first ∨ first < i ∧ i ≤ last <;>
      simp [outside, Edit.replaces, Edit.index, hin]
  | replace f l t => rfl

theorem outside_sublist (first last : Int) (es : Edits) :
    (present (es.map (outside first last))).Sublist (present es) :=
  present_outside first last es ▸ filter_sublist

theorem present_outside_apart {es : Edits}
    (hapart : ∀ e ∈ present es, e.Apart (.replace first last none)) :
    present (es.map (outside first last)) = without first (present es) := by
  rw [present_outside]
  refine filter_congr fun e he => ?_
  cases e with
  | insert i t =>
    have hinside : ¬ (first < i ∧ i ≤ last) := hapart _ he
    by_cases hi : i = first <;> simp [Edit.replaces, Edit.index, hinside, hi]
  | replace f l t => rfl

/-- Behind edits that agree with it a replacement keeps its range. -/
theorem replaced_apart {es : Edits}
    (h : ∀ e ∈ present es, e.Proper ∧ e.Apart (.replace first last none)) :
    replaced first last text es = (es.map (outside first last), (first, last), none) := by
  have h := fun e he => h e ((outside_sublist first last es).subset he)
  unfold replaced
  generalize es.map (outside first last) = es at h
  induction es with
  | nil => rfl
  | cons e es ih =>
    rcases e with _ | ⟨i, t⟩ | ⟨f, l, t⟩
    · simp [takeReplacements, ih h]
    · simp [takeReplacements, ih (forall_mem_cons.mp h).2]
    · obtain ⟨⟨hrange, hdisjoint⟩, h⟩ := forall_mem_cons.mp h
      have hdisjoint : l < first ∨ last < f := hdisjoint
      have hrange : f ≤ l := hrange
      have hcover : ¬ (first ≤ f ∧ l ≤ last) := by omega
      simp [takeReplacements, hcover, hdisjoint, ih h]

theorem Agree.bounded (h : Agree size es) : Bounded size es := by
  intro i last hx
  obtain ⟨r, hr, rfl⟩ := Option.map_eq_some_iff.mp hx
  exact (h.within _ (exists_of_replacement? hr)).2

theorem Agree.apart_before (h : Agree size (before ++ .replace first last text :: es)) :
    ∀ e ∈ before, e.Apart (.replace first last none) := by
  obtain ⟨-, -, hcross⟩ := pairwise_append.mp h.apart
  intro e he
  have hapart := hcross e he (.replace first last text) mem_cons_self
  cases e with
  | insert i t => exact hapart
  | replace f l t => exact hapart

theorem Agree.replacement?_eq (h : Agree size (before ++ .replace first last text :: es)) :
    replacement? first before = none := by
  refine replacement?_eq_none.mpr fun e he => ?_
  have hapart := h.apart_before e he
  have hwithin := h.within e (mem_append_left _ he)
  cases e with
  | insert i t => rfl
  | replace f l t =>
    have hdisjoint : l < first ∨ last < f := hapart
    have hrange : 0 ≤ f ∧ f ≤ l ∧ l < (size : Int) := hwithin
    have hself : 0 ≤ first ∧ first ≤ last ∧ last < (size : Int) :=
      h.within (.replace first last text) (mem_append_right _ mem_cons_self)
    have hne : f ≠ first := by omega
    simp [Edit.replacement?, hne]

/-- Texts in front of a replacement may be made a part of it. -/
theorem Agree.alike_replacement {text' : Option String}
    (h : Agree size (before ++ .replace first last text :: es))
    (htext : text'.getD "" = String.join (insertions first before) ++ text.getD "") :
    Alike (before ++ .replace first last text :: es)
      (without first before ++ .replace first last text' :: es) := by
  have hbefore := h.replacement?_eq
  have hone := h.single (.replace first last text) (mem_append_right _ mem_cons_self) rfl
  simp only [Edit.index, insertions_append, insertions_replace, length_append] at hone
  refine ⟨fun i => ?_, fun i => ?_⟩
  · unfold lead
    by_cases hi : i = first
    · subst hi
      -- There is an insertion before the replacement or behind it, but not both.
      have hsplit : insertions i before = [] ∨ insertions i es = [] := by
        rcases Nat.eq_zero_or_pos (insertions i before).length with h0 | hpos
        · exact Or.inl (length_eq_zero_iff.mp h0)
        · exact Or.inr (length_eq_zero_iff.mp (by omega))
      rcases hsplit with hnone | hnone <;>
        simp [replacement?_append, hbefore, htext, hnone]
    · simp [insertions_without hi, replacement?_append, Ne.symm hi]
  · unfold extent
    by_cases hi : i = first
    · subst hi
      simp [replacement?_append, hbefore]
    · simp [replacement?_append, Ne.symm hi]

/-- The first pass finds no conflict in edits that agree. What it leaves agrees, writes the same,
and has no insertion before a replacement at the same token. -/
theorem reduceReplacements_spec {before es : Edits}
    (h : Agree size (present (before ++ es)))
    (hbehind : (present before).Pairwise Behind) :
    ∃ r, reduceReplacements before es = (r, none) ∧ Agree size (present r) ∧
      (present r).Pairwise Behind ∧
      Alike (present (before ++ es)) (present r) := by
  induction es generalizing before with
  | nil =>
    rw [append_nil] at h ⊢
    exact ⟨before, rfl, h, hbehind, .refl _⟩
  | cons e es ih =>
    have hshift : before ++ e :: es = (before ++ [e]) ++ es := by simp
    rcases e with _ | ⟨i, t⟩ | ⟨f, l, t⟩
    · rw [hshift] at h ⊢
      exact ih h (by simpa using hbehind)
    · rw [hshift] at h ⊢
      refine ih h ?_
      rw [present_append]
      exact pairwise_concat.mpr ⟨hbehind, fun e _ hr => by cases hr⟩
    · have hlist : present (before ++ some (.replace f l t) :: es) =
          present before ++ .replace f l t :: present es := by simp
      rw [hlist] at h ⊢
      have hapart := h.apart_before
      have hone : (insertions f (present before)).length ≤ 1 := by
        have := h.single (.replace f l t) (mem_append_right _ mem_cons_self) rfl
        rw [Edit.index, insertions_append, length_append] at this
        omega
      have htext : (withInsertions f t before).getD "" =
          String.join (insertions f (present before)) ++ t.getD "" := by
        rw [getD_withInsertions]
        match insertions f (present before), hone with
        | [], _ => rfl
        | [_], _ => rfl
      have htaken := present_outside_apart hapart
      have hrep := @replaced_apart f l t before fun e he =>
        ⟨(h.within e (mem_append_left _ he)).proper, hapart e he⟩
      have hsub := without_sublist f (present before)
      have hnext : present (before.map (outside f l) ++ [some (replacement f l t before)] ++ es) =
          without f (present before) ++ .replace f l (withInsertions f t before) :: present es := by
        simp [htaken, replacement, hrep]
      have hagree : Agree size (without f (present before) ++
          .replace f l (withInsertions f t before) :: present es) := by
        refine h.of_sublist ?_
        rw [map_append, map_append]
        exact (hsub.map _).append (List.Sublist.refl _)
      -- The insertions at the first token are gone.
      have hbehind' : (present (before.map (outside f l) ++
          [some (replacement f l t before)])).Pairwise Behind := by
        rw [present_append, htaken]
        refine pairwise_concat.mpr ⟨hbehind.sublist hsub, fun e he _ hr => ?_⟩
        have hkept := (mem_filter.mp he).2
        rw [replacement, hrep]
        change e.index ≠ f
        simpa [hr] using hkept
      obtain ⟨r, hr, hragree, hrbehind, hralike⟩ := ih (hnext ▸ hagree) hbehind'
      refine ⟨r, ?_, hragree, hrbehind, (h.alike_replacement htext).trans (hnext ▸ hralike)⟩
      rw [reduceReplacements_replace, hrep]
      exact hr

end Replacements

/-! ## Insertions are joined, and go in front of replacements -/

end Edits

/-- Puts a text in front of the replacement of a range that begins at a token. -/
def Edit.led (i : Int) (text : String) : Edit → Edit
  | insert j t => insert j t
  | replace first last t =>
    if first = i then replace first last (some (text ++ t.getD "")) else replace first last t

namespace Edits

section Insertions

variable {size : Nat} {i : Int} {text : String}

theorem shape_led (i : Int) (text : String) (e : Edit) : (e.led i text).shape = e.shape := by
  cases e with
  | insert j t => rfl
  | replace first last t =>
    rw [Edit.led]
    split <;> rfl

theorem index_led (i : Int) (text : String) (e : Edit) : (e.led i text).index = e.index :=
  index_congr (shape_led i text e)

@[simp] theorem insertions_led (i j : Int) (text : String) (es : List Edit) :
    insertions j (es.map (Edit.led i text)) = insertions j es := by
  induction es with
  | nil => rfl
  | cons e es ih =>
    cases e with
    | insert k t => simp [Edit.led, ih]
    | replace first last t =>
      by_cases h : first = i
      · simpa [Edit.led, h] using ih
      · simpa [Edit.led, h] using ih

theorem replacement?_led (i : Int) (text : String) (es : List Edit) :
    replacement? i (es.map (Edit.led i text)) =
      (replacement? i es).map fun r => (r.1, some (text ++ r.2.getD "")) := by
  induction es with
  | nil => rfl
  | cons e es ih =>
    cases e with
    | insert k t => exact ih
    | replace first last t =>
      by_cases h : first = i
      · simp [Edit.led, h]
      · simpa [Edit.led, h] using ih

theorem replacement?_led_other {j : Int} (hj : j ≠ i) (text : String) (es : List Edit) :
    replacement? j (es.map (Edit.led i text)) = replacement? j es := by
  induction es with
  | nil => rfl
  | cons e es ih =>
    cases e with
    | insert k t => exact ih
    | replace first last t =>
      by_cases h : first = i
      · simpa [Edit.led, h, Ne.symm hj] using ih
      · simp [Edit.led, h, ih]

/-- The text of an insertion behind those of the insertions before it at the same token, the last
one of which goes in front. -/
def joined (i : Int) (text : String) (es : List Edit) : String :=
  (insertions i es).foldl (fun acc t => t ++ acc) text

theorem joined_of_single (hone : (insertions i es).length ≤ 1) :
    joined i text es = String.join (insertions i es) ++ text := by
  unfold joined
  match insertions i es, hone with
  | [], _ => simp
  | [t], _ => simp

theorem joinInsertions_spec {es : Edits} :
    present (joinInsertions i text es).1 = without i (present es) ∧
      (joinInsertions i text es).2 = joined i text (present es) := by
  induction es generalizing text with
  | nil => exact ⟨rfl, rfl⟩
  | cons e es ih =>
    rcases e with _ | ⟨j, t⟩ | ⟨f, l, t⟩
    · exact ih
    · by_cases hj : j = i <;> simp [joinInsertions, joined, hj, ih]
    · simpa [joinInsertions, joined] using ih

/-- A text that is inserted at the beginning of a range goes in front of its text. -/
theorem meetReplacements_spec {es : Edits} (h : ∀ e ∈ present es, ¬ e.Encloses i) :
    ∃ r, meetReplacements i text es =
        (r, (replacement? i (present es)).isSome, none) ∧
      present r = (present es).map (Edit.led i text) := by
  induction es with
  | nil => exact ⟨[], rfl, rfl⟩
  | cons e es ih =>
    rcases e with _ | ⟨j, t⟩ | ⟨f, l, t⟩
    · obtain ⟨r, hr, hes⟩ := ih h
      exact ⟨none :: r, by simp [meetReplacements, hr], by simpa using hes⟩
    · obtain ⟨r, hr, hes⟩ := ih (forall_mem_cons.mp h).2
      exact ⟨some (.insert j t) :: r, by simp [meetReplacements, hr], by simp [hes, Edit.led]⟩
    · obtain ⟨hf, h⟩ := forall_mem_cons.mp h
      have hinside : ¬ (f < i ∧ i ≤ l) := hf
      obtain ⟨r, hr, hes⟩ := ih h
      -- The text is not inside of the range, so it is at its beginning or outside.
      by_cases hi : i = f
      · exact ⟨some (.replace f l (some (text ++ t.getD ""))) :: r,
          by simp [meetReplacements, hi, hi ▸ hr], by simp [hes, Edit.led, hi]⟩
      · have hmiss : ¬ (f ≤ i ∧ i ≤ l) := by omega
        exact ⟨some (.replace f l t) :: r,
          by simp [meetReplacements, hi, Ne.symm hi, hmiss, hr],
          by simp [hes, Edit.led, Ne.symm hi]⟩

/-- A text that is inserted inside of a range is in conflict with it. -/
theorem meetReplacements_encloses {es : Edits} (h : ∃ e ∈ present es, e.Encloses i) :
    (meetReplacements i text es).2.2.isSome = true := by
  induction es with
  | nil => simp at h
  | cons e es ih =>
    rcases e with _ | ⟨j, t⟩ | ⟨f, l, t⟩
    · exact ih h
    · exact ih (by simpa [Edit.Encloses] using h)
    · rw [meetReplacements]
      by_cases hi : i = f
      · -- such a range encloses no token at which it begins
        rw [if_pos hi]
        exact ih (by simpa [Edit.Encloses, hi] using h)
      · rw [if_neg hi]
        split
        · rfl
        · next hmiss =>
          refine ih ?_
          have hout : ¬ (f < i ∧ i ≤ l) := by omega
          simpa [Edit.Encloses, hout] using h

/-- What becomes of an insertion that was joined with others: it stays if no range begins at the
token. -/
def settled (i : Int) (text : String) (before : List Edit) : List Edit :=
  if (replacement? i before).isSome then [] else [.insert i text]

/-- What an insertion makes of the edits before it. -/
def met (i : Int) (text : String) (before : List Edit) : List Edit :=
  (without i before).map (Edit.led i (joined i text before)) ++
    settled i (joined i text before) before

theorem reduceInsertions_insert (before es : Edits) :
    reduceInsertions before (some (.insert i text) :: es) =
      let j := joinInsertions i text before
      let m := meetReplacements i j.2 j.1
      let self := if m.2.1 = true then none else some (.insert i j.2)
      match m.2.2 with
      | none => reduceInsertions (m.1 ++ [self]) es
      | some k => (m.1 ++ self :: es, some k) := rfl

theorem reduceInsertions_met {before es : Edits} (h : ∀ e ∈ present before, ¬ e.Encloses i) :
    ∃ b, present b = met i text (present before) ∧
      reduceInsertions before (some (.insert i text) :: es) = reduceInsertions b es := by
  obtain ⟨hjoined, htext⟩ := @joinInsertions_spec i text before
  rw [reduceInsertions_insert]
  generalize joinInsertions i text before = j at hjoined htext ⊢
  obtain ⟨rest, text'⟩ := j
  subst htext
  simp only at hjoined ⊢
  obtain ⟨r, hr, hes⟩ := @meetReplacements_spec i (joined i text (present before)) rest fun e he =>
    h e ((without_sublist i _).subset (hjoined ▸ he))
  rw [hjoined, replacement?_without] at hr
  rw [hr]
  refine ⟨_, ?_, rfl⟩
  rw [present_append, hes, hjoined, met, settled]
  split <;> rfl

theorem reduceInsertions_encloses {before es : Edits} (h : ∃ e ∈ present before, e.Encloses i) :
    (reduceInsertions before (some (.insert i text) :: es)).2.isSome = true := by
  have hjoined := (@joinInsertions_spec i text before).1
  have hstop := @meetReplacements_encloses i (joinInsertions i text before).2
    (joinInsertions i text before).1 ?_
  · obtain ⟨k, hk⟩ := Option.isSome_iff_exists.mp hstop
    rw [reduceInsertions_insert]
    simp only [hk]
    rfl
  · obtain ⟨e, he, hi⟩ := h
    refine ⟨e, ?_, hi⟩
    rw [hjoined]
    cases e with
    | insert j t => cases hi
    | replace f l t => simpa [without, Edit.replaces] using he

/-- Edits write the same after an insertion was joined with another one and went in front of a
replacement. -/
theorem Agree.alike_insertion {text' : String} (h : Agree size (before ++ .insert i text :: es))
    (htext : text' = String.join (insertions i before) ++ text) :
    Alike (before ++ .insert i text :: es)
      ((without i before).map (Edit.led i text') ++ settled i text' before ++ es) := by
  cases hb : replacement? i before with
  | none =>
    have hsettled : settled i text' before = [.insert i text'] := by simp [settled, hb]
    rw [hsettled]
    refine ⟨fun j => ?_, fun j => ?_⟩
    · unfold lead
      by_cases hj : j = i
      · subst hj
        simp [replacement?_append, replacement?_led, hb, htext, String.append_assoc]
      · simp [replacement?_append, replacement?_led_other hj, insertions_without hj,
          Ne.symm hj]
    · unfold extent
      by_cases hj : j = i
      · subst hj
        simp [replacement?_append, replacement?_led, hb]
      · simp [replacement?_append, replacement?_led_other hj]
  | some r =>
    have hsettled : settled i text' before = [] := by simp [settled, hb]
    -- There is no other insertion at the first token of a range.
    have hone := h.single _ (mem_append_left _ (exists_of_replacement? hb)) rfl
    simp only [Edit.index, insertions_append, insertions_insert, if_true, length_append,
      length_cons] at hone
    have hbefore : insertions i before = [] := length_eq_zero_iff.mp (by omega)
    have hes : insertions i es = [] := length_eq_zero_iff.mp (by omega)
    rw [hsettled]
    refine ⟨fun j => ?_, fun j => ?_⟩
    · unfold lead
      by_cases hj : j = i
      · subst hj
        simp [replacement?_append, replacement?_led, hb, htext, hbefore, hes]
      · simp [replacement?_append, replacement?_led_other hj, insertions_without hj,
          Ne.symm hj]
    · unfold extent
      by_cases hj : j = i
      · subst hj
        simp [replacement?_append, replacement?_led, hb]
      · simp [replacement?_append, replacement?_led_other hj]

/-- No two edits are for the same token. -/
def Distinct (es : List Edit) : Prop := es.Pairwise fun e f => e.index ≠ f.index

theorem length_insertions_of_ne
    (h : es.Pairwise fun e f => e.replaces = false → f.replaces = false → e.index ≠ f.index)
    (i : Int) : (insertions i es).length ≤ 1 := by
  induction es with
  | nil => simp
  | cons e es ih =>
    obtain ⟨he, hes⟩ := pairwise_cons.mp h
    cases e with
    | insert j t =>
      by_cases hj : j = i
      · -- Another insertion at the token would have the same index.
        have hnone : insertions i es = [] := by
          refine insertions_eq_nil.mpr fun f hf => ?_
          have hne := he f hf
          cases f with
          | insert k u =>
            have hk : k ≠ i := fun hk => hne rfl rfl (hj.trans hk.symm)
            simp [Edit.insertion?, hk]
          | replace first last u => rfl
        simp [hj, hnone]
      · simpa [hj] using ih hes
    | replace first last t => exact ih hes

theorem Distinct.length_insertions (h : Distinct es) (i : Int) : (insertions i es).length ≤ 1 :=
  length_insertions_of_ne (h.imp fun {_ _} hne _ _ => hne) i

theorem index_ne_of_without (hr : replacement? i es = none) : ∀ e ∈ without i es, e.index ≠ i := by
  intro e he
  obtain ⟨hmem, hkept⟩ := mem_filter.mp he
  cases e with
  | insert j t => simpa [Edit.replaces, Edit.index] using hkept
  | replace first last t =>
    intro hi
    have hnone := replacement?_eq_none.mp hr _ hmem
    simp [Edit.replacement?, show first = i from hi] at hnone

theorem sublist_settled (i : Int) (text t : String) (before es : List Edit) :
    (((without i before).map (Edit.led i text) ++ settled i text before ++ es).map
      Edit.shape).Sublist ((before ++ .insert i t :: es).map Edit.shape) := by
  have hled : Edit.shape ∘ Edit.led i text = Edit.shape := funext (shape_led i text)
  have hsettled : ((settled i text before).map Edit.shape).Sublist [Edit.insert i ""] := by
    unfold settled
    split
    · exact nil_sublist _
    · exact List.Sublist.refl _
  have hbefore := (without_sublist i before).map Edit.shape
  have hwhole := (hbefore.append hsettled).append (List.Sublist.refl (es.map Edit.shape))
  simpa [hled, Edit.shape] using hwhole

/-- An insertion leaves one edit for each token. -/
theorem Distinct.settled (h : Distinct before) (i : Int) (text : String) :
    Distinct ((without i before).map (Edit.led i text) ++ Edits.settled i text before) := by
  have hindex : ∀ {e f : Edit}, e.index ≠ f.index →
      (e.led i text).index ≠ (f.led i text).index := by
    intro e f hne
    rwa [index_led, index_led]
  refine pairwise_append.mpr ⟨?_, ?_, ?_⟩
  · exact pairwise_map.mpr ((h.sublist (without_sublist i before)).imp hindex)
  · unfold Edits.settled
    split
    · exact List.Pairwise.nil
    · exact pairwise_singleton _ _
  · intro e he f hf
    unfold Edits.settled at hf
    split at hf
    · cases hf
    · next hr =>
      cases mem_singleton.mp hf
      obtain ⟨e₀, he₀, rfl⟩ := mem_map.mp he
      rw [index_led]
      -- The new insertion is alone at its token, for those before it were joined with it.
      exact index_ne_of_without (i := i) (by simpa using hr) e₀ he₀

/-- The second pass finds no conflict in edits that agree, if no insertion stands before a
replacement at the same token. What it leaves agrees, writes the same, and has one edit for each
token at most. -/
theorem reduceInsertions_spec {before es : Edits}
    (h : Agree size (present (before ++ es)))
    (hbehind : (present (before ++ es)).Pairwise Behind)
    (hdistinct : Distinct (present before)) :
    ∃ r, reduceInsertions before es = (r, none) ∧ Agree size (present r) ∧
      Distinct (present r) ∧ Alike (present (before ++ es)) (present r) := by
  induction es generalizing before with
  | nil =>
    rw [append_nil] at h ⊢
    exact ⟨before, rfl, h, hdistinct, .refl _⟩
  | cons e es ih =>
    have hshift : before ++ e :: es = (before ++ [e]) ++ es := by simp
    rcases e with _ | ⟨i, t⟩ | ⟨f, l, t⟩
    · rw [hshift] at h hbehind ⊢
      exact ih h hbehind (by simpa using hdistinct)
    · have hlist : present (before ++ some (.insert i t) :: es) =
          present before ++ .insert i t :: present es := by simp
      rw [hlist] at h hbehind ⊢
      have hmiss : ∀ e ∈ present before, ¬ e.Encloses i := by
        obtain ⟨-, -, hcross⟩ := pairwise_append.mp h.apart
        intro e he hin
        have hapart := hcross e he (.insert i t) mem_cons_self
        cases e with
        | insert j u => cases hin
        | replace first last u => exact hapart hin
      obtain ⟨b, hb, hstep⟩ := @reduceInsertions_met i t before es hmiss
      have hnext : present (b ++ es) = met i t (present before) ++ present es := by
        rw [present_append, hb]
      have hsublist := sublist_settled i (joined i t (present before)) t (present before)
        (present es)
      obtain ⟨r, hr, hragree, hrdistinct, hralike⟩ := @ih b (hnext ▸ h.of_sublist hsublist)
        (hnext ▸ pairwise_of_sublist behind_congr hsublist hbehind) (hb ▸ hdistinct.settled i _)
      have hjoined := @joined_of_single _ i t (hdistinct.length_insertions i)
      exact ⟨r, hstep.trans hr, hragree, hrdistinct,
        (h.alike_insertion hjoined).trans (hnext ▸ hralike)⟩
    · -- No edit at the first token of the range comes before it.
      have hlist : present (before ++ some (.replace f l t) :: es) =
          present before ++ .replace f l t :: present es := by simp
      have hfirst : ∀ e ∈ present before, e.index ≠ f := by
        rw [hlist] at h hbehind
        obtain ⟨-, -, hcross⟩ := pairwise_append.mp hbehind
        intro e he hindex
        have hkind := hcross e he (.replace f l t) mem_cons_self rfl
        cases e with
        | insert j u => exact hkind rfl hindex
        | replace first last u =>
          have hnone := replacement?_eq_none.mp h.replacement?_eq _ he
          simp [Edit.replacement?, show first = f from hindex] at hnone
      rw [hshift] at h hbehind ⊢
      refine ih h hbehind ?_
      rw [present_append]
      exact pairwise_concat.mpr ⟨hdistinct, hfirst⟩

end Insertions

/-- Edits that agree are reduced without a conflict to edits that agree and write the same, with one
edit for each token at most. -/
theorem reduce_spec {size : Nat} {es : Edits} (h : Agree size (present es)) :
    ∃ r, es.reduce = (r, none) ∧ Agree size (present r) ∧ Distinct (present r) ∧
      Alike (present es) (present r) := by
  obtain ⟨r₁, hr₁, hagree₁, hbehind, halike₁⟩ :=
    @reduceReplacements_spec size [] es h List.Pairwise.nil
  obtain ⟨r, hr, hagree, hdistinct, halike⟩ :=
    @reduceInsertions_spec size [] r₁ hagree₁ hbehind List.Pairwise.nil
  refine ⟨r, ?_, hagree, hdistinct, halike₁.trans halike⟩
  rw [reduce, hr₁]
  exact hr

end Edits

end Resumable
