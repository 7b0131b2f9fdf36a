import Resumable.Proofs.Numbering

/-!
# Labels in a text

The printed code of a function is a list of lines. A line is a label if it begins with one, and a
jump if it is a case of the dispatch. In all other lines no colon comes before a question mark,
because names, operators and literals have none: only a conditional expression and the lines for
states do.

* `quiet_of_plain`: a plain line is neither a label nor a jump.
* `Counted`: how many labels and jumps there are among some lines.
-/

namespace Resumable

variable {k j : Nat} {line s t : String} {xs ys rest : List Char} {ch : Char} {ms ns : List Mark}

namespace Text

/-! ## Plain texts -/

/-- The characters that make a label or a jump. -/
def isSign (ch : Char) : Bool := ch == ':' || ch == '?'

/-- Whether the first sign of a text, if there is one, is a question mark. -/
def plainChars (cs : List Char) : Bool := cs.find? isSign != some ':'

/-- Whether no colon comes before all question marks of a text. -/
def plain (s : String) : Bool := plainChars s.toList

/-- Whether there is no sign in a text. -/
def signless (s : String) : Bool := s.toList.all fun ch => !isSign ch

theorem plainChars_append (hx : plainChars xs = true) (hy : plainChars ys = true) :
    plainChars (xs ++ ys) = true := by
  unfold plainChars at *
  rw [List.find?_append]
  cases h : xs.find? isSign with
  | none => simpa [h] using hy
  | some ch => simpa [h] using hx

/-- Behind a question mark anything can come. -/
theorem plainChars_question (hx : plainChars xs = true) : plainChars (xs ++ '?' :: ys) = true := by
  unfold plainChars at *
  rw [List.find?_append]
  cases h : xs.find? isSign with
  | none => simp [isSign]
  | some ch => simpa [h] using hx

theorem plain_append (hs : plain s = true) (ht : plain t = true) : plain (s ++ t) = true := by
  unfold plain at *
  rw [String.toList_append]
  exact plainChars_append hs ht

theorem plain_of_signless (h : signless s = true) : plain s = true := by
  unfold signless at h
  unfold plain plainChars
  rw [List.all_eq_true] at h
  have hnone : s.toList.find? isSign = none := by
    rw [List.find?_eq_none]
    intro ch hch
    simpa using h ch hch
  rw [hnone]
  rfl

/-- A colon is not plain if no sign comes before it. -/
theorem not_plainChars (hx : ∀ ch ∈ xs, isSign ch = false) :
    plainChars (xs ++ ':' :: ys) = false := by
  have hnone : xs.find? isSign = none := by
    rw [List.find?_eq_none]
    intro ch hch
    simp [hx ch hch]
  simp [plainChars, List.find?_append, hnone, isSign]

/-! ## Numbers in a text -/

theorem toList_number (k : Nat) : (toString k).toList = Nat.toDigits 10 k := by
  rw [Nat.toString_eq_ofList_toDigits, String.toList_ofList]

theorem isSign_of_mem_number (h : ch ∈ (toString k).toList) : isSign ch = false := by
  rw [toList_number] at h
  have hdigit := Nat.isDigit_of_mem_toDigits (by decide) (by decide) h
  unfold isSign
  cases hc : ch == ':' with
  | true =>
    rw [beq_iff_eq] at hc
    subst hc
    cases hdigit
  | false =>
    cases hq : ch == '?' with
    | true =>
      rw [beq_iff_eq] at hq
      subst hq
      cases hdigit
    | false => rfl

theorem signless_number (k : Nat) : signless (toString k) = true := by
  rw [signless, List.all_eq_true]
  intro ch hch
  rw [isSign_of_mem_number hch]
  rfl

theorem number_injective (h : (toString j).toList = (toString k).toList) : j = k := by
  rw [toList_number, toList_number] at h
  have hj := Nat.ofDigitChars_ten_toDigits (n := j)
  rw [h, Nat.ofDigitChars_ten_toDigits] at hj
  exact hj.symm

/-- Texts are divided at their first colon in one way only. -/
theorem split_colon {us vs : List Char} (hx : ∀ ch ∈ xs, isSign ch = false)
    (hy : ∀ ch ∈ ys, isSign ch = false) (h : xs ++ ':' :: us = ys ++ ':' :: vs) :
    xs = ys ∧ us = vs := by
  -- Along both texts in front of the colon, character by character.
  induction xs generalizing ys with
  | nil =>
    cases ys with
    | nil => simpa using h
    | cons y ys =>
      rw [List.nil_append, List.cons_append, List.cons.injEq] at h
      have hsign := hy y List.mem_cons_self
      rw [← h.1] at hsign
      cases hsign
  | cons x xs ih =>
    cases ys with
    | nil =>
      rw [List.nil_append, List.cons_append, List.cons.injEq] at h
      have hsign := hx x List.mem_cons_self
      rw [h.1] at hsign
      cases hsign
    | cons y ys =>
      rw [List.cons_append, List.cons_append, List.cons.injEq] at h
      obtain ⟨rfl, h⟩ := h
      obtain ⟨rfl, rfl⟩ := ih (fun ch hch => hx ch (List.mem_cons_of_mem _ hch))
        (fun ch hch => hy ch (List.mem_cons_of_mem _ hch)) h
      exact ⟨rfl, rfl⟩

end Text

open Text

/-! ## Labels and jumps -/

/-- Whether a line begins with the label of a state. -/
def isLabel (k : Nat) (line : String) : Bool :=
  ("label_" ++ toString k ++ ":").toList.isPrefixOf line.toList

/-- The case of the dispatch for a state. -/
def jumpLine (k : Nat) : String :=
  "case " ++ toString k ++ ": goto label_" ++ toString k ++ ";"

theorem isLabel_iff :
    isLabel k line = true ↔
      ∃ rest, line.toList = ("label_".toList ++ (toString k).toList) ++ ':' :: rest := by
  rw [isLabel, String.toList_append, String.toList_append, List.isPrefixOf_iff_prefix]
  constructor
  · rintro ⟨rest, h⟩
    exact ⟨rest, by rw [← h, List.append_assoc _ ":".toList]; rfl⟩
  · rintro ⟨rest, h⟩
    exact ⟨rest, by rw [h, List.append_assoc _ ":".toList]; rfl⟩

theorem toList_jumpLine (k : Nat) :
    (jumpLine k).toList = ("case ".toList ++ (toString k).toList) ++
      ':' :: (" goto label_".toList ++ (toString k).toList ++ ";".toList) := by
  simp only [jumpLine, String.toList_append, List.append_assoc]
  rfl

theorem isSign_of_mem_numbered {word : String} (hw : signless word = true) :
    ∀ ch ∈ word.toList ++ (toString k).toList, isSign ch = false := by
  intro ch hch
  rcases List.mem_append.mp hch with hch | hch
  · simpa using List.all_eq_true.mp hw ch hch
  · exact isSign_of_mem_number hch

/-- A line that is no label and no jump. -/
def Quiet (line : String) : Prop := ∀ k : Nat, isLabel k line = false ∧ line ≠ jumpLine k

theorem quiet_of_plain (h : plain line = true) : Quiet line := by
  intro k
  constructor
  · rw [Bool.eq_false_iff]
    intro hl
    obtain ⟨rest, hrest⟩ := isLabel_iff.mp hl
    rw [plain, hrest, not_plainChars (isSign_of_mem_numbered rfl)] at h
    cases h
  · rintro rfl
    rw [plain, toList_jumpLine, not_plainChars (isSign_of_mem_numbered rfl)] at h
    cases h

def Text.head? (s : String) : Option Char := s.toList.head?

theorem Text.head?_append (h : head? s = some ch) : head? (s ++ t) = some ch := by
  unfold head? at *
  rw [String.toList_append, List.head?_append, h]
  rfl

/-- A line that begins with another letter is neither a label nor a jump. -/
theorem quiet_of_head (h : head? line = some ch) (hl : ch ≠ 'l') (hc : ch ≠ 'c') : Quiet line := by
  intro k
  constructor
  · rw [Bool.eq_false_iff]
    intro hlabel
    obtain ⟨rest, hrest⟩ := isLabel_iff.mp hlabel
    rw [head?, hrest] at h
    exact hl (Option.some.inj h).symm
  · rintro rfl
    rw [head?, toList_jumpLine] at h
    exact hc (Option.some.inj h).symm

/-- A line that begins with a label begins with no other one. -/
theorem isLabel_numbered
    (h : line.toList = ("label_".toList ++ (toString k).toList) ++ ':' :: rest) :
    isLabel j line = decide (k = j) := by
  by_cases hjk : k = j
  · subst hjk
    rw [isLabel_iff.mpr ⟨rest, h⟩, decide_eq_true rfl]
  · rw [decide_eq_false hjk, Bool.eq_false_iff]
    intro hl
    obtain ⟨rest', hrest⟩ := isLabel_iff.mp hl
    rw [h] at hrest
    obtain ⟨hname, -⟩ := split_colon (isSign_of_mem_numbered rfl) (isSign_of_mem_numbered rfl) hrest
    exact hjk (number_injective (List.append_cancel_left hname))

theorem ne_jumpLine_of_label
    (h : line.toList = ("label_".toList ++ (toString k).toList) ++ ':' :: rest) :
    line ≠ jumpLine j := by
  rintro rfl
  rw [toList_jumpLine] at h
  exact absurd (List.cons.inj h).1 (by decide)

theorem jumpLine_injective (h : jumpLine j = jumpLine k) : j = k := by
  have hl := congrArg String.toList h
  rw [toList_jumpLine, toList_jumpLine] at hl
  obtain ⟨hname, -⟩ := split_colon (isSign_of_mem_numbered rfl) (isSign_of_mem_numbered rfl) hl
  exact number_injective (List.append_cancel_left hname)

theorem isLabel_jumpLine (j k : Nat) : isLabel j (jumpLine k) = false := by
  rw [Bool.eq_false_iff]
  intro hl
  obtain ⟨rest, hrest⟩ := isLabel_iff.mp hl
  rw [toList_jumpLine] at hrest
  exact absurd (List.cons.inj hrest).1 (by decide)

/-! ## Counting -/

/-- Whether a mark is a dispatch with a case for a state. -/
def Mark.reaches (k : Nat) : Mark → Bool
  | .dispatch (some last) => 1 ≤ k && (k : Int) ≤ last
  | _ => false

/-- Lines have a label for each cut and a jump for each case that marks have. -/
structure Counted (lines : List String) (ms : List Mark) : Prop where
  labels : ∀ k : Nat, lines.countP (isLabel k) = ms.count (.cut (some (k : Int)))
  jumps : ∀ k : Nat, lines.count (jumpLine k) = ms.countP (·.reaches k)

theorem counted_append {xs ys : List String} (hx : Counted xs ms) (hy : Counted ys ns) :
    Counted (xs ++ ys) (ms ++ ns) where
  labels k := by rw [List.countP_append, List.count_append, hx.labels, hy.labels]
  jumps k := by rw [List.count_append, List.countP_append, hx.jumps, hy.jumps]

theorem counted_of_quiet {xs : List String} (h : ∀ x ∈ xs, Quiet x) : Counted xs [] where
  labels k := by
    rw [List.count_nil, List.countP_eq_zero]
    intro x hx
    simp [(h x hx k).1]
  jumps k := by
    rw [List.countP_nil, List.count_eq_zero]
    intro hmem
    exact (h _ hmem k).2 rfl

/-- A label is counted once. -/
theorem counted_label (h : line.toList = ("label_".toList ++ (toString k).toList) ++ ':' :: rest) :
    Counted [line] [.cut (some (k : Int))] where
  labels j := by
    rw [List.countP_singleton, isLabel_numbered h, List.count_singleton]
    by_cases hjk : k = j
    · simp [hjk]
    · have hint : ¬(k : Int) = j := fun h => hjk (Int.ofNat.inj h)
      simp [hjk, hint]
  jumps j := by
    rw [List.count_singleton, List.countP_singleton]
    simp [ne_jumpLine_of_label h, Mark.reaches]

theorem counted_perm {xs : List String} (h : Counted xs ms) (hp : ms.Perm ns) :
    Counted xs ns where
  labels k := by rw [h.labels, hp.count_eq]
  jumps k := by rw [h.jumps, hp.countP_eq]

end Resumable
