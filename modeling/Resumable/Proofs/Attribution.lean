import Resumable.Proofs.Fields
import Resumable.Proofs.Lines

/-!
# The lines of a text and the lines of its source

A reader of a printed text numbers its lines: a line directive gives the next line a number in some
file, and from there on the lines are counted. The listing counts too, and writes a directive only
where it takes the two counts to differ.

They agree from the first directive on that the listing writes itself, up to a line of the listing
that is more than one line of the text, or that is a directive of the source. From there on they may
differ until the next directive of the listing, and so they may before the first one.

* `Listing.inStep_enterAll`: while nothing of this kind is entered, the two counts agree.
* `Compilation.printed_line_attributed`: so a line that ends a statement is attributed to the line
  of the source that the statement comes from.
-/

namespace Resumable

open List

/-! ## Reading -/

/-- The file and the number of a line. Without a file, the line is counted in the text itself. -/
structure Whence where
  file : Option (List Char) := none
  line : Int := 1
deriving DecidableEq

namespace Whence

/-- Whether a character is a blank or a tab. -/
def isSpace (ch : Char) : Bool := ch = ' ' || ch = '\t'

/-- The file and the line that a directive gives to the next line. -/
def directive? (line : List Char) : Option Whence :=
  match line.dropWhile isSpace with
  | '#' :: rest =>
    match rest.dropWhile isSpace with
    | 'l' :: 'i' :: 'n' :: 'e' :: rest =>
      let rest := rest.dropWhile isSpace
      match rest.takeWhile Char.isDigit, (rest.dropWhile Char.isDigit).dropWhile isSpace with
      | d :: ds, '"' :: name =>
        some ⟨some (name.takeWhile (· ≠ '"')), Nat.ofDigitChars 10 (d :: ds) 0⟩
      | _, _ => none
    | _ => none
  | _ => none

/-- The place of the next line. -/
def next (p : Whence) (line : List Char) : Whence :=
  (directive? line).getD { p with line := p.line + 1 }

end Whence

/-- A reader of a text: the place of the line that it is in, and what it has seen of that line. -/
structure Reader where
  place : Whence := {}
  seen : List Char := []
deriving DecidableEq

namespace Reader

/-- One character more. -/
def step (r : Reader) (ch : Char) : Reader :=
  if ch = '\n' then ⟨r.place.next r.seen, []⟩ else { r with seen := r.seen ++ [ch] }

/-- A whole text. -/
def read (cs : List Char) : Reader := cs.foldl step {}

variable {r : Reader} {cs : List Char}

theorem foldl_step (h : '\n' ∉ cs) : cs.foldl step r = { r with seen := r.seen ++ cs } := by
  induction cs generalizing r with
  | nil => simp
  | cons ch cs ih =>
    rw [mem_cons, not_or] at h
    rw [foldl_cons, ih h.2, step, if_neg (Ne.symm h.1), append_assoc]
    rfl

theorem foldl_line (hr : r.seen = []) (h : '\n' ∉ cs) :
    (cs ++ ['\n']).foldl step r = ⟨r.place.next cs, []⟩ := by
  rw [foldl_append, foldl_step h, hr]
  rfl

end Reader

theorem isDigit_of_mem {k : Nat} {ch : Char} (h : ch ∈ Nat.toDigits 10 k) : ch.isDigit = true :=
  Nat.isDigit_of_mem_toDigits (by decide) (by decide) h

theorem toList_directive (k : Nat) (file : String) :
    (s!"#line {(k : Int)} \"" ++ file ++ "\"").toList = '#' :: 'l' :: 'i' :: 'n' :: 'e' :: ' ' ::
      (Nat.toDigits 10 k ++ ' ' :: '"' :: (file.toList ++ ['"'])) := by
  rw [← Text.toList_number]
  simp [toString, Int.repr]

/-- A directive of the listing is read as it was meant. -/
theorem Whence.directive?_line (k : Nat) {file : String} (hfile : '"' ∉ file.toList) :
    directive? (s!"#line {(k : Int)} \"" ++ file ++ "\"").toList = some ⟨some file.toList, k⟩ := by
  have hname : (file.toList ++ ['"']).takeWhile (· ≠ '"') = file.toList := by
    have hfree : ∀ ch ∈ file.toList, decide (ch ≠ '"') = true := fun ch hch =>
      decide_eq_true fun h => hfile (h ▸ hch)
    rw [takeWhile_append_of_pos hfree]
    simp
  have hvalue := Nat.ofDigitChars_ten_toDigits (n := k)
  -- The first characters are known, so the reader can be run over them.
  have hopen : ∀ xs, directive? ('#' :: 'l' :: 'i' :: 'n' :: 'e' :: ' ' :: xs) =
      match (xs.dropWhile isSpace).takeWhile Char.isDigit,
        ((xs.dropWhile isSpace).dropWhile Char.isDigit).dropWhile isSpace with
      | d :: ds, '"' :: name =>
        some ⟨some (name.takeWhile (· ≠ '"')), Nat.ofDigitChars 10 (d :: ds) 0⟩
      | _, _ => none := fun _ => rfl
  rw [toList_directive, hopen]
  cases hk : Nat.toDigits 10 k with
  | nil => exact absurd hk Nat.toDigits_ne_nil
  | cons d ds =>
    have hdigits : ∀ ch ∈ d :: ds, ch.isDigit = true := fun ch hch => isDigit_of_mem (hk ▸ hch)
    rw [hk] at hvalue
    -- A digit is no blank, so that the number begins where the blanks end.
    have hd : ¬ isSpace d = true := by
      intro hspace
      have hdigit := hdigits d mem_cons_self
      rcases (Bool.or_eq_true _ _).mp hspace with h | h <;> simp_all [of_decide_eq_true h]
    rw [cons_append, dropWhile_cons_of_neg hd, ← cons_append,
      takeWhile_append_of_pos hdigits, dropWhile_append_of_pos hdigits]
    simpa [isSpace, hvalue] using hname

/-! ## Being in step -/

/-- The line that the end of a statement is attributed to. -/
def Origin.goal? (o : Origin) (useFirst : Bool) : Option Int :=
  o.lines?.map fun p => if useFirst then p.1 else p.2

namespace Listing

variable {l : Listing} {s : String} {target : Nat}

/-- The characters of the lines that are written. -/
def chars (l : Listing) : List Char := l.lines.flatMap fun s => s.toList ++ ['\n']

/-- A reader behind the finished lines is where the listing takes it to be. -/
def InStep (l : Listing) : Prop := Reader.read l.chars = ⟨⟨some l.file.toList, l.line⟩, []⟩

/-- A line of a listing that is one line of the text and no directive. -/
def calm (s : String) : Bool := !s.toList.contains '\n' && (Whence.directive? s.toList).isNone

/-- Whether the listing writes a directive before it goes to a line. -/
def directs (l : Listing) (target : Int) : Bool :=
  !(l.line ≠ 0 && l.line ≤ target && target < l.line + 4)

/-- Whether the counts agree behind the entry. -/
def keeps (l : Listing) (inStep : Bool) : Entry → Bool
  | .piece _ => inStep
  | .line s => inStep && calm s
  | .stop o useFirst =>
    if l.current = "" then inStep
    else
      calm l.current &&
        match o.goal? useFirst with
        | some target => 0 ≤ target && (inStep || l.directs target)
        | none => inStep

/-- Whether the counts agree behind all entries. -/
def steady (l : Listing) (inStep : Bool) : List Entry → Bool
  | [] => inStep
  | e :: es => (l.enter e).steady (l.keeps inStep e) es

theorem read_chars_push (l : Listing) (s : String) :
    Reader.read (l.push s).chars =
      (s.toList ++ ['\n']).foldl Reader.step (Reader.read l.chars) := by
  simp [push, chars, Reader.read]

theorem seen_chars (l : Listing) : (Reader.read l.chars).seen = [] := by
  unfold chars
  induction l.lines using List.reverseRecOn with
  | nil => rfl
  | append_singleton ls s _ => simp [Reader.read, Reader.step]

theorem read_push (h : '\n' ∉ s.toList) :
    Reader.read (l.push s).chars = ⟨(Reader.read l.chars).place.next s.toList, []⟩ := by
  rw [read_chars_push, Reader.foldl_line (seen_chars l) h]

/-- A calm line counts as one on both sides. -/
theorem InStep.push (hl : l.InStep) (hs : calm s = true) : (l.push s).InStep := by
  simp only [calm, Bool.and_eq_true, Bool.not_eq_true', Option.isNone_iff_eq_none] at hs
  have hline : '\n' ∉ s.toList := by simpa using hs.1
  rw [InStep, read_push hline, show Reader.read l.chars = _ from hl, Whence.next, hs.2]
  rfl

theorem InStep.blank (hl : l.InStep) (k : Nat) :
    ({ l with lines := l.lines ++ List.replicate k "", line := l.line + k } : Listing).InStep := by
  induction k with
  | zero => simpa using hl
  | succ k ih =>
    have hnext := ih.push (s := "") rfl
    rw [Listing.push] at hnext
    simpa [replicate_succ', add_assoc] using hnext

variable (hfile : '"' ∉ l.file.toList ∧ '\n' ∉ l.file.toList)

include hfile in
/-- Behind a directive the counts agree. -/
theorem inStep_moveTo (h : l.directs target = true ∨ l.InStep) : (l.moveTo target).InStep := by
  unfold moveTo
  split
  · next hsame =>
    refine h.resolve_left ?_
    simp [directs, hsame]
  · split
    · next hnear =>
      have hl : l.InStep := h.resolve_left (by simp [directs, hnear, le_of_lt hnear.2.1])
      have hblank := hl.blank (target - l.line).toNat
      have hsum : l.line + ((target - l.line).toNat : Int) = target := by omega
      rwa [hsum] at hblank
    · -- the line before does not matter
      have hline : '\n' ∉ (s!"#line {(target : Int)} \"" ++ l.file ++ "\"").toList := by
        rw [toList_directive]
        have hdigit : '\n' ∉ Nat.toDigits 10 target := fun h => by cases isDigit_of_mem h
        simp [hdigit, hfile.2]
      have hread := read_push (l := l) hline
      rw [Whence.next, Whence.directive?_line target hfile.1] at hread
      exact hread

theorem moveTo_frame (l : Listing) (target : Int) : (l.moveTo target).file = l.file ∧
    (l.moveTo target).current = l.current ∧ (l.moveTo target).line = target ∧
      l.lines <+: (l.moveTo target).lines := by
  unfold moveTo
  split_ifs with hsame
  · exact ⟨rfl, rfl, hsame.2.symm, prefix_rfl⟩
  · exact ⟨rfl, rfl, rfl, prefix_append _ _⟩
  · exact ⟨rfl, rfl, rfl, prefix_append _ _⟩

theorem endStatement_eq (o : Origin) (useFirst : Bool) (hcurrent : l.current ≠ "") :
    l.endStatement o useFirst =
      { ((o.goal? useFirst).elim l l.moveTo).push l.current with current := "" } := by
  rw [endStatement, if_neg hcurrent, Origin.goal?]
  cases o.lines? with
  | none => rfl
  | some p => simp [(l.moveTo_frame _).2.1]

theorem InStep.congr {l' : Listing} (h : l.InStep) (hfile : l'.file = l.file)
    (hlines : l'.lines = l.lines) (hline : l'.line = l.line) : l'.InStep := by
  rw [InStep, chars, hfile, hlines, hline]
  exact h

include hfile in
/-- One entry. -/
theorem inStep_enter {b : Bool} (h : b = true → l.InStep) (e : Entry) (hb : l.keeps b e = true) :
    (l.enter e).InStep := by
  cases e with
  | piece s => exact (h hb).congr rfl rfl rfl
  | line s =>
    obtain ⟨hb, hs⟩ := (Bool.and_eq_true _ _).mp hb
    exact (h hb).push hs
  | stop o useFirst =>
    rw [keeps] at hb
    split at hb
    · next hcurrent =>
      rw [enter, endStatement, if_pos hcurrent]
      exact h hb
    · next hcurrent =>
      obtain ⟨hcalm, hb⟩ := (Bool.and_eq_true _ _).mp hb
      rw [enter, endStatement_eq o useFirst hcurrent]
      -- The listing goes to the line of the statement first, and then writes it.
      suffices hmove : ((o.goal? useFirst).elim l l.moveTo).InStep from
        (hmove.push hcalm).congr rfl rfl rfl
      cases hgoal : o.goal? useFirst with
      | none =>
        rw [hgoal] at hb
        exact h hb
      | some target =>
        simp only [hgoal, Bool.and_eq_true, Bool.or_eq_true, decide_eq_true_eq] at hb
        obtain ⟨target, rfl⟩ := Int.eq_ofNat_of_zero_le hb.1
        exact inStep_moveTo hfile (hb.2.symm.imp_right h)

theorem enter_frame (l : Listing) (e : Entry) :
    (l.enter e).file = l.file ∧ l.lines <+: (l.enter e).lines := by
  cases e with
  | piece s => exact ⟨rfl, prefix_rfl⟩
  | line s => exact ⟨rfl, prefix_append _ _⟩
  | stop o useFirst =>
    by_cases hcurrent : l.current = ""
    · rw [enter, endStatement, if_pos hcurrent]
      exact ⟨rfl, prefix_rfl⟩
    · rw [enter, endStatement_eq o useFirst hcurrent]
      cases o.goal? useFirst with
      | none => exact ⟨rfl, prefix_append _ _⟩
      | some target =>
        obtain ⟨hfile, -, -, hlines⟩ := l.moveTo_frame target
        exact ⟨hfile, hlines.trans (prefix_append _ _)⟩

/-- Lines that are written stay, and the file is the same. -/
theorem enterAll_frame (l : Listing) (es : List Entry) :
    (l.enterAll es).file = l.file ∧ l.lines <+: (l.enterAll es).lines := by
  induction es generalizing l with
  | nil => exact ⟨rfl, prefix_rfl⟩
  | cons e es ih =>
    obtain ⟨hfile, hlines⟩ := l.enter_frame e
    obtain ⟨hfile', hlines'⟩ := ih (l.enter e)
    exact ⟨hfile'.trans hfile, hlines.trans hlines'⟩

/-- All entries, one after the other. -/
theorem inStep_enterAll (hfile : '"' ∉ l.file.toList ∧ '\n' ∉ l.file.toList) {b : Bool}
    (h : b = true → l.InStep) {es : List Entry} (hb : l.steady b es = true) :
    (l.enterAll es).InStep := by
  induction es generalizing l b with
  | nil => exact h hb
  | cons e es ih =>
    exact ih (by rwa [(l.enter_frame e).1]) (fun he => inStep_enter hfile h e he) hb

theorem toList_text {text : String} (h : l.text = .ok text) : text.toList = l.chars := by
  unfold Listing.text at h
  split at h
  · cases h
  · cases h
    rw [String.toList_join, flatMap_map, chars]
    simp

end Listing

/-! ## Printed texts -/

/-- In a text the current line of a listing is attributed to a line of the source: it stands behind
the finished lines and what leads to that line, and there a reader is in the file and the line. -/
def Listing.Attributed (l : Listing) (target : Int) (text : String) : Prop :=
  ∃ rest, text.toList = (l.moveTo target).chars ++ l.current.toList ++ '\n' :: rest ∧
    Reader.read (l.moveTo target).chars = ⟨⟨some l.file.toList, target⟩, []⟩

/-- What ends a statement is attributed to the line that the statement comes from, if the reader is
in step there, or if a directive is written for it. -/
theorem Compilation.printed_line_attributed {product : Product} {file text : String}
    {c c' : Compilation} (h : print product file c = .ok text c')
    (hfile : ∀ ch ∈ file.toList, ch ≠ '"' ∧ ch ≠ '\\' ∧ ch ≠ '\n') {before : List Entry}
    {o : Origin} {useFirst : Bool} {target : Nat} {l : Listing}
    (hl : l = ({ file } : Listing).enterAll before) (hcurrent : l.current ≠ "")
    (hend : before ++ [.stop o useFirst] <+: (Scene.entries none c.tree (c.scene product)).1)
    (hgoal : o.goal? useFirst = some (target : Int))
    (hstep : ({ file } : Listing).steady false before = true ∨ l.directs target = true) :
    l.Attributed target text := by
  have hfile' : '"' ∉ file.toList ∧ '\n' ∉ file.toList :=
    ⟨fun h => (hfile _ h).1 rfl, fun h => (hfile _ h).2.2 rfl⟩
  have hmoved : (l.moveTo target).InStep := by
    have hlfile : l.file = file := hl ▸ (Listing.enterAll_frame _ _).1
    refine Listing.inStep_moveTo (by rwa [hlfile]) (hstep.symm.imp_right fun h => ?_)
    exact hl ▸ Listing.inStep_enterAll (b := false) hfile' (by simp) h
  obtain ⟨hsame, -, hline, -⟩ := l.moveTo_frame target
  rw [Listing.InStep, hsame, hline] at hmoved
  -- what follows is behind the line
  obtain ⟨behind, hes⟩ := hend
  have htext : ((l.enter (.stop o useFirst)).enterAll behind).text = .ok text := by
    rw [hl, ← text_of_print h, ← hes]
    simp [Listing.enterAll]
  obtain ⟨more, hmore⟩ := (Listing.enterAll_frame (l.enter (.stop o useFirst)) behind).2
  refine ⟨more.flatMap fun s => s.toList ++ ['\n'], ?_, hmoved⟩
  rw [Listing.toList_text htext, Listing.chars, ← hmore, Listing.enter,
    Listing.endStatement_eq o useFirst hcurrent, hgoal]
  simp [Listing.push, Listing.chars]

namespace Sample

/-- The declaration of a function without parameters in some line. -/
def prototypeIn (id : NodeId) (name : String) (line : Int) : Role × Tree :=
  (.declarations, .mk ((Node.blank id .functionDecl (.span ⟨0, line⟩ ⟨5, line⟩)).named name) [
    (.returnType, .mk ((node (id + 1) .simpleType).named "void") []),
    (.parameters, .mk (node (id + 2) .argumentDeclList) [])])

/-- A plugin with three functions, in its first line, in its ninth and two lines further down. -/
def prototypes : Compilation where
  root := node 0 .root
  source := some (.mk ((node 1 .pluginSource).setText .pluginPrefix (some "p")) [
    (.declarationList, .mk (node 2 .declarationList) [
      prototypeIn 3 "f" 1, prototypeIn 6 "g" 9, prototypeIn 9 "h" 11])])

/-- What is printed before the end of the first function. -/
def firstEntries : List Entry :=
  .line "#include \"p_state.h\"" :: ["void", " ", "f", "(", ")", ";"].map .piece

/-- The entries up to the second statement. -/
def otherEntries : List Entry :=
  firstEntries ++ .stop (.span ⟨0, 1⟩ ⟨5, 1⟩) true :: ["void", " ", "g", "(", ")", ";"].map .piece

/-- The entries up to the third statement. -/
def lastEntries : List Entry :=
  otherEntries ++ .stop (.span ⟨0, 9⟩ ⟨5, 9⟩) true :: ["void", " ", "h", "(", ")", ";"].map .piece

theorem prototypes_printed :
    ∃ text c', Compilation.print .code "plugin.c" prototypes = .ok text c' := by
  have h : Step.ended (Compilation.print .code "plugin.c" prototypes) = true := by decide +kernel
  exact Step.exists_of_ended h

end Sample

/-- The function in the ninth line of the source is attributed to it, by a directive. The one behind
it is attributed to its line without a directive, because the counts are in step. -/
theorem Compilation.other_lines_attributed :
    ∃ text c' l l', print .code "plugin.c" Sample.prototypes = .ok text c' ∧
      l = ({ file := "plugin.c" } : Listing).enterAll Sample.otherEntries ∧
      l.current = "void g();" ∧ l.directs (9 : Nat) = true ∧ l.Attributed (9 : Nat) text ∧
      l' = ({ file := "plugin.c" } : Listing).enterAll Sample.lastEntries ∧
      l'.current = "void h();" ∧ l'.directs (11 : Nat) = false ∧
      l'.Attributed (11 : Nat) text := by
  obtain ⟨text, c', hp⟩ := Sample.prototypes_printed
  have hother : (({ file := "plugin.c" } : Listing).enterAll Sample.otherEntries).current =
      "void g();" := by decide +kernel
  have hlast : (({ file := "plugin.c" } : Listing).enterAll Sample.lastEntries).current =
      "void h();" := by decide +kernel
  have hdirects : (({ file := "plugin.c" } : Listing).enterAll Sample.otherEntries).directs
      (9 : Nat) = true := by decide +kernel
  have hgoal : (Origin.span ⟨0, 9⟩ ⟨5, 9⟩).goal? true = some ((9 : Nat) : Int) := rfl
  have hgoal' : (Origin.span ⟨0, 11⟩ ⟨5, 11⟩).goal? true = some ((11 : Nat) : Int) := rfl
  refine ⟨text, c', _, _, hp, rfl, hother, hdirects,
    printed_line_attributed hp (by simp) rfl (by rw [hother]; decide) ?_ hgoal (.inr hdirects),
    rfl, hlast, by decide +kernel,
    printed_line_attributed hp (by simp) rfl (by rw [hlast]; decide) ?_ hgoal' (.inl ?_)⟩ <;>
  decide +kernel

/-- The function in the first line is not: where it stands, a reader is in the text itself. -/
theorem Compilation.first_line_unattributed :
    ∃ text c' l, print .code "plugin.c" Sample.prototypes = .ok text c' ∧
      l = ({ file := "plugin.c" } : Listing).enterAll Sample.firstEntries ∧
      l.current = "void f();" ∧ Sample.firstEntries ++ [.stop (.span ⟨0, 1⟩ ⟨5, 1⟩) true] <+:
        (Scene.entries none Sample.prototypes.tree (Sample.prototypes.scene .code)).1 ∧
      ¬ l.Attributed 1 text := by
  obtain ⟨text, c', hp⟩ := Sample.prototypes_printed
  refine ⟨text, c', _, hp, rfl, by decide +kernel, by decide +kernel, ?_⟩
  rintro ⟨rest, -, hread⟩
  have hplace : (Reader.read ((({ file := "plugin.c" } : Listing).enterAll
    Sample.firstEntries).moveTo 1).chars).place = ⟨none, 20⟩ := by decide +kernel
  rw [hread] at hplace
  cases hplace

end Resumable
