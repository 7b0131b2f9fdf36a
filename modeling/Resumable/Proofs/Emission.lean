import Resumable.Proofs.Entries
import Resumable.Proofs.Pieces

/-!
# What entries add to a text

Entries add pieces to the current line of a listing and lines to its text. Both are described by
predicates that compose along a list of entries, so the rules for statements need no reasoning about
texts.

* `Entry.Spells`: entries that only add a plain text to the current line.
* `Entry.Lays`: entries that add lines with given labels and jumps.
-/

namespace Resumable

open Text

variable {R : String → Prop} {next s text : String} {n : Node} {ns : List Mark} {k : Nat}

/-- Whether the name of the structure of a machine is without signs. -/
def Machine.spelled (m : Machine) : Bool := m.structName.all signless

/-- Whether the names of all that a tree links to are without signs, and likewise the types that
functions among these return. -/
def Tree.knownIn (index : IdMap Tree) (t : Tree) : Bool :=
  t.subtrees.all fun s => (s.node.linkedTo index).all fun d =>
    d.node.wellNamed && (d.child? .returnType).all fun r => r.spelled && r.namesIn index

/-- A printer that knows only names without signs for what a tree links to, and for machines. -/
structure Printer.Spelled (p : Printer) (t : Tree) : Prop where
  index : t.knownIn p.index = true
  known : ∀ ms, p.known = some ms → ∀ m ∈ ms.list, m.spelled = true
  machine : ∀ m, p.machine = some m → m.spelled = true

/-! ## Listings -/

namespace Listing

variable {ms : List Mark}

theorem write_write (l : Listing) (s t : String) : (l.write s).write t = l.write (s ++ t) := by
  simp [write, String.append_assoc]

theorem enterAll_append (l : Listing) (es fs : List Entry) :
    l.enterAll (es ++ fs) = (l.enterAll es).enterAll fs :=
  List.foldl_append

/-- The lines that bring the listing to the line of the source are quiet. -/
theorem moveTo_inv (l : Listing) (target : Int) :
    (l.moveTo target).current = l.current ∧
      ∃ new, (l.moveTo target).lines = l.lines ++ new ∧ ∀ x ∈ new, Quiet x := by
  unfold moveTo
  split
  · exact ⟨rfl, [], by simp, by simp⟩
  · split
    · refine ⟨rfl, _, rfl, fun x hx => ?_⟩
      rw [(List.mem_replicate.mp hx).2]
      exact quiet_of_plain rfl
    · refine ⟨rfl, _, rfl, fun x hx => ?_⟩
      rw [List.mem_singleton] at hx
      subst hx
      have hhead : head? (toString "#line ") = some '#' := rfl
      exact quiet_of_head (head?_append (head?_append (head?_append (head?_append hhead))))
        (by decide) (by decide)

/-- At the end of a statement the current line goes to the text. -/
theorem endStatement_inv (l : Listing) (o : Origin) (useFirst : Bool)
    (hl : Counted [l.current] ms) (hne : l.current = "" → ms = []) :
    (l.endStatement o useFirst).current = "" ∧
      ∃ new, (l.endStatement o useFirst).lines = l.lines ++ new ∧ Counted new ms := by
  unfold endStatement
  split
  · next he =>
    rw [hne he]
    exact ⟨he, [], by simp, counted_of_quiet (by simp)⟩
  · split
    · next first last _ =>
      obtain ⟨hc, new, hlines, hq⟩ := l.moveTo_inv (if useFirst = true then first else last)
      refine ⟨rfl, new ++ [l.current], ?_, counted_append (counted_of_quiet hq) hl⟩
      simp only [push, hlines, hc, List.append_assoc]
    · exact ⟨rfl, [l.current], rfl, hl⟩

end Listing

namespace Entry

/-! ## Pieces -/

/-- Entries that add a plain text to the current line, and nothing else. -/
def Spells (es : List Entry) : Prop :=
  ∃ s, plain s = true ∧ ∀ l : Listing, l.enterAll es = l.write s

variable {es fs : List Entry}

theorem spells_nil : Spells [] := ⟨"", rfl, fun l => by simp [Listing.enterAll, Listing.write]⟩

theorem Spells.append (h : Spells es) (h' : Spells fs) : Spells (es ++ fs) := by
  obtain ⟨s, hs, hes⟩ := h
  obtain ⟨t, ht, hfs⟩ := h'
  exact ⟨s ++ t, plain_append hs ht, fun l => by
    rw [Listing.enterAll_append, hes, hfs, Listing.write_write]⟩

theorem spells_piece (hs : plain s = true) : Spells [.piece s] :=
  ⟨s, hs, fun _ => rfl⟩

theorem Spells.cons {s : String} (h : Spells es) (hs : plain s = true) : Spells (.piece s :: es) :=
  (spells_piece hs).append h

theorem spells_flatMap {α : Type} {f : α → List Entry} {xs : List α}
    (h : ∀ x ∈ xs, Spells (f x)) : Spells (xs.flatMap f) := by
  induction xs with
  | nil => exact spells_nil
  | cons x xs ih =>
    rw [List.flatMap_cons]
    exact (h x List.mem_cons_self).append (ih fun y hy => h y (List.mem_cons_of_mem _ hy))

/-- Pieces are added to the current line as one text. -/
theorem enterAll_pieces (ps : List String) :
    ∃ s : String, s.toList = ps.flatMap String.toList ∧
      ∀ l : Listing, l.enterAll (ps.map .piece) = l.write s := by
  induction ps with
  | nil => exact ⟨"", rfl, fun l => by simp [Listing.enterAll, Listing.write]⟩
  | cons q ps ih =>
    obtain ⟨s, hs, hl⟩ := ih
    refine ⟨q ++ s, by rw [String.toList_append, hs, List.flatMap_cons], fun l => ?_⟩
    rw [← Listing.write_write]
    exact hl (l.write q)

theorem spells_pieces {x : Printing.Pieces} (hx : Printing.PlainPieces x) : Spells (pieces x) := by
  cases x with
  | error e => exact spells_nil
  | ok ps =>
    obtain ⟨s, hs, hl⟩ := enterAll_pieces ps
    exact ⟨s, by rw [plain, hs]; exact hx ps rfl, hl⟩

theorem spells_textOf (hn : n.spelled = true) (k : TextKey) : Spells (textOf n k) := by
  unfold textOf
  split
  · next text htext => exact spells_piece (plain_of_signless (Node.signless_of_text hn htext))
  · exact spells_nil

theorem signless_shownText (hn : n.spelled = true) (k : TextKey) :
    signless (shownText n k) = true := by
  unfold shownText
  split
  · next text htext => exact Node.signless_shown hn htext
  · rfl

/-! ## Lines -/

/-- Entries take a current line of one form to one of another form, and add lines with the labels
and jumps of some marks. -/
def Lays (P Q : String → Prop) (ms : List Mark) (es : List Entry) : Prop :=
  ∀ l : Listing, P l.current → Q (l.enterAll es).current ∧
    ∃ new, (l.enterAll es).lines = l.lines ++ new ∧ Counted new ms

def Empty (s : String) : Prop := s = ""

def Plain (s : String) : Prop := plain s = true

/-- A current line that begins with the label of a state. -/
def Labelled (k : Nat) (s : String) : Prop :=
  ∃ rest, s.toList = ("label_".toList ++ (toString k).toList) ++ ':' :: rest

variable {P Q : String → Prop} {ms : List Mark}

theorem lays_nil : Lays P P [] [] := fun _ hl => ⟨hl, [], by simp [Listing.enterAll],
  counted_of_quiet (by simp)⟩

/-- What two rows of entries add is added up. -/
theorem Lays.append (h : Lays P Q ms es) (h' : Lays Q R ns fs) :
    Lays P R (ms ++ ns) (es ++ fs) := by
  intro l hl
  obtain ⟨hq, new₁, hl₁, hm₁⟩ := h l hl
  obtain ⟨hr, new₂, hl₂, hm₂⟩ := h' _ hq
  rw [Listing.enterAll_append]
  exact ⟨hr, new₁ ++ new₂, by rw [hl₂, hl₁, List.append_assoc], counted_append hm₁ hm₂⟩

theorem Lays.behind (h' : Lays Q R ms fs) (h : Lays P Q [] es) : Lays P R ms (es ++ fs) :=
  h.append h'

theorem Lays.before (h : Lays P Q ms es) (h' : Lays Q R [] fs) : Lays P R ms (es ++ fs) :=
  ms.append_nil ▸ h.append h'

theorem Lays.perm (h : Lays P Q ms es) (hp : ms.Perm ns) : Lays P Q ns es := by
  intro l hl
  obtain ⟨hq, new, hlines, hcount⟩ := h l hl
  exact ⟨hq, new, hlines, counted_perm hcount hp⟩

theorem Lays.begin (h : Lays Plain Q ms es) : Lays Empty Q ms es := by
  intro l hl
  refine h l ?_
  rw [show l.current = "" from hl]
  rfl

theorem Spells.lays (h : Spells es) (h' : Lays Plain Q ms fs) : Lays Plain Q ms (es ++ fs) := by
  intro l hl
  obtain ⟨s, hs, hes⟩ := h
  rw [Listing.enterAll_append, hes]
  exact h' (l.write s) (plain_append hl hs)

theorem Lays.piece (h : Lays Plain Q ms es) (hs : plain s = true) :
    Lays Plain Q ms (.piece s :: es) :=
  (spells_piece hs).lays h

theorem lays_stop (o : Origin) (useFirst : Bool)
    (hP : ∀ s, P s → Counted [s] ms ∧ (s = "" → ms = [])) :
    Lays P Empty ms [.stop o useFirst] := by
  intro l hl
  obtain ⟨hcount, hne⟩ := hP _ hl
  exact l.endStatement_inv o useFirst hcount hne

theorem Lays.stop {o : Origin} {useFirst : Bool} (h : Lays Empty Q ms es) :
    Lays Plain Q ms (.stop o useFirst :: es) :=
  (lays_stop o useFirst fun _ hs =>
    ⟨counted_of_quiet (by simpa using quiet_of_plain hs), fun _ => rfl⟩).append h

/-- A label in front of a statement is counted, and the statement is not. -/
theorem lays_label (hn : next = toString k) (h : Spells es) (o : Origin) (useFirst : Bool)
    (h' : Lays Empty Q ms fs) :
    Lays Empty Q (.cut (some (k : Int)) :: ms)
      (.piece ("label_" ++ next ++ ":") :: es ++ .stop o useFirst :: fs) := by
  -- The label makes the whole line one that begins with a label.
  have hline : Lays Empty (Labelled k) [] (.piece ("label_" ++ next ++ ":") :: es) := by
    intro l hl
    obtain ⟨s, -, hes⟩ := h
    refine ⟨⟨s.toList, ?_⟩, [], ?_, counted_of_quiet (by simp)⟩
    · show ((l.write ("label_" ++ next ++ ":")).enterAll es).current.toList = _
      rw [hes, Listing.write, Listing.write, show l.current = "" from hl, hn, String.empty_append]
      simp only [String.toList_append, List.append_assoc]
      rfl
    · show ((l.write ("label_" ++ next ++ ":")).enterAll es).lines = _
      rw [hes, List.append_nil]
      rfl
  have hstop : Lays (Labelled k) Empty [.cut (some (k : Int))] [.stop o useFirst] := by
    refine lays_stop o useFirst fun s hs => ?_
    obtain ⟨rest, hrest⟩ := hs
    refine ⟨counted_label hrest, ?_⟩
    rintro rfl
    cases hrest
  exact hline.append (hstop.append h')

/-- Lines that are entered as such are counted as they are. -/
theorem lays_lines {texts : List String} (h : Counted texts ms) :
    Lays Empty Empty ms (texts.map .line) := by
  intro l hl
  have hall : ∀ (ts : List String) (l : Listing), (l.enterAll (ts.map .line)).current = l.current ∧
      (l.enterAll (ts.map .line)).lines = l.lines ++ ts := by
    intro ts
    induction ts with
    | nil => exact fun l => ⟨rfl, by simp [Listing.enterAll]⟩
    | cons t ts ih =>
      intro l
      obtain ⟨hc, hl⟩ := ih (l.push t)
      exact ⟨hc, hl.trans (by simp [Listing.push])⟩
  exact ⟨(hall texts l).1.trans hl, texts, (hall texts l).2, h⟩

theorem Lays.line (h : Lays Empty Q ms es) (ht : Quiet text) : Lays Empty Q ms (.line text :: es) :=
  (show Lays Empty Empty [] ([text].map .line) from
    lays_lines (counted_of_quiet (by simpa using ht))).append h

theorem Lays.head {ch : Char} (h : Lays Empty Q ms es) (ht : head? text = some ch) (hl : ch ≠ 'l')
    (hc : ch ≠ 'c') : Lays Empty Q ms (.line text :: es) :=
  h.line (quiet_of_head ht hl hc)

theorem Lays.labelLine {tail : String} {rest : List Char} (h : Lays Empty Q ms es)
    (hn : next = toString k) (ht : tail.toList = ':' :: rest) :
    Lays Empty Q (.cut (some (k : Int)) :: ms) (.line ("label_" ++ next ++ tail) :: es) := by
  have hline : ("label_" ++ next ++ tail).toList =
      ("label_".toList ++ (toString k).toList) ++ ':' :: rest := by
    rw [hn, String.toList_append, String.toList_append, ht]
  exact (show Lays Empty Empty [.cut (some (k : Int))] ([_].map .line) from
    lays_lines (counted_label hline)).append h

end Entry

end Resumable
