import Mathlib.Data.List.Induction
import Mathlib.Data.List.Pairwise
import Resumable.Lexer

/-!
# Tokens tile the text

The lexer cuts tokens out of a text, and drops and reports what begins no token. Both together, put
in the order in which they begin, are the whole text: no character is lost, doubled or moved. Where
a piece begins is counted from the text before it.

* `Lexer.cut_tiles`: what the lexer cuts out is the text.
* `Lexer.Tiles.place`, `Lexer.Tiles.sorted`: each piece begins behind the pieces before it.
* `Source.pieces_tile`: tokens and dropped characters together are the whole text.
-/

namespace Resumable

open List

namespace Position

/-- The place behind a text. The line feeds give its line, and the characters behind the last of
them its column. -/
def behind (cs : List Char) : Position :=
  ⟨1 + cs.count '\n', (cs.reverse.takeWhile (· != '\n')).length⟩

/-- Whether a position is not behind another one. -/
def le (p q : Position) : Bool := p.line < q.line || p.line == q.line && p.column ≤ q.column

theorem advance_start (cs : List Char) : start.advance cs = behind cs := by
  induction cs using List.reverseRecOn with
  | nil => rfl
  | append_singleton cs c ih =>
    have hstep : start.advance (cs ++ [c]) = (start.advance cs).next c := foldl_append
    rw [hstep, ih, next, behind, behind, count_append, reverse_append]
    by_cases hc : c = '\n' <;> simp [hc, Nat.add_assoc]

theorem le_iff {p q : Position} :
    p.le q = true ↔ p.line < q.line ∨ p.line = q.line ∧ p.column ≤ q.column := by
  simp [le]

theorem le_trans {p q r : Position} (h : p.le q = true) (h' : q.le r = true) : p.le r = true := by
  rw [le_iff] at *
  omega

theorem le_total (p q : Position) : (p.le q || q.le p) = true := by
  rw [Bool.or_eq_true, le_iff, le_iff]
  omega

theorem not_next_le (p : Position) (c : Char) :
    (p.next c).le p = false ∧ p.le (p.next c) = true := by
  rw [← Bool.not_eq_true, le_iff, le_iff, next]
  split <;> dsimp only <;> omega

theorem le_advance (p : Position) (cs : List Char) : p.le (p.advance cs) = true := by
  induction cs generalizing p with
  | nil => exact le_iff.mpr (.inr ⟨rfl, Nat.le_refl _⟩)
  | cons c cs ih => exact le_trans (p.not_next_le c).2 (ih (p.next c))

/-- Behind some characters is behind. -/
theorem not_advance_le (p : Position) {cs : List Char} (h : cs ≠ []) :
    (p.advance cs).le p = false := by
  obtain ⟨c, cs, rfl⟩ := exists_cons_of_ne_nil h
  rw [← Bool.not_eq_true]
  intro hle
  have hback := le_trans ((p.next c).le_advance cs) hle
  rw [(p.not_next_le c).1] at hback
  cases hback

end Position

namespace Lexer

/-- Pieces that lie one behind the other from a place on, none of them empty, over a text. -/
inductive Tiles : Position → List Lexeme → List Char → Prop
  | nil {p : Position} : Tiles p [] []
  | cons {p : Position} {l : Lexeme} {ls : List Lexeme} {cs : List Char} (hp : l.place = p)
      (hne : l.chars ≠ []) (h : Tiles (p.advance l.chars) ls cs) :
      Tiles p (l :: ls) (l.chars ++ cs)

/-- The lexer cuts the text into pieces. -/
theorem cut_tiles (p : Position) (cs : List Char) : Tiles p (cut p cs) cs := by
  induction p, cs using cut.induct with
  | case1 p =>
    rw [cut]
    exact .nil
  | case2 p c rest kind n hpiece taken ih =>
    have hcut : cut p (c :: rest) =
        ⟨kind, taken, p⟩ :: cut (p.advance taken) (rest.drop (n - 1)) := by
      rw [cut, hpiece]
    have htext : c :: rest = taken ++ rest.drop (n - 1) := by
      rw [cons_append, take_append_drop]
    rw [hcut, htext]
    exact .cons rfl (cons_ne_nil _ _) ih

variable {p : Position} {ls : List Lexeme} {cs : List Char}

theorem Tiles.flatMap (h : Tiles p ls cs) : ls.flatMap (·.chars) = cs := by
  induction h with
  | nil => rfl
  | cons _ _ _ ih => rw [flatMap_cons, ih]

/-- A piece begins behind the text before it. -/
theorem Tiles.place (h : Tiles p ls cs) {before behind : List Lexeme} {l : Lexeme}
    (hl : ls = before ++ l :: behind) :
    l.chars ≠ [] ∧ l.place = p.advance (before.flatMap (·.chars)) := by
  induction h generalizing before with
  | nil => simp at hl
  | @cons p l' ls cs hp hne _ ih =>
    cases before with
    | nil =>
      cases hl
      exact ⟨hne, hp⟩
    | cons b before =>
      obtain ⟨rfl, rfl⟩ := List.cons.inj hl
      obtain ⟨hchars, hplace⟩ := ih rfl
      exact ⟨hchars, hplace.trans foldl_append.symm⟩

/-- The pieces are in order. -/
theorem Tiles.sorted (h : Tiles p ls cs) :
    ls.Pairwise fun a b => a.place.le b.place = true ∧ b.place.le a.place = false := by
  induction h with
  | nil => exact .nil
  | @cons p l ls cs hp hne h ih =>
    refine .cons (fun b hb => ?_) ih
    obtain ⟨before, behind, rfl⟩ := append_of_mem hb
    have hplace : b.place = p.advance (l.chars ++ before.flatMap (·.chars)) :=
      (h.place rfl).2.trans foldl_append.symm
    rw [hp, hplace]
    exact ⟨p.le_advance _, p.not_advance_le (by simp [hne])⟩

end Lexer

/-- Place and text of a token. -/
def Token.bare (t : Token) : Position × List Char := (⟨t.line, t.column⟩, t.text.toList)

/-- Place and text of a piece. -/
def Lexeme.bare (l : Lexeme) : Position × List Char := (l.place, l.chars)

namespace Source

/-- The tokens and the dropped pieces of a text, in the order of their places. The end of the text,
which is the last token, is no piece. -/
def pieces (s : Source) : List (Position × List Char) :=
  (s.tokens.toList.dropLast.map Token.bare ++ s.dropped.map Lexeme.bare).mergeSort
    fun a b => a.1.le b.1

/-- Tokens and dropped pieces together are the pieces. -/
theorem perm_number (ls : List Lexeme) (i : Nat) :
    ((number i ls).map Token.bare ++ (ls.filter (·.kind.isNone)).map Lexeme.bare).Perm
      (ls.map Lexeme.bare) := by
  induction ls generalizing i with
  | nil => exact .nil
  | cons l ls ih =>
    cases hk : l.kind with
    | some k =>
      have hbare : (Token.mk k (String.ofList l.chars) l.place.line l.place.column i).bare =
          l.bare := by
        rw [Token.bare, String.toList_ofList, Lexeme.bare]
      simp only [number, hk, map_cons, cons_append, filter_cons, hbare]
      exact (ih (i + 1)).cons _
    | none =>
      simp only [number, hk, filter_cons, map_cons]
      exact perm_middle.trans ((ih i).cons _)

/-- Put in order, they are the pieces as they were cut. -/
theorem pieces_ofText (s : String) : (ofText s).pieces = (lex s).map Lexeme.bare := by
  have hsorted := (Lexer.cut_tiles Position.start s.toList).sorted
  have hperm : (ofText s).pieces.Perm ((lex s).map Lexeme.bare) := by
    refine (mergeSort_perm _ _).trans ?_
    simpa [ofText] using perm_number (lex s) 0
  -- lexemes that begin at one place are the same
  have hsame := List.Pairwise.forall_of_forall_of_flip (l := lex s)
    (R := fun l m => l.place.le m.place = true → m.place.le l.place = true → l = m)
    (fun _ _ _ _ => rfl) (hsorted.imp fun h _ hle => by simp [h.2] at hle)
    (hsorted.imp fun h hle => by simp [h.2] at hle)
  have hpieces : (ofText s).pieces.Pairwise fun a b => a.1.le b.1 = true := by
    refine pairwise_mergeSort ?_ ?_ _
    · exact fun a b c => Position.le_trans
    · exact fun a b => Position.le_total a.1 b.1
  refine hperm.eq_of_pairwise (fun a b ha hb hab hba => ?_) hpieces
    (pairwise_map.mpr (hsorted.imp fun h => h.1))
  obtain ⟨l, hl, rfl⟩ := mem_map.mp (hperm.mem_iff.mp ha)
  obtain ⟨m, hm, rfl⟩ := mem_map.mp hb
  rw [hsame hl hm hab hba]

/-- **Tokens tile the text.** The tokens on all channels and the dropped pieces of any text, in the
order of their places, make up the text when they are joined. None of them is empty, and each begins
at the place behind the text before it; the end of the text is marked at the place behind it. -/
theorem pieces_tile (s : String) :
    (ofText s).pieces.flatMap (·.2) = s.toList ∧
      (∀ before p behind, (ofText s).pieces = before ++ p :: behind →
        p.2 ≠ [] ∧ p.1 = .behind (before.flatMap (·.2))) ∧
      ∃ t, (ofText s).tokens.toList.getLast? = some t ∧ t.kind = .endOfFile ∧
        ⟨t.line, t.column⟩ = Position.behind s.toList := by
  have htiles := Lexer.cut_tiles Position.start s.toList
  rw [pieces_ofText]
  refine ⟨?_, fun before p behind h => ?_, _, by simp [ofText]; rfl, rfl, ?_⟩
  · rw [List.flatMap_map]
    exact htiles.flatMap
  · obtain ⟨ls, ms, hlex, rfl, hms⟩ := List.map_eq_append_iff.mp h
    obtain ⟨l, ms, rfl, rfl, rfl⟩ := List.map_eq_cons_iff.mp hms
    rw [List.flatMap_map, ← Position.advance_start]
    exact htiles.place hlex
  · exact Position.advance_start _

end Source

end Resumable
