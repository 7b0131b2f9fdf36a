/-!
# Patterns over characters

Regular expressions and their derivatives. A token rule of the language is such a pattern; the
lexer feeds characters to all rules at once by taking derivatives and drops a rule as soon as
nothing can continue it.
-/

namespace Resumable

/-- A set of characters, given as closed ranges of code points. -/
structure CharSet where
  ranges : List (Nat × Nat)
deriving Repr, DecidableEq, Inhabited

namespace CharSet

def mem (s : CharSet) (c : Char) : Bool :=
  s.ranges.any fun r => r.1 ≤ c.toNat && c.toNat ≤ r.2

def single (c : Char) : CharSet := ⟨[(c.toNat, c.toNat)]⟩

def of (s : String) : CharSet := ⟨s.toList.map fun c => (c.toNat, c.toNat)⟩

def range (a b : Char) : CharSet := ⟨[(a.toNat, b.toNat)]⟩

def union (s t : CharSet) : CharSet := ⟨s.ranges ++ t.ranges⟩

/-- The last code point that a complemented set or "any character" reaches. -/
def lastCode : Nat := 0xFFFE

/-- The gaps that sorted single code points leave between `lo` and `lastCode`. -/
def gaps (lo : Nat) : List Nat → List (Nat × Nat)
  | [] => [(lo, lastCode)]
  | n :: ns => if lo < n then (lo, n - 1) :: gaps (n + 1) ns else gaps (n + 1) ns

def any : CharSet := ⟨[(0, lastCode)]⟩

/-- Every character up to `lastCode` except the listed ones, which stand in ascending order. -/
def noneOf (s : String) : CharSet := ⟨gaps 0 (s.toList.map Char.toNat)⟩

end CharSet

/-- A regular expression over characters. -/
inductive Pattern where
  | never
  | blank
  | chars (s : CharSet)
  | seq (p q : Pattern)
  | alt (p q : Pattern)
  | star (p : Pattern)
deriving Repr, DecidableEq, Inhabited

namespace Pattern

/-- The texts that a pattern describes. -/
inductive Matches : Pattern → List Char → Prop where
  | blank : Matches blank []
  | chars {s : CharSet} {c : Char} (h : s.mem c = true) : Matches (chars s) [c]
  | seq {p q : Pattern} {u v : List Char} (hp : Matches p u) (hq : Matches q v) :
      Matches (seq p q) (u ++ v)
  | altLeft {p q : Pattern} {u : List Char} (h : Matches p u) : Matches (alt p q) u
  | altRight {p q : Pattern} {u : List Char} (h : Matches q u) : Matches (alt p q) u
  | starNil {p : Pattern} : Matches (star p) []
  | starCons {p : Pattern} {u v : List Char} (hp : Matches p u) (hs : Matches (star p) v) :
      Matches (star p) (u ++ v)

def nullable : Pattern → Bool
  | never => false
  | blank => true
  | chars _ => false
  | seq p q => p.nullable && q.nullable
  | alt p q => p.nullable || q.nullable
  | star _ => true

def dead : Pattern → Bool
  | never => true
  | blank => false
  | chars s => s.ranges.isEmpty
  | seq p q => p.dead || q.dead
  | alt p q => p.dead && q.dead
  | star _ => false

/-- Sequence that absorbs `never` and drops `blank` on the left. -/
def cat : Pattern → Pattern → Pattern
  | never, _ => never
  | blank, q => q
  | p, q => seq p q

def or : Pattern → Pattern → Pattern
  | never, q => q
  | p, never => p
  | p, q => alt p q

/-- What must still follow once the character `c` has been read. -/
def derive (c : Char) : Pattern → Pattern
  | never => never
  | blank => never
  | chars s => if s.mem c then blank else never
  | seq p q =>
    if p.nullable then or (cat (p.derive c) q) (q.derive c) else cat (p.derive c) q
  | alt p q => or (p.derive c) (q.derive c)
  | star p => cat (p.derive c) (star p)

/-! ## Building patterns -/

def text (s : String) : Pattern :=
  s.toList.foldr (fun c p => cat (chars (CharSet.single c)) p) blank

def oneOf (s : String) : Pattern := chars (CharSet.of s)

def inOrder (ps : List Pattern) : Pattern := ps.foldr cat blank

def anyOf (ps : List Pattern) : Pattern := ps.foldr or never

def opt (p : Pattern) : Pattern := alt p blank

def plus (p : Pattern) : Pattern := seq p (star p)

end Pattern

end Resumable
