import Resumable.Lexer.Rules

/-!
# From text to tokens

The lexer reads a text from left to right. At each place it takes the longest text that some rule
describes, by the first rule that does; where no rule describes any text, it drops the characters
up to and including the first one that no rule could take, and reports them.
-/

namespace Resumable

/-- A place in a text: lines count from one, columns from zero. -/
structure Position where
  line : Nat
  column : Nat
deriving Repr, DecidableEq, Inhabited

namespace Position

def start : Position := ⟨1, 0⟩

/-- The place after one more character; only a line feed begins a line. -/
def next (p : Position) (c : Char) : Position :=
  if c = '\n' then ⟨p.line + 1, 0⟩ else ⟨p.line, p.column + 1⟩

def advance (p : Position) (cs : List Char) : Position := cs.foldl next p

end Position

/-- A piece of the text: a token of some kind, or characters that begin no token. -/
structure Lexeme where
  kind : Option TokenKind
  chars : List Char
  place : Position
deriving Repr, DecidableEq, Inhabited

namespace Lexer

/-- A rule that may still go on, with what it has left to read. -/
abbrev Pending := TokenKind × Pattern

/-- The outcome of reading at one place: the longest token found, by its length, and how many
characters were looked at, the one that no rule could take included. -/
structure Munch where
  best : Option (TokenKind × Nat)
  reach : Nat
deriving Repr, DecidableEq, Inhabited

def feed (c : Char) (rules : List Pending) : List Pending :=
  rules.filterMap fun r =>
    let p := r.2.derive c
    if p.dead then none else some (r.1, p)

def finished? (rules : List Pending) : Option TokenKind :=
  (rules.find? fun r => r.2.nullable).map (·.1)

/-- Reads on, having read `n` characters, until no rule can go on. -/
def munch (rules : List Pending) (best : Option (TokenKind × Nat)) (n : Nat) :
    List Char → Munch
  | [] => ⟨best, n⟩
  | c :: cs =>
    let rules := feed c rules
    if rules.isEmpty then ⟨best, n + 1⟩
    else
      let best := match finished? rules with
        | some k => some (k, n + 1)
        | none => best
      munch rules best (n + 1) cs

def initial : List Pending := TokenRule.all.map fun r => (r.kind, r.pattern)

/-- The kind and the length of the piece that begins the text; its length is never zero. -/
def piece (cs : List Char) : Option TokenKind × Nat :=
  match munch initial none 0 cs with
  | ⟨some (k, n), _⟩ => (some k, n)
  | ⟨none, n⟩ => (none, n)

/-- Cuts a text into pieces. A step takes at least one character. -/
def cut (place : Position) (cs : List Char) : List Lexeme :=
  match cs with
  | [] => []
  | c :: rest =>
    let (kind, n) := piece (c :: rest)
    let taken := c :: rest.take (n - 1)
    ⟨kind, taken, place⟩ :: cut (place.advance taken) (rest.drop (n - 1))
termination_by cs.length
decreasing_by
  rw [List.length_drop, List.length_cons]
  omega

end Lexer

def lex (s : String) : List Lexeme := Lexer.cut Position.start s.toList

/-- A text that has been cut into tokens. -/
structure Source where
  tokens : Array Token
  dropped : List Lexeme
deriving Repr, Inhabited

namespace Source

def number (index : Nat) : List Lexeme → List Token
  | [] => []
  | l :: ls =>
    match l.kind with
    | some k =>
      ⟨k, String.ofList l.chars, l.place.line, l.place.column, index⟩ :: number (index + 1) ls
    | none => number index ls

/-- Cuts a text into its tokens, closed by the end of the text. -/
def ofText (s : String) : Source :=
  let pieces := lex s
  let tokens := number 0 pieces
  let final := Position.start.advance s.toList
  let last : Token := ⟨.endOfFile, "<EOF>", final.line, final.column, tokens.length⟩
  { tokens := (tokens ++ [last]).toArray
    dropped := pieces.filter (·.kind.isNone) }

def visible (s : Source) : Array Token := s.tokens.filter fun t => !t.kind.hidden

end Source

namespace Lexeme

def escaped (cs : List Char) : String :=
  cs.foldl (fun s c =>
    match c with
    | '\n' => s ++ "\\n"
    | '\t' => s ++ "\\t"
    | '\r' => s ++ "\\r"
    | c => s.push c) ""

/-- How a dropped piece is reported: where it began, and its text. -/
def report (l : Lexeme) : String :=
  s!"{l.place.line}:{l.place.column} '" ++ escaped l.chars ++ "'"

end Lexeme

end Resumable
