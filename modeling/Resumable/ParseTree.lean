import Resumable.Grammar

/-!
# Parse trees

A parse tree has tokens at its leaves; each inner node has the form of the alternative that was
used. This module holds the views of a tree: its text, its outline, the number of nodes of every
rule, and the children that a node's form lets one ask for.
-/

namespace Resumable

/-- A parse tree. -/
inductive ParseTree where
  | leaf (t : Token)
  | node (f : Form) (children : List ParseTree)
deriving Inhabited

namespace ParseTree

def first? : ParseTree → Option Token
  | leaf t => some t
  | node _ cs => go cs
where
  go : List ParseTree → Option Token
    | [] => none
    | c :: cs => (first? c).or (go cs)

def last? : ParseTree → Option Token
  | leaf t => some t
  | node _ cs => go cs
where
  go : List ParseTree → Option Token
    | [] => none
    | c :: cs => (go cs).or (last? c)

def tokens : ParseTree → List Token
  | leaf t => [t]
  | node _ cs => go cs
where
  go : List ParseTree → List Token
    | [] => []
    | c :: cs => tokens c ++ go cs

def text (t : ParseTree) : String := String.join (t.tokens.map (·.text))

def rule? : ParseTree → Option Rule
  | leaf _ => none
  | node f _ => some f.rule

def isRule (r : Rule) (t : ParseTree) : Bool := t.rule? == some r

def isToken (k : TokenKind) : ParseTree → Bool
  | leaf t => t.kind == k
  | node _ _ => false

def children : ParseTree → List ParseTree
  | leaf _ => []
  | node _ cs => cs

/-! ## Outline -/

def quotedLeaves : List ParseTree → String
  | [] => ""
  | leaf t :: cs => " '" ++ t.text ++ "'" ++ quotedLeaves cs
  | node _ _ :: cs => quotedLeaves cs

/-- One line a node, indented by its depth, with the tokens among its children. -/
def outline (indent : String) : ParseTree → List String
  | leaf _ => []
  | node f cs => (indent ++ f.title ++ quotedLeaves cs) :: go (indent ++ "+-") cs
where
  go (indent : String) : List ParseTree → List String
    | [] => []
    | c :: cs => outline indent c ++ go indent cs

/-! ## Counts -/

def forms : ParseTree → List Form
  | leaf _ => []
  | node f cs => f :: go cs
where
  go : List ParseTree → List Form
    | [] => []
    | c :: cs => forms c ++ go cs

def depth : ParseTree → Nat
  | leaf _ => 0
  | node _ cs => go cs + 1
where
  go : List ParseTree → Nat
    | [] => 0
    | c :: cs => max (depth c) (go cs)

/-- How many nodes each rule has, for the rules that occur. -/
def ruleCounts (t : ParseTree) : List (Rule × Nat) :=
  let rules := t.forms.map Form.rule
  (Rule.all.map fun r => (r, rules.count r)).filter (·.2 != 0)

end ParseTree

end Resumable
