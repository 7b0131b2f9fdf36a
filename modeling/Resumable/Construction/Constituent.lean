import Resumable.ParseTree
import Resumable.Tree

/-!
# Parts of a parse tree

A syntax tree is constructed from a parse tree node by node. A part is a child of a parse tree
node together with the step that constructs what it stands for; the construction of a node runs
the steps of its parts in the order that it needs, which is the order of the node numbers.
-/

namespace Resumable

namespace ParseTree

def origin (t : ParseTree) : Origin :=
  match t with
  | leaf tok => .leaf tok.spot
  | node _ _ =>
    match t.first?, t.last? with
    | some first, some last => .span first.spot last.spot
    | _, _ => .unknown

def child? (t : ParseTree) (r : Rule) : Option ParseTree := t.children.find? (·.isRule r)

def childrenOf (t : ParseTree) (r : Rule) : List ParseTree := t.children.filter (·.isRule r)

def token? (t : ParseTree) (k : TokenKind) : Option Token :=
  t.children.findSome? fun
    | leaf tok => if tok.kind == k then some tok else none
    | node _ _ => none

def form? : ParseTree → Option Form
  | leaf _ => none
  | node f _ => some f

end ParseTree

/-- A child of a parse tree node, with the step that constructs the trees that it stands for. -/
structure Constituent where
  parse : ParseTree
  build : Step Log (List Tree)

namespace Constituent

def first? (parts : List Constituent) (r : Rule) : Option Constituent :=
  parts.find? (·.parse.isRule r)

def ofRule (parts : List Constituent) (r : Rule) : List Constituent :=
  parts.filter (·.parse.isRule r)

def one (p : Constituent) : Step Log Tree := do
  match ← p.build with
  | [t] => return t
  | _ => throw .wrongKind

/-- Constructs the tree of a part that the grammar promises. -/
def need : Option Constituent → Step Log Tree
  | some p => p.one
  | none => throw .noMember

end Constituent

def reservedStart : String := "sa_"

/-- The text of a name, which must not begin like the names of generated code. -/
def identifierText (tok : Option Token) : Step Log String :=
  match tok with
  | none => throw .noMember
  | some tok => do
    if reservedStart.toList.isPrefixOf tok.text.toList then
      reportError (.leaf tok.spot)
        s!"Name '{tok.text}' and all names starting with '{reservedStart}' are reserved"
    return tok.text

def unsupportedForm {α : Type} (t : ParseTree) : Step Log α := do
  match t.form? with
  | some f => print s!"Context: {f.title}"
  | none => pure ()
  reportError t.origin "Unsupported syntax!"
  reject

end Resumable
