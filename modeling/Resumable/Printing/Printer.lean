import Resumable.Listing
import Resumable.Machine
import Resumable.Printing

/-!
# Printers

Statements and declarations are written to a listing, line by line. A printer holds the listing
and what is known about the program: its functions with states, and the function that is being
printed.
-/

namespace Resumable

/-- The texts that are printed from a program. -/
inductive Product where
  | code | stateHeader | messageHeader
deriving Repr, DecidableEq, Inhabited

/-- The name under which a text reports a kind that it has no form for. -/
def Product.visitor : Product → String
  | code => "_WriterVisitor"
  | stateHeader => "_HeaderWriterVisitor"
  | messageHeader => "_ParserWriterVisitor"

def Product.stage : Product → String
  | code => "write"
  | stateHeader => "header"
  | messageHeader => "parser"

/-- What is known while a program is printed. -/
structure Printer where
  log : Log
  listing : Listing
  product : Product
  index : IdMap Tree
  machines : Machines
  known : Option Machines := none
  function : Option Tree := none
  machine : Option Machine := none
deriving Inhabited

instance : HasLog Printer := ⟨(·.log), fun p l => { p with log := l }⟩

abbrev Print := Step Printer

/-- A child of a node with the step that prints it. -/
structure Printable where
  role : Role
  print : Print Unit

namespace Print

/-! ## Writing -/

def write (piece : String) : Print Unit :=
  modify fun p => { p with listing := p.listing.write piece }

def writeText : Option String → Print Unit
  | some s => write s
  | none => throw .notText

def writePieces (ps : Printing.Pieces) : Print Unit := do
  match ps with
  | .ok ps => ps.forM write
  | .error (.fault f) => throw f
  | .error (.unsupported k) => unsupportedKind (← get).product.visitor k

def line (text : String) : Print Unit := do
  let p ← get
  set { p with listing := ← p.listing.writeLine (some text) }

def endStatement (o : Origin) (useFirst : Bool) : Print Unit :=
  modify fun p => { p with listing := p.listing.endStatement o useFirst }

def printing : Print Printing := return ⟨(← get).index, (← get).machine⟩

def typeIn (t : Tree) (r : Role) : Print Unit := do writePieces ((← printing).typeIn t r)

def expressionIn (t : Tree) (r : Role) : Print Unit := do
  writePieces ((← printing).expressionIn t r)

/-- Writes the expression in some place behind some text, if there is one. -/
def optionalExpression (t : Tree) (r : Role) (before : String) : Print Unit := do
  if (t.child? r).isSome then
    write before
    expressionIn t r

def textOf (n : Node) (k : TextKey) : Print Unit := do writeText (← n.text k)

def shownText (n : Node) (k : TextKey) : Print String := return Tree.shown (← n.text k)

def typed (t : Tree) (r : Role) : Print Unit := do
  typeIn t r
  write " "
  textOf t.node .name

def all (parts : List Printable) : Print Unit := parts.forM (·.print)

def inRole (parts : List Printable) (r : Role) : Print Unit :=
  all (parts.filter (·.role == r))

end Print

end Resumable
