import Resumable.Construction
import Resumable.Cutting.Program
import Resumable.Lexer
import Resumable.Machine
import Resumable.Manifest.Declarations
import Resumable.Parser
import Resumable.Printing.Program
import Resumable.Resolution.Settle
import Resumable.Revision
import Resumable.Tree.Accounting

/-!
# Compilations

A compilation takes the texts of a plugin through the stages: the built-in declarations, the
interface, the manifest, the source, the check of the tree, resolution, and the cutting of
functions into states.
-/

namespace Resumable

/-- What is to be compiled. -/
structure Request where
  source : String := ""
  papi : Option String := none
  pluginPrefix : String := "p"
  splitAll : Bool := false
  dump : Bool := false
  fileName : String := "plugin.c"
  asciiOnly : Bool := false
deriving Repr, Inhabited

/-- What a compilation has made so far. -/
structure Compilation where
  log : Log := {}
  root : Node := default
  builtins : Option Tree := none
  manifest : Option Tree := none
  papi : Option Tree := none
  source : Option Tree := none
  tokens : Array Token := #[]
  dropped : List Lexeme := []
  machines : Machines := {}
  parents : IdMap NodeId := {}
deriving Inhabited

instance : HasLog Compilation := ⟨(·.log), fun c l => { c with log := l }⟩

namespace Compilation

abbrev Stage := Step Compilation

def onLog {α : Type} (s : Step Log α) : Stage α := fun c =>
  match s c.log with
  | .ok a l => .ok a { c with log := l }
  | .error e l => .error e { c with log := l }

def tree (c : Compilation) : Tree :=
  let child (r : Role) (t : Option Tree) : List (Role × Tree) := (t.map (r, ·)).toList
  .mk c.root (child .builtins c.builtins ++ child .manifest c.manifest ++ child .papi c.papi ++
    child .source c.source)

def setTree (c : Compilation) (t : Tree) : Compilation :=
  { c with
    root := t.node
    builtins := t.child? .builtins
    manifest := t.child? .manifest
    papi := t.child? .papi
    source := t.child? .source }

/-- Changes the parts of a compilation, whose nodes are told their parents. -/
def place (f : Compilation → Compilation) (c : Compilation) : Compilation :=
  let placed := f c
  { placed with parents := c.tree.attach placed.tree c.parents }

def printLines (ls : List String) : Stage Unit := print ("\n".intercalate ls)

def dumpTree : Stage Unit := do
  print ""
  printLines (← (← get).tree.dump)

def read (rq : Request) (text : String) : Stage (Source × Tree) := do
  if rq.asciiOnly && !text.toList.all (·.toNat < 128) then throw .notAscii
  let s := Source.ofText text
  modify fun c => { c with dropped := c.dropped ++ s.dropped }
  match s.parse .compilationUnit with
  | .error t => throw (.notSentence t)
  | .ok t =>
    if rq.dump then printLines (t.outline "")
    return (s, ← onLog (Construction.unit rq.pluginPrefix t))

/-! ## Stages -/

def makeBuiltins : Stage Unit := do
  let root ← newNode .root .root
  modify ({ · with root := root })
  let t ← Builtins.all .builtin
  modify (place ({ · with builtins := some t }))

def readPapi (rq : Request) : Stage Unit := do
  match rq.papi with
  | none => return
  | some text =>
    let (_, t) ← read rq text
    modify (place ({ · with papi := some t }))

def addManifest (rq : Request) (m : Manifest) : Stage Unit := do
  let t ← onLog (m.declarations rq.pluginPrefix)
  modify (place ({ · with manifest := some t }))

def readSource (rq : Request) : Stage Unit := do
  let (s, t) ← read rq rq.source
  modify (place ({ · with source := some t, tokens := s.tokens }))

def account : Stage Unit := do
  let c ← get
  unless c.tree.wired c.parents do throw .strayNode
  reportReached c.tree.ids

def resolution : Stage Resolution := fun c =>
  match Resolve.run {} c.tree { log := c.log } with
  | .ok t r => .ok r (place (fun c => { c.setTree t with log := r.log }) c)
  | .error e r => .error e { c with log := r.log }

def resolve : Stage Unit := do let _ ← resolution

def cut (rq : Request) : Stage Unit := fun c =>
  let start : Cutter :=
    { log := c.log, machines := c.machines, index := IdMap.empty.addTree c.tree,
      splitAll := rq.splitAll }
  let (t, end') := (Cutting.program rq.pluginPrefix c.tree).run start
  let c := place (fun c => { c.setTree t with log := end'.log, machines := end'.machines }) c
  match end'.fault with
  | none => .ok () c
  | some f => .error f c

def revise : Stage String := fun c =>
  let start : Revision :=
    { log := c.log, tokens := c.tokens, index := IdMap.empty.addTree c.tree,
      machines := c.machines }
  match Revise.text c.tree start with
  | .ok text r => .ok text { c with log := r.log }
  | .error f r => .error f { c with log := r.log }

/-- One of the texts that are printed from the whole program. -/
def print (product : Product) (fileName : String) : Stage String := fun c =>
  let start : Printer :=
    { log := c.log, listing := { file := fileName }, product := product,
      index := IdMap.empty.addTree c.tree, machines := c.machines }
  match Print.text none c.tree start with
  | .ok text p => .ok text { c with log := p.log }
  | .error f p => .error f { c with log := p.log }

/-! ## Entry points -/

/-- The texts that a compilation gives. -/
structure Output where
  revised : String
  stateHeader : String
  code : String
  messageHeader : String
deriving Repr, DecidableEq, Inhabited

def prepare (rq : Request) (manifest : String) : Stage Unit := do
  let m ← (Manifest.ofText? manifest : Except Fault Manifest)
  makeBuiltins
  readPapi rq
  addManifest rq m

def compile (rq : Request) (manifest : String) : Stage Output := do
  prepare rq manifest
  readSource rq
  if rq.dump then dumpTree
  account
  resolve
  cut rq
  if rq.dump then dumpTree
  let revised ← revise
  let stateHeader ← print .stateHeader rq.fileName
  let code ← print .code rq.fileName
  let messageHeader ← print .messageHeader "None"
  return ⟨revised, stateHeader, code, messageHeader⟩

def describe (rq : Request) (manifest : String) : Stage String := do
  prepare rq manifest
  if rq.dump then dumpTree
  account
  resolve
  if rq.dump then dumpTree
  print .messageHeader "None"

end Compilation

end Resumable
