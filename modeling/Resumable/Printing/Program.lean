import Resumable.Printing.Headers
import Resumable.Printing.Machines

/-!
# Printing programs

The rules for statements and declarations. The same rules serve for three texts: the code of the
plugin, the header with the structures of its machines, and the header for the messages of its
manifest. The texts differ in what they take from the root.
-/

namespace Resumable.Print

/-! ## Declarations -/

def parameters (t : Tree) (extra : Bool) : Print Unit := do
  let params := (← t.child .parameters).inRole .declarations
  for (param, i) in params.zipIdx do
    if extra || i ≠ 0 then write ", "
    unless param.kind.slot? .parameterType |>.isSome do throw .noMember
    typeIn param .parameterType
    match ← param.node.text .name with
    | some name =>
      write " "
      write name
    | none => pure ()

/-- A function. Its declaration ends here unless it is a part of a definition. -/
def functionDecl (parent : Option Kind) (t : Tree) : Print Unit := do
  let machine := (← get).known.bind fun ms => ms.find? t.id
  modify fun p => { p with function := some t, machine := machine }
  if t.node.flag .static then write "static "
  if t.node.flag .inlined then write "inline "
  typeIn t .returnType
  write " "
  textOf t.node .name
  write "("
  let extra := machine.any fun m => !m.main
  if extra then write "void* sa_state0, waiting_for* sa_wf, uint8_t* sa_result"
  parameters t extra
  write ")"
  match parent with
  | none => throw .orphan
  | some .functionDefinition => pure ()
  | some _ => write ";"
  endStatement t.origin true

/-- A variable. One that outlives a state is a field, so that only its first value is stored. -/
def variableDeclaration (t : Tree) : Print Unit := do
  let p ← printing
  if p.outlives t.id then
    if (t.child? .initializer).isSome then
      write "sa_state->"
      textOf t.node .name
      write " = "
      expressionIn t .initializer
      write ";"
      endStatement t.origin false
  else
    typed t .declaredType
    optionalExpression t .initializer " = "
    write ";"
    endStatement t.origin false

/-! ## Rules -/

def root (parts : List Printable) : Print Unit := do
  match (← get).product with
  | .code =>
    modify fun p => { p with known := some p.machines }
    inRole parts .source
  | .stateHeader => stateHeader
  | .messageHeader => inRole parts .manifest

def simple (o : Origin) (body : Print Unit) : Print Unit := do
  body
  endStatement o false

def head (o : Origin) (text : Print Unit) : Print Unit := do
  text
  endStatement o true

def rule (parent : Option Kind) (t : Tree) (parts : List Printable) : Print Unit := do
  let n := t.node
  let o := n.origin
  match n.kind with
  | .root => root parts
  | .pluginManifest =>
    if (← get).product = .messageHeader then messageHeader n parts
    else unsupportedKind (← get).product.visitor .pluginManifest
  | .pluginSource =>
    let start ← shownText n .pluginPrefix
    line s!"#include \"{start}_state.h\""
    all parts
  | .declarationList | .argumentDeclList | .functionDefinition => all parts
  | .directive =>
    let p ← get
    set { p with listing := ← p.listing.writeLine (← n.text .body) }
  | .includeFile =>
    match ← n.text .fileName with
    | some name => line ("#include " ++ name)
    | none => throw .notText
  | .constantDefine => simple o do
    write "#define "
    textOf n .name
    write " "
    expressionIn t .expression
  | .staticAssert => simple o do
    write "_Static_assert ("
    expressionIn t .expression
    write ", "
    textOf n .description
    write ");"
  | .functionDecl | .papiFunctionDecl | .operatorDecl => functionDecl parent t
  | .structDecl =>
    head o (textOf n .name)
    line "\x7b"
    inRole parts .members
    line "\x7d;"
  | .attributeDecl => simple o do
    typed t .declaredType
    write ";"
  | .statementList =>
    line "\x7b"
    all parts
    line "\x7d"
  | .nop => simple o (write ";")
  | .variableDeclaration => variableDeclaration t
  | .expressionStatement => simple o do
    expressionIn t .expression
    write ";"
  | .callStatement =>
    simple o do
      expressionIn t .expression
      write ";"
    match (← t.child .expression).node.flags.lookup .blocking with
    | some true => throw .blockingCall
    | some false => pure ()
    | none => throw .noMember
  | .papiWait => papiWait t
  | .papiSleep => papiSleep t
  | .whileLoop =>
    head o do
      write "while("
      expressionIn t .expression
      write ")"
    inRole parts .body
  | .doWhileLoop =>
    head o (write "do")
    inRole parts .body
    simple o do
      write "while("
      expressionIn t .expression
      write ");"
  | .forLoop =>
    head o do
      write "for("
      optionalExpression t .start ""
      write ";"
      optionalExpression t .condition " "
      write "; "
      optionalExpression t .iteration " "
      write ")"
    inRole parts .body
  | .returnStatement => simple o do
    write "return"
    optionalExpression t .expression " "
    write ";"
  | .typedefStatement => simple o do
    write "typedef "
    typed t .aliasedType
    write ";"
  | .ifElse =>
    head o do
      write "if("
      expressionIn t .expression
      write ")"
    inRole parts .thenBranch
    if (t.child? .elseBranch).isSome then
      simple .unknown (write "else")
      inRole parts .elseBranch
  | .machine => dispatch n
  | .debugState =>
    let next := shownNumber n .nextState
    line s!"sa_state->sa_next = {next};"
    suspend "PLUGIN_DEBUG"
    line s!"label_{next}: /* nop */ ;"
  | .beforeSub =>
    let next := shownNumber n .nextState
    enterSub next
    line s!"label_{next}: "
  | .afterSub =>
    line "if(*(uint8_t*)(sa_state + 1) != 0) "
    passOn
  | .callSub => callSub t
  | .initFirst =>
    let state ← shownText n .initState
    line s!"*(uint8_t*){state} = 0;"
  | .beforeReturn => line "sa_state->sa_next = 0;"
  | .mainFirst => mainFirst n
  | .subFirst =>
    let name ← structName
    line s!"{name}* sa_state = ({name}*)sa_state0;"
  | .readFields => readFields t
  | .writeFields => writeFields n
  | _ => writePieces ((← printing).bare t)

def visit (parent : Option Kind) : Tree → Print Unit
  | .mk n cs => rule parent (.mk n cs) (go (some n.kind) cs)
where
  go (parent : Option Kind) : List (Role × Tree) → List Printable
    | [] => []
    | (r, t) :: rest => ⟨r, visit parent t⟩ :: go parent rest

def text (parent : Option Kind) (t : Tree) : Print String := do
  visit parent t
  let text ← (← get).listing.text
  checkStage (← get).product.stage
  return text

end Resumable.Print
