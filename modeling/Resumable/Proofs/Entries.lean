import Mathlib.Data.List.Forall2
import Resumable.Printing.Program
import Resumable.Proofs.Steps
import Resumable.Proofs.Uncut

/-!
# What printing hands to a listing

A printer hands pieces and lines to its listing, and says where statements end. What it hands over
for a tree depends on nothing but the tree and the scene: what is known about the program, and the
function that is being printed. So it is a list of entries, which is computed here without a
printer.

* `Scene.entries`: the entries of a tree.
* `Print.enters_rule`: the printing of each kind of node hands over its entries.
* `Print.enters_visit`: so does the printing of a tree.
* `Print.text_inv`: the text that is printed is that of the entries.
-/

namespace Resumable

open List

variable {x : Print Unit} {γ : Type}

/-! ## Entries -/

/-- What a listing is handed. -/
inductive Entry where
  | piece (text : String)
  | line (text : String)
  | stop (o : Origin) (useFirst : Bool)
deriving Repr, DecidableEq

namespace Listing

/-- An entry in a listing. -/
def enter (l : Listing) : Entry → Listing
  | .piece text => l.write text
  | .line text => l.push text
  | .stop o useFirst => l.endStatement o useFirst

def enterAll (l : Listing) (es : List Entry) : Listing := es.foldl enter l

end Listing

/-- What is known about a program while a text is printed from it. -/
structure Scene where
  product : Product
  index : IdMap Tree
  machines : Machines
  known : Option Machines := none
  function : Option Tree := none
  machine : Option Machine := none
deriving Inhabited

/-- What a printer knows. -/
def Printer.scene (p : Printer) : Scene :=
  ⟨p.product, p.index, p.machines, p.known, p.function, p.machine⟩

namespace Entry

/-- The pieces of an expression, as entries. -/
def pieces : Printing.Pieces → List Entry
  | .ok ps => ps.map .piece
  | .error _ => []

/-- The text of a node, as an entry. -/
def textOf (n : Node) (k : TextKey) : List Entry :=
  match n.text k with
  | .ok (some text) => [.piece text]
  | _ => []

/-- The text of a node as it is printed. -/
def shownText (n : Node) (k : TextKey) : String :=
  match n.text k with
  | .ok text => Tree.shown text
  | .error _ => ""

end Entry

namespace Scene

open Entry

def printing (s : Scene) : Printing := ⟨s.index, s.machine⟩

variable (s : Scene)

/-- A type in some place, printed. -/
def typeIn (t : Tree) (r : Role) : List Entry := pieces (s.printing.typeIn t r)

/-- An expression in some place, printed. -/
def expressionIn (t : Tree) (r : Role) : List Entry := pieces (s.printing.expressionIn t r)

/-- An expression with a text in front, if there is one. -/
def optionalExpression (t : Tree) (r : Role) (before : String) : List Entry :=
  if (t.child? r).isSome then .piece before :: s.expressionIn t r else []

/-- A type, and the name that is declared with it. -/
def typed (t : Tree) (r : Role) : List Entry :=
  s.typeIn t r ++ .piece " " :: textOf t.node .name

/-! ## Leaving a function -/

def returnKind : Option Kind :=
  (s.function.bind (·.child? .returnType)).bind fun type =>
    ((type.node.link? .typeDeclaration).bind s.index.get?).map (·.kind)

/-- The `return` of a function that has nothing to give. -/
def leave : List Entry :=
  [.line (if s.returnKind = some .voidDecl then "return;" else "return 0;")]

/-- Whether the machine of the function is that of the handler. -/
def isMain : Bool := s.machine.any (·.main)

/-- To leave a function that goes on later. -/
def suspend (result : String) : List Entry :=
  if s.isMain then [.line s!"return {result};"]
  else .line s!"*sa_result = {result};" :: s.leave

/-- Leaves a function after one that it called was left to come back later. -/
def passOn : List Entry := if s.isMain then [.line "return *sa_result;"] else s.leave

/-! ## Statements with states -/

def firstArgument (t : Tree) : List Entry :=
  match s.printing.argumentsOf t with
  | .ok args => pieces (Printing.argumentAt args 0)
  | .error _ => []

def argumentList (t : Tree) : List Entry :=
  match s.printing.argumentsOf t with
  | .ok args => pieces (Printing.argumentPieces <$> args.mapM id)
  | .error _ => []

/-- Stores the next state, leaves the function, and tests behind the label whether to wait on. -/
def waitHere (next : String) (test : List Entry) : List Entry :=
  .line s!"sa_state->sa_next = {next};" :: s.suspend "PLUGIN_WAITING" ++
    .piece s!"label_{next}:" :: test ++ [.stop .unknown false, .line "\x7b"] ++
    s.suspend "PLUGIN_WAITING" ++ [.line "\x7d"]

/-- Starts a transfer and waits until it is done. -/
def papiWait (t : Tree) : List Entry :=
  let n := t.node
  textOf n .name ++ s.argumentList t ++ [.piece ";", .stop n.origin false] ++
    .piece "papi_wait_handler_add_wait_for_" :: textOf n .waitFor ++
    .piece "(sa_wf, " :: s.firstArgument t ++ [.piece ");", .stop .unknown false] ++
    s.waitHere (Print.shownNumber n .nextState)
      (.piece "if(papi_wait_handler_is_waiting_for_" :: textOf n .waitFor ++
        .piece "(sa_wf, " :: s.firstArgument t ++ [.piece "))"])

/-- Waits until some time has passed. -/
def papiSleep (t : Tree) : List Entry :=
  .piece "papi_wait_handler_add_wait_for_timeout(sa_wf, " :: s.firstArgument t ++
    [.piece ");", .stop t.origin false] ++
    s.waitHere (Print.shownNumber t.node .nextState)
      [.piece "if(papi_wait_handler_is_waiting_for_timeout(0, sa_wf))"]

/-- The jump to the label of the state that was stored. -/
def dispatch (n : Node) : List Entry :=
  let last := ((n.number? .lastState).map Int.toNat).getD 0
  [.line "switch(sa_state->sa_next) \x7b", .line "case 0: break;"] ++
    (List.range last).map (fun i => .line s!"case {i + 1}: goto label_{i + 1};") ++
    [.line "default: ZEPTO_ASSERT(0);", .line "\x7d"]

/-- Stores the next state, and lets the function that is called start from its first one. -/
def enterSub (next : String) : List Entry :=
  [.line "*(uint8_t*)(sa_state + 1) = 0;", .line s!"sa_state->sa_next = {next};"]

/-- The type that the function called in a statement returns. -/
def calledType (t : Tree) : List Entry :=
  match (t.child? .expression).bind fun call =>
    (call.node.link? .declaration).bind s.index.get? with
  | some d => s.typeIn d .returnType
  | none => []

/-- A call of a function with states, with its label. -/
def callSub (t : Tree) : List Entry :=
  let n := t.node
  let next := Print.shownNumber n .nextState
  enterSub next ++ .line s!"label_{next}: ;/*nop*/" :: s.calledType t ++
    .piece " " :: textOf n .name ++ .piece " = " :: s.expressionIn t .expression ++
    [.piece ";", .stop n.origin false, .line "if(*(uint8_t*)(sa_state + 1) != 0)"] ++ s.passOn

def structName : String := Tree.shown (s.machine.bind (·.structName))

/-- The set-up of a handler. -/
def mainFirst (n : Node) : List Entry :=
  let name := s.structName
  let state := shownText n .handlerState
  let wait := shownText n .handlerWait
  [.line s!"{name}* sa_state = ({name}*){state};", .line s!"waiting_for* sa_wf = {wait};"] ++
    if s.known.any (·.hasSubMachines) then
      [.line "\nuint8_t sa_result0 = PLUGIN_OK;", .line "\nuint8_t* sa_result = &sa_result0;"]
    else []

/-! ## Messages of the manifest -/

def transferWord (f : Field) : String :=
  match transferName f.type with
  | .ok w => w
  | .error _ => ""

/-- The body of a function that reads a message into a struct. -/
def readFields (t : Tree) : List Entry :=
  s.typeIn t .structType ++ [.piece " sa_res;", .stop .unknown false] ++
    t.node.fields.map (fun f =>
      .line s!"sa_res.{Tree.shown f.name} = papi_parser_read_{transferWord f}(sa_po);") ++
    [.line "return sa_res;"]

/-- The body of a function that writes a message. -/
def writeFields (n : Node) : List Entry :=
  n.fields.map fun f => .line s!"papi_reply_write_{transferWord f}(sa_rh, {Tree.shown f.name});"

/-! ## Declarations -/

/-- A parameter of a function, with what stands before it. -/
def parameter (extra : Bool) (param : Tree) (i : Nat) : List Entry :=
  (if extra || i ≠ 0 then [.piece ", "] else []) ++ s.typeIn param .parameterType ++
    match param.node.text .name with
    | .ok (some name) => [.piece " ", .piece name]
    | _ => []

/-- The parameters of a function, behind those of its machine. -/
def parameters (t : Tree) (extra : Bool) : List Entry :=
  match t.child? .parameters with
  | some list => (list.inRole .declarations).zipIdx.flatMap fun (param, i) =>
      s.parameter extra param i
  | none => []

/-- The scene in a function, with its machine. -/
def entering (t : Tree) : Scene :=
  { s with function := some t, machine := s.known.bind fun ms => ms.find? t.id }

def functionDecl (parent : Option Kind) (t : Tree) : List Entry :=
  let extra := s.machine.any fun m => !m.main
  (if t.node.flag .static then [.piece "static "] else []) ++
    (if t.node.flag .inlined then [.piece "inline "] else []) ++ s.typeIn t .returnType ++
    .piece " " :: textOf t.node .name ++ .piece "(" ::
    (if extra then [.piece "void* sa_state0, waiting_for* sa_wf, uint8_t* sa_result"] else []) ++
    s.parameters t extra ++ .piece ")" ::
    (if parent = some .functionDefinition then [] else [.piece ";"]) ++ [.stop t.origin true]

/-- A variable. One that outlives a state is a field, so that only its first value is stored. -/
def variableDeclaration (t : Tree) : List Entry :=
  if s.printing.outlives t.id then
    if (t.child? .initializer).isSome then
      .piece "sa_state->" :: textOf t.node .name ++ .piece " = " ::
        s.expressionIn t .initializer ++ [.piece ";", .stop t.origin false]
    else []
  else
    s.typed t .declaredType ++ s.optionalExpression t .initializer " = " ++
      [.piece ";", .stop t.origin false]

/-! ## Headers -/

/-- A field of the structure of a machine. -/
def field (v : NodeId) : List Entry :=
  match s.index.get? v with
  | some t => s.typed t .declaredType ++ [.piece ";", .stop t.origin false]
  | none => []

/-- The structure of a machine. -/
def machineStruct (m : Machine) : List Entry :=
  let name := Tree.shown m.structName
  [.line ("typedef struct _" ++ name ++ " \x7b"), .line "uint8_t sa_next;"] ++
    m.kept.flatMap s.field ++ [.line ("\x7d " ++ name ++ ";"), .line ""]

def stateHeader : List Entry :=
  let guard := Tree.shown (s.machines.names.map (·.includeGuard))
  [.line s!"#if !defined {guard}", .line s!"#define {guard}", .line "",
    .line "#include <stdint.h>", .line "", .line ""] ++ s.machines.list.flatMap s.machineStruct ++
    [.line s!"#endif // {guard}"]

def messageHeaderTop (start : String) : List Entry :=
  let guard := s!"__SA_{Text.upper start}_PLUGIN_H__"
  [s!"#if !defined {guard}", s!"#define {guard}", "", "#include <stdint.h>",
    "#include \"papi.h\"", ""].map .line

def messageHeaderBottom (start : String) : List Entry :=
  let guard := s!"__SA_{Text.upper start}_PLUGIN_H__"
  ["", s!"typedef struct _{start}_plugin_persistent_state", "\x7b", "uint8_t sa_dummy;",
    "\x7d " ++ start ++ "_plugin_persistent_state;", "", "#ifdef __cplusplus",
    "extern \"C\" \x7b", "#endif", "",
    s!"uint8_t {start}_plugin_handler_init( const void* plugin_config, void* plugin_state );",
    s!"uint8_t {start}_plugin_exec_init( const void* plugin_config, void* plugin_state );",
    s!"uint8_t {start}_plugin_handler( const void* plugin_config,"
      ++ " void* plugin_persistent_state, void* plugin_state, ZEPTO_PARSER* command,"
      ++ " MEMORY_HANDLE reply, waiting_for* wf, uint8_t first_byte );",
    "", "#ifdef __cplusplus", "\x7d", "#endif", "", s!"#endif // {guard}"].map .line

/-! ## Rules -/

/-- A child of a node with its entries in a scene, and the scene behind it. -/
structure Part where
  role : Role
  entries : Scene → List Entry × Scene

/-- The entries of parts, one after the other. -/
def all : List Part → Scene → List Entry × Scene
  | [], s => ([], s)
  | p :: ps, s => ((p.entries s).1 ++ (all ps (p.entries s).2).1, (all ps (p.entries s).2).2)

def inRole (parts : List Part) (r : Role) : Scene → List Entry × Scene :=
  all (parts.filter (·.role == r))

/-- Entries around those of some parts. -/
def around (before : List Entry) (inner : List Entry × Scene) (behind : List Entry) :
    List Entry × Scene :=
  (before ++ inner.1 ++ behind, inner.2)

/-- The entries of a node, from those of its parts. -/
def rule (parent : Option Kind) (t : Tree) (parts : List Part) : List Entry × Scene :=
  let n := t.node
  let o := n.origin
  match n.kind with
  | .root =>
    match s.product with
    | .code => inRole parts .source { s with known := some s.machines }
    | .stateHeader => (s.stateHeader, s)
    | .messageHeader => inRole parts .manifest s
  | .pluginManifest =>
    match n.text .pluginPrefix with
    | .ok (some start) =>
      around (messageHeaderTop start) (all parts s) (messageHeaderBottom start)
    | _ => ([], s)
  | .pluginSource =>
    let start := shownText n .pluginPrefix
    around [.line s!"#include \"{start}_state.h\""] (all parts s) []
  | .declarationList | .argumentDeclList | .functionDefinition => all parts s
  | .directive =>
    match n.text .body with
    | .ok (some text) => ([.line text], s)
    | _ => ([], s)
  | .includeFile =>
    match n.text .fileName with
    | .ok (some name) => ([.line ("#include " ++ name)], s)
    | _ => ([], s)
  | .constantDefine =>
    (.piece "#define " :: textOf n .name ++ .piece " " :: s.expressionIn t .expression ++
      [.stop o false], s)
  | .staticAssert =>
    (.piece "_Static_assert (" :: s.expressionIn t .expression ++ .piece ", " ::
      textOf n .description ++ [.piece ");", .stop o false], s)
  | .functionDecl | .papiFunctionDecl | .operatorDecl =>
    ((s.entering t).functionDecl parent t, s.entering t)
  | .structDecl =>
    around (textOf n .name ++ [.stop o true, .line "\x7b"]) (inRole parts .members s)
      [.line "\x7d;"]
  | .attributeDecl => (s.typed t .declaredType ++ [.piece ";", .stop o false], s)
  | .statementList => around [.line "\x7b"] (all parts s) [.line "\x7d"]
  | .nop => ([.piece ";", .stop o false], s)
  | .variableDeclaration => (s.variableDeclaration t, s)
  | .expressionStatement | .callStatement =>
    (s.expressionIn t .expression ++ [.piece ";", .stop o false], s)
  | .papiWait => (s.papiWait t, s)
  | .papiSleep => (s.papiSleep t, s)
  | .whileLoop =>
    around (.piece "while(" :: s.expressionIn t .expression ++ [.piece ")", .stop o true])
      (inRole parts .body s) []
  | .doWhileLoop =>
    around [.piece "do", .stop o true] (inRole parts .body s)
      (.piece "while(" :: (inRole parts .body s).2.expressionIn t .expression ++
        [.piece ");", .stop o false])
  | .forLoop =>
    around (.piece "for(" :: s.optionalExpression t .start "" ++ .piece ";" ::
      s.optionalExpression t .condition " " ++ .piece "; " ::
      s.optionalExpression t .iteration " " ++ [.piece ")", .stop o true])
      (inRole parts .body s) []
  | .returnStatement =>
    (.piece "return" :: s.optionalExpression t .expression " " ++ [.piece ";", .stop o false], s)
  | .typedefStatement =>
    (.piece "typedef " :: s.typed t .aliasedType ++ [.piece ";", .stop o false], s)
  | .ifElse =>
    let yes := around
      (.piece "if(" :: s.expressionIn t .expression ++ [.piece ")", .stop o true])
      (inRole parts .thenBranch s) []
    if (t.child? .elseBranch).isSome then
      around (yes.1 ++ [.piece "else", .stop .unknown false]) (inRole parts .elseBranch yes.2) []
    else yes
  | .machine => (dispatch n, s)
  | .debugState =>
    let next := Print.shownNumber n .nextState
    (.line s!"sa_state->sa_next = {next};" :: s.suspend "PLUGIN_DEBUG" ++
      [.line s!"label_{next}: /* nop */ ;"], s)
  | .beforeSub =>
    let next := Print.shownNumber n .nextState
    (enterSub next ++ [.line s!"label_{next}: "], s)
  | .afterSub => (.line "if(*(uint8_t*)(sa_state + 1) != 0) " :: s.passOn, s)
  | .callSub => (s.callSub t, s)
  | .initFirst =>
    let state := shownText n .initState
    ([.line s!"*(uint8_t*){state} = 0;"], s)
  | .beforeReturn => ([.line "sa_state->sa_next = 0;"], s)
  | .mainFirst => (s.mainFirst n, s)
  | .subFirst =>
    let name := s.structName
    ([.line s!"{name}* sa_state = ({name}*)sa_state0;"], s)
  | .readFields => (s.readFields t, s)
  | .writeFields => (writeFields n, s)
  | _ => (pieces (s.printing.bare t), s)

/-- The entries of a tree. -/
def entries (parent : Option Kind) : Tree → Scene → List Entry × Scene
  | .mk n cs, s => s.rule parent (.mk n cs) (go (some n.kind) cs)
where
  go (parent : Option Kind) : Children → List Part
    | [] => []
    | (r, t) :: rest => ⟨r, entries parent t⟩ :: go parent rest

end Scene

/-! ## Printers -/

namespace Print

variable {s s₁ s₂ : Scene} {es es' : List Entry} {α β : Type}

/-- A step only reads, and what it gives has some property. -/
def Finds (s : Scene) (x : Print α) (Q : α → Prop) : Prop :=
  ∀ ⦃p p' : Printer⦄ ⦃a : α⦄, p.scene = s → x p = .ok a p' → p' = p ∧ Q a

/-- A step hands over entries, and leads from one scene to another. -/
def Enters (s : Scene) (x : Print α) (es : List Entry) (s' : Scene) : Prop :=
  ∀ ⦃p p' : Printer⦄ ⦃a : α⦄, p.scene = s → x p = .ok a p' →
    p'.scene = s' ∧ p'.listing = p.listing.enterAll es

theorem enters_pure (a : α) : Enters s (pure a) [] s := by
  intro p p' x hs h
  cases h
  exact ⟨hs, rfl⟩

theorem enters_throw (f : Fault) : Enters s (throw f : Print α) es s₁ := by
  intro p p' x hs h
  cases h

theorem enters_throw_bind (f : Fault) {g : α → Print β} : Enters s (throw f >>= g) es s₁ := by
  intro p p' x hs h
  cases h

/-- One printing behind the other. -/
theorem Enters.bind {x : Print α} {f : α → Print β} (hx : Enters s x es s₁)
    (hf : ∀ a, Enters s₁ (f a) es' s₂) : Enters s (x >>= f) (es ++ es') s₂ := by
  intro p p' b hs h
  obtain ⟨a, p₁, h₁, h₂⟩ := Step.bind_inv h
  obtain ⟨hs₁, hl₁⟩ := hx hs h₁
  obtain ⟨hs₂, hl₂⟩ := hf a hs₁ h₂
  refine ⟨hs₂, ?_⟩
  rw [hl₂, hl₁, Listing.enterAll, Listing.enterAll, Listing.enterAll, foldl_append]

theorem Enters.seq {x : Print α} {y : Print β} (hx : Enters s x es s₁) (hy : Enters s₁ y es' s₂) :
    Enters s (x >>= fun _ => y) (es ++ es') s₂ :=
  hx.bind fun _ => hy

/-- A value is looked up, and then something is printed. -/
theorem Finds.enters {x : Print α} {Q : α → Prop} {f : α → Print β} (hx : Finds s x Q)
    (hf : ∀ a, Q a → Enters s (f a) es s₁) : Enters s (x >>= f) es s₁ := by
  intro p p' b hs h
  obtain ⟨a, p₁, h₁, h₂⟩ := Step.bind_inv h
  obtain ⟨rfl, ha⟩ := hx hs h₁
  exact hf a ha hs h₂

theorem Enters.when {b : Bool} {x : Print PUnit} {f : PUnit → Print β} (hx : Enters s x es s)
    (hf : ∀ u, Enters s (f u) es' s₁) :
    Enters s (if b = true then x >>= f else f PUnit.unit) ((if b then es else []) ++ es') s₁ := by
  split
  · exact hx.bind hf
  · exact hf _

theorem Enters.congr {x : Print α} (h : Enters s x es s₁) (he : es = es') : Enters s x es' s₁ :=
  he ▸ h

theorem finds_get : Finds s get (·.scene = s) := by
  intro p p' a hs h
  cases h
  exact ⟨rfl, hs⟩

theorem finds_lift {x : Except Fault α} : Finds s (liftM x : Print α) (x = .ok ·) := by
  intro p p' a hs h
  obtain ⟨hx, rfl⟩ := Step.lift_inv h
  exact ⟨rfl, hx⟩

theorem finds_printing : Finds s printing (· = s.printing) := by
  intro p p' a hs h
  cases h
  subst hs
  exact ⟨rfl, rfl⟩

/-! ## Pieces and lines -/

theorem enters_write (text : String) : Enters s (write text) [.piece text] s := by
  intro p p' x hs h
  cases h
  exact ⟨hs, rfl⟩

theorem enters_endStatement (o : Origin) (useFirst : Bool) :
    Enters s (endStatement o useFirst) [.stop o useFirst] s := by
  intro p p' x hs h
  cases h
  exact ⟨hs, rfl⟩

theorem push_of_writeLine {l l' : Listing} {text : Option String}
    (h : l.writeLine text = .ok l') : ∃ line, text = some line ∧ l' = l.push line := by
  unfold Listing.writeLine at h
  split at h
  · cases h
  · cases text with
    | none => cases h
    | some line =>
      cases h
      exact ⟨line, rfl, rfl⟩

theorem enters_line (text : String) : Enters s (line text) [.line text] s := by
  intro p p' x hs h
  obtain ⟨q, p₁, hget, h⟩ := Step.bind_inv h
  cases hget
  obtain ⟨l, p₂, hl, hset⟩ := Step.bind_inv h
  obtain ⟨hpush, rfl⟩ := Step.lift_inv hl
  cases hset
  obtain ⟨_, ⟨⟩, rfl⟩ := push_of_writeLine hpush
  exact ⟨hs, rfl⟩

theorem Enters.write {text : String} {y : Print β} (h : Enters s y es s₁) :
    Enters s (Print.write text >>= fun _ => y) (.piece text :: es) s₁ :=
  (enters_write text).seq h

theorem Enters.line {text : String} {y : Print β} (h : Enters s y es s₁) :
    Enters s (Print.line text >>= fun _ => y) (.line text :: es) s₁ :=
  (enters_line text).seq h

theorem Enters.stop {o : Origin} {b : Bool} {y : Print β} (h : Enters s y es s₁) :
    Enters s (endStatement o b >>= fun _ => y) (.stop o b :: es) s₁ :=
  (enters_endStatement o b).seq h

theorem enters_forM_write (ps : List String) : Enters s (ps.forM write) (ps.map .piece) s := by
  induction ps with
  | nil => exact enters_pure ()
  | cons q ps ih => exact ih.write

/-- An expression hands over its pieces. -/
theorem enters_pieces (x : Printing.Pieces) : Enters s (writePieces x) (Entry.pieces x) s := by
  cases x with
  | ok ps => exact enters_forM_write ps
  | error e =>
    cases e with
    | fault f => exact enters_throw f
    | unsupported k =>
      intro p p' x hs h
      cases h

theorem enters_typeIn (t : Tree) (r : Role) : Enters s (typeIn t r) (s.typeIn t r) s :=
  finds_printing.enters fun _ hq => hq ▸ enters_pieces _

theorem enters_expressionIn (t : Tree) (r : Role) :
    Enters s (expressionIn t r) (s.expressionIn t r) s :=
  finds_printing.enters fun _ hq => hq ▸ enters_pieces _

theorem enters_optionalExpression (t : Tree) (r : Role) (before : String) :
    Enters s (optionalExpression t r before) (s.optionalExpression t r before) s := by
  unfold optionalExpression Scene.optionalExpression
  split
  · exact (enters_expressionIn t r).write
  · exact enters_pure ()

theorem enters_textOf (n : Node) (k : TextKey) : Enters s (textOf n k) (Entry.textOf n k) s := by
  refine finds_lift.enters fun text htext => ?_
  rw [Entry.textOf, htext]
  cases text with
  | none => exact enters_throw _
  | some text => exact enters_write text

theorem finds_shownText (n : Node) (k : TextKey) :
    Finds s (shownText n k) (· = Entry.shownText n k) := by
  intro p p' a hs h
  obtain ⟨text, p₁, htext, hend⟩ := Step.bind_inv h
  obtain ⟨hok, rfl⟩ := Step.lift_inv htext
  cases hend
  rw [Entry.shownText, hok]
  exact ⟨rfl, rfl⟩

theorem enters_typed (t : Tree) (r : Role) : Enters s (typed t r) (s.typed t r) s :=
  (enters_typeIn t r).seq (enters_textOf t.node .name).write

/-! ## Leaving a function -/

theorem finds_currentMachine : Finds s currentMachine (s.machine = some ·) := by
  intro p p' m hs h
  obtain ⟨q, p₁, hget, h⟩ := Step.bind_inv h
  cases hget
  subst hs
  cases hm : p.machine with
  | none =>
    rw [hm] at h
    cases h
  | some m' =>
    rw [hm] at h
    cases h
    exact ⟨rfl, hm⟩

theorem finds_child (t : Tree) (r : Role) : Finds s (liftM (t.child r) : Print Tree)
    (t.child? r = some ·) := by
  intro p p' c hs h
  obtain ⟨hok, rfl⟩ := Step.lift_inv h
  unfold Tree.child at hok
  split at hok
  · next hchild =>
    cases hok
    exact ⟨rfl, hchild⟩
  · cases hok

theorem finds_returnKind : Finds s returnKind (· = s.returnKind) := by
  intro p p' k hs h
  obtain ⟨q, p₁, hget, h⟩ := Step.bind_inv h
  cases hget
  cases hf : p.function with
  | none =>
    rw [hf] at h
    cases h
  | some f =>
    rw [hf] at h
    obtain ⟨type, p₂, htype, hend⟩ := Step.bind_inv h
    obtain ⟨rfl, hchild⟩ := finds_child f .returnType hs htype
    cases hend
    subst hs
    simp [Scene.returnKind, Printer.scene, hf, hchild]

theorem enters_leave : Enters s leave s.leave s := by
  refine finds_returnKind.enters fun k hk => ?_
  unfold Scene.leave
  rw [← hk]
  split
  · exact enters_line _
  · exact enters_line _
  · exact enters_throw _

theorem isMain_of_machine {m : Machine} (h : s.machine = some m) : s.isMain = m.main := by
  rw [Scene.isMain, h]
  rfl

theorem enters_suspend (result : String) : Enters s (suspend result) (s.suspend result) s := by
  refine finds_currentMachine.enters fun m hm => ?_
  rw [Scene.suspend, isMain_of_machine hm]
  split
  · exact enters_line _
  · exact enters_leave.line

theorem enters_passOn : Enters s passOn s.passOn s := by
  refine finds_currentMachine.enters fun m hm => ?_
  rw [Scene.passOn, isMain_of_machine hm]
  split
  · exact enters_line _
  · exact enters_leave

/-! ## Statements with states -/

theorem enters_firstArgument (t : Tree) : Enters s (firstArgument t) (s.firstArgument t) s := by
  refine finds_printing.enters fun q hq => ?_
  subst hq
  unfold Scene.firstArgument
  cases s.printing.argumentsOf t with
  | ok args => exact enters_pieces _
  | error e => exact enters_pieces (.error e)

theorem enters_argumentList (t : Tree) : Enters s (argumentList t) (s.argumentList t) s := by
  refine finds_printing.enters fun q hq => ?_
  subst hq
  unfold Scene.argumentList
  cases s.printing.argumentsOf t with
  | ok args => exact enters_pieces _
  | error e => exact enters_pieces (.error e)

theorem enters_waitHere (next : String) {test : Print Unit} (h : Enters s test es s) :
    Enters s (waitHere next test) (s.waitHere next es) s := by
  refine .congr (.line <| .seq (enters_suspend _) <| .write <| h.seq <| .stop <| .line <|
    .seq (enters_suspend _) (enters_line _)) ?_
  simp [Scene.waitHere]

theorem enters_papiWait (t : Tree) : Enters s (papiWait t) (s.papiWait t) s := by
  have htest : Enters s (do
      write "if(papi_wait_handler_is_waiting_for_"
      textOf t.node .waitFor
      write "(sa_wf, "
      firstArgument t
      write "))") _ s :=
    .write <| .seq (enters_textOf _ _) <| .write <| .seq (enters_firstArgument t) (enters_write _)
  refine .congr (.seq (enters_textOf _ _) <| .seq (enters_argumentList t) <| .write <| .stop <|
    .write <| .seq (enters_textOf _ _) <| .write <| .seq (enters_firstArgument t) <| .write <|
    .stop <| enters_waitHere _ htest) ?_
  simp [Scene.papiWait]

theorem enters_papiSleep (t : Tree) : Enters s (papiSleep t) (s.papiSleep t) s := by
  refine .congr (.write <| .seq (enters_firstArgument t) <| .write <| .stop <|
    enters_waitHere _ (enters_write _)) ?_
  simp [Scene.papiSleep]

/-! ## Loops -/

/-- The loop is not left early. -/
def Yields (x : Print (ForInStep PUnit)) : Prop :=
  ∀ ⦃p p' : Printer⦄ ⦃step : ForInStep PUnit⦄, x p = .ok step p' → step = .yield PUnit.unit

theorem yields_pure : Yields (pure (.yield PUnit.unit)) := by
  intro p p' step h
  cases h
  rfl

theorem Yields.bind {x : Print α} {f : α → Print (ForInStep PUnit)} (hf : ∀ a, Yields (f a)) :
    Yields (x >>= f) := by
  intro p p' step h
  obtain ⟨a, p₁, -, h⟩ := Step.bind_inv h
  exact hf a h

/-- A loop hands over the entries of its rounds. -/
theorem enters_forIn {g : γ → PUnit → Print (ForInStep PUnit)} {f : γ → List Entry} {l : List γ}
    (hg : ∀ x ∈ l, ∀ u, Enters s (g x u) (f x) s ∧ Yields (g x u)) (u : PUnit) :
    Enters s (forIn l u g) (l.flatMap f) s := by
  induction l with
  | nil => exact enters_pure _
  | cons x xs ih =>
    rw [forIn_cons, flatMap_cons]
    obtain ⟨hx, hyields⟩ := hg x mem_cons_self u
    have hrest := ih fun y hy => hg y (mem_cons_of_mem _ hy)
    intro p p' a hs h
    obtain ⟨step, p₁, h₁, h₂⟩ := Step.bind_inv h
    obtain rfl := hyields h₁
    obtain ⟨hs₁, hl₁⟩ := hx hs h₁
    obtain ⟨hs₂, hl₂⟩ := hrest hs₁ h₂
    refine ⟨hs₂, ?_⟩
    rw [hl₂, hl₁, Listing.enterAll, Listing.enterAll, Listing.enterAll, foldl_append]

theorem enters_lines (text : γ → String) (xs : List γ) :
    Enters s (forIn xs PUnit.unit fun x _ => do
      line (text x)
      pure (ForInStep.yield PUnit.unit)) (xs.map fun x => .line (text x)) s := by
  refine (enters_forIn (f := fun x => [.line (text x)]) (fun x _ _ => ⟨?_, ?_⟩) _).congr ?_
  · exact (enters_line _).bind fun _ => enters_pure _
  · exact .bind fun _ => yields_pure
  · rw [map_eq_flatMap]

theorem enters_dispatch (n : Node) : Enters s (dispatch n) (Scene.dispatch n) s := by
  unfold dispatch Scene.dispatch
  refine .line <| .line ?_
  cases hlast : n.number? .lastState with
  | none => exact enters_throw _
  | some last =>
    exact (enters_lines (fun i => s!"case {i + 1}: goto label_{i + 1};") _).seq (enters_line _).line

theorem enters_enterSub (next : String) : Enters s (enterSub next) (Scene.enterSub next) s :=
  (enters_line _).line

theorem enters_calledType (t : Tree) {rest : Print Unit} (h : Enters s rest es s) :
    Enters s (do
      let call ← t.child .expression
      match (call.node.link? .declaration).bind (← get).index.get? with
      | none => throw .noMember
      | some d =>
        unless d.kind.slot? .returnType |>.isSome do throw .noMember
        typeIn d .returnType
      rest) (s.calledType t ++ es) s := by
  refine (finds_child t .expression).enters fun call hcall => finds_get.enters fun q hq => ?_
  subst hq
  dsimp only
  rw [Scene.calledType, hcall, Option.bind_some]
  -- A call without a declaration is an error, and an error hands over nothing.
  cases hd : (call.node.link? .declaration).bind q.index.get? with
  | none => exact (enters_throw _).bind fun _ => h
  | some d =>
    rw [show (call.node.link? .declaration).bind q.scene.index.get? = some d from hd]
    dsimp only
    split
    · exact (enters_typeIn d .returnType).seq h
    · exact enters_throw_bind _

theorem enters_callSub (t : Tree) : Enters s (callSub t) (s.callSub t) s := by
  refine .congr (.seq (enters_enterSub _) <| .line <| enters_calledType t <| .write <|
    .seq (enters_textOf _ _) <| .write <| .seq (enters_expressionIn _ _) <| .write <| .stop <|
    .line enters_passOn) ?_
  simp [Scene.callSub]

theorem finds_structName : Finds s structName (· = s.structName) := by
  intro p p' name hs h
  obtain ⟨m, p₁, hget, hend⟩ := Step.bind_inv h
  obtain ⟨rfl, hm⟩ := finds_currentMachine hs hget
  cases hend
  exact ⟨rfl, by rw [Scene.structName, hm]; rfl⟩

theorem enters_mainFirst (n : Node) : Enters s (mainFirst n) (s.mainFirst n) s := by
  unfold mainFirst Scene.mainFirst
  refine finds_structName.enters fun name hname => ?_
  subst hname
  refine (finds_shownText n .handlerState).enters fun state hstate => ?_
  subst hstate
  refine .line <| (finds_shownText n .handlerWait).enters fun wait hwait => ?_
  subst hwait
  refine .line <| finds_get.enters fun q hq => ?_
  subst hq
  cases hk : q.known with
  | none => exact enters_throw _
  | some ms =>
    rw [show q.scene.known = some ms from hk]
    simp only [Option.any_some]
    split
    · exact (enters_line _).line
    · exact enters_pure ()

/-! ## Messages of the manifest -/

theorem enters_fields (text : Field → String → String) (fs : List Field) :
    Enters s (forIn fs PUnit.unit fun f _ => do
      let w ← transferName f.type
      line (text f w)
      pure (ForInStep.yield PUnit.unit))
        (fs.map fun f => .line (text f (Scene.transferWord f))) s := by
  refine (enters_forIn (f := fun f => [.line (text f (Scene.transferWord f))])
    (fun f _ _ => ⟨?_, ?_⟩) _).congr ?_
  · refine finds_lift.enters fun w hw => ?_
    rw [Scene.transferWord, hw]
    exact (enters_line _).bind fun _ => enters_pure _
  · exact .bind fun _ => .bind fun _ => yields_pure
  · rw [map_eq_flatMap]

theorem enters_readFields (t : Tree) : Enters s (readFields t) (s.readFields t) s := by
  refine .congr (.seq (enters_typeIn _ _) <| .write <| .stop <| .seq (enters_fields (fun f w =>
    s!"sa_res.{Tree.shown f.name} = papi_parser_read_{w}(sa_po);") t.node.fields)
    (enters_line _)) ?_
  simp [Scene.readFields]

theorem enters_writeFields (n : Node) : Enters s (writeFields n) (Scene.writeFields n) s :=
  ((enters_fields (fun f w => s!"papi_reply_write_{w}(sa_rh, {Tree.shown f.name});")
    n.fields).bind fun _ => enters_pure ()).congr (append_nil _)

/-! ## Declarations -/

/-- One parameter of a function. -/
theorem enters_parameter (extra : Bool) (param : Tree) (i : Nat) :
    let round : Print (ForInStep PUnit) := do
      if extra || i ≠ 0 then write ", "
      unless param.kind.slot? .parameterType |>.isSome do throw .noMember
      typeIn param .parameterType
      match ← param.node.text .name with
      | some name =>
        write " "
        write name
        pure (.yield PUnit.unit)
      | none => pure (.yield PUnit.unit)
    Enters s round (s.parameter extra param i) s ∧ Yields round := by
  have hname : Enters s (do
      match ← param.node.text .name with
      | some name =>
        write " "
        write name
        pure (ForInStep.yield PUnit.unit)
      | none => pure (ForInStep.yield PUnit.unit))
      (match param.node.text .name with
      | .ok (some name) => [.piece " ", .piece name]
      | _ => []) s := by
    refine finds_lift.enters fun name hname => ?_
    rw [hname]
    cases name with
    | none => exact enters_pure _
    | some name => exact (enters_pure _).write.write
  have htyped := (enters_typeIn (s := s) param .parameterType).seq hname
  refine ⟨(Enters.when (enters_write _) fun _ => ?_).congr (by rw [Scene.parameter,
    append_assoc]), ?_⟩
  · dsimp only
    split
    · exact htyped
    · exact enters_throw_bind _
  · -- The same statements once more, now for the way in which the round ends.
    have hend : Yields (do
        typeIn param .parameterType
        match ← param.node.text .name with
        | some name =>
          write " "
          write name
          pure (ForInStep.yield PUnit.unit)
        | none => pure (ForInStep.yield PUnit.unit)) := by
      refine .bind fun _ => .bind fun name => ?_
      cases name with
      | none => exact yields_pure
      | some name => exact .bind fun _ => .bind fun _ => yields_pure
    dsimp only
    split <;> split
    · exact .bind fun _ => hend
    · exact .bind fun _ => .bind fun _ => hend
    · exact hend
    · exact .bind fun _ => hend

theorem enters_parameters (t : Tree) (extra : Bool) :
    Enters s (parameters t extra) (s.parameters t extra) s := by
  refine (finds_child t .parameters).enters fun list hlist => ?_
  rw [Scene.parameters, hlist]
  exact ((enters_forIn (fun q _ _ => enters_parameter extra q.1 q.2) _).bind fun _ =>
    enters_pure ()).congr (append_nil _)

/-- The head of a function, which is the function from then on. -/
theorem enters_functionDecl (parent : Option Kind) (t : Tree) :
    Enters s (functionDecl parent t) ((s.entering t).functionDecl parent t) (s.entering t) := by
  intro p p' a hs h
  obtain ⟨q, p₁, hget, hrest⟩ := Step.bind_inv h
  cases hget
  obtain ⟨u, p₂, hset, hprint⟩ := Step.bind_inv hrest
  cases hset
  subst hs
  -- the rest is printed with the function and its machine at hand
  refine (?_ : Enters (p.scene.entering t) _ _ _)
    (p := { p with function := some t, machine := p.known.bind fun ms => ms.find? t.id }) rfl hprint
  clear h hrest hprint
  refine .congr (.when (enters_write _) fun _ => .when (enters_write _) fun _ =>
    .seq (enters_typeIn t _) <| .write <| .seq (enters_textOf _ _) <| .write <|
    .when (enters_write _) fun _ => .seq (enters_parameters t _) <| .write <|
    show Enters _ _ ((if parent = some .functionDefinition then [] else [.piece ";"]) ++
      [.stop t.origin true]) _ from ?_) ?_
  · split
    · exact (enters_throw _).bind fun _ => enters_endStatement _ _
    · exact enters_endStatement _ _
    · next k hk =>
      rw [if_neg (by simpa using hk)]
      exact (enters_endStatement _ _).write
  · have hmachine : (p.scene.entering t).machine = p.known.bind fun ms => ms.find? t.id := rfl
    simp [Scene.functionDecl, hmachine]

theorem enters_variableDeclaration (t : Tree) :
    Enters s (variableDeclaration t) (s.variableDeclaration t) s := by
  refine finds_printing.enters fun q hq => ?_
  subst hq
  unfold Scene.variableDeclaration
  split
  · split
    · refine .congr (.write <| .seq (enters_textOf _ _) <| .write <|
        .seq (enters_expressionIn _ _) (enters_endStatement _ _).write) ?_
      simp
    · exact enters_pure ()
  · refine .congr (.seq (enters_typed _ _) <| .seq (enters_optionalExpression _ _ _)
      (enters_endStatement _ _).write) ?_
    simp

/-! ## Headers -/

theorem enters_field (v : NodeId) :
    let round : Print (ForInStep PUnit) :=
      match s.index.get? v with
      | none => do
        throw .noMember
        pure (.yield PUnit.unit)
      | some v => do
        typed v .declaredType
        write ";"
        endStatement v.origin false
        pure (.yield PUnit.unit)
    Enters s round (s.field v) s ∧ Yields round := by
  unfold Scene.field
  cases s.index.get? v with
  | none => exact ⟨enters_throw_bind _, .bind fun _ => yields_pure⟩
  | some t =>
    refine ⟨.congr (.seq (enters_typed _ _) (enters_pure _).stop.write) ?_,
      .bind fun _ => .bind fun _ => .bind fun _ => yields_pure⟩
    simp

theorem enters_stateHeader : Enters s stateHeader s.stateHeader s := by
  refine finds_get.enters fun q hq => ?_
  subst hq
  -- what is printed for a machine
  have hmachines := enters_forIn (s := q.scene) (l := q.machines.list)
    (f := q.scene.machineStruct) (g := fun m _ => do
      let name := Tree.shown m.structName
      line ("typedef struct _" ++ name ++ " \x7b")
      line "uint8_t sa_next;"
      for v in m.kept do
        match q.index.get? v with
        | none => throw .noMember
        | some v =>
          typed v .declaredType
          write ";"
          endStatement v.origin false
      line ("\x7d " ++ name ++ ";")
      line ""
      return .yield PUnit.unit) (fun m _ _ => ⟨?_, ?_⟩) PUnit.unit
  · exact .line <| .line <| .line <| .line <| .line <| .line <| hmachines.seq (enters_line _)
  · refine .congr (.line <| .line <| .seq (enters_forIn (fun v _ _ => enters_field v) _)
      (enters_pure _).line.line) ?_
    simp [Scene.machineStruct]
  · exact .bind fun _ => .bind fun _ => .bind fun _ => .bind fun _ => .bind fun _ => yields_pure

/-! ## Rules -/

section

variable {t : Tree} {parts : List Printable} {parts' : List Scene.Part}

/-- Children are printed by handing over their entries, whatever the scene is. -/
def Matches (parts : List Printable) (parts' : List Scene.Part) : Prop :=
  List.Forall₂ (fun p q => p.role = q.role ∧
    ∀ s, Enters s p.print (q.entries s).1 (q.entries s).2) parts parts'

/-- Parts that match, one after the other. -/
theorem Matches.all (h : Matches parts parts') (s : Scene) :
    Enters s (all parts) (Scene.all parts' s).1 (Scene.all parts' s).2 := by
  induction h generalizing s with
  | nil => exact enters_pure ()
  | cons hp _ ih => exact (hp.2 s).seq (ih _)

theorem Matches.filter (h : Matches parts parts') (r : Role) :
    Matches (parts.filter (·.role == r)) (parts'.filter (·.role == r)) := by
  induction h with
  | nil => exact .nil
  | @cons p q ps qs hp _ ih =>
    rw [filter_cons, filter_cons, hp.1]
    split
    · exact .cons hp ih
    · exact ih

theorem Matches.inRole (h : Matches parts parts') (r : Role) (s : Scene) :
    Enters s (inRole parts r) (Scene.inRole parts' r s).1 (Scene.inRole parts' r s).2 :=
  (h.filter r).all s

theorem enters_simple (h : Enters s x es s) (o : Origin) :
    Enters s (simple o x) (es ++ [.stop o false]) s :=
  h.seq (enters_endStatement _ _)

theorem enters_head (h : Enters s x es s) (o : Origin) :
    Enters s (head o x) (es ++ [.stop o true]) s :=
  h.seq (enters_endStatement _ _)

theorem Enters.around {y z : Print Unit} {inner : List Entry × Scene} {behind : List Entry}
    (hx : Enters s x es s) (hy : Enters s y inner.1 inner.2)
    (hz : Enters inner.2 z behind inner.2) :
    Enters s (do x; y; z) (Scene.around es inner behind).1 (Scene.around es inner behind).2 :=
  (hx.seq (hy.seq hz)).congr (by rw [Scene.around, append_assoc])

theorem enters_root (h : Matches parts parts') :
    let inner := match s.product with
      | .code => Scene.inRole parts' .source { s with known := some s.machines }
      | .stateHeader => (s.stateHeader, s)
      | .messageHeader => Scene.inRole parts' .manifest s
    Enters s (root parts) inner.1 inner.2 := by
  refine finds_get.enters fun q hq => ?_
  rw [show q.product = s.product from hq ▸ rfl]
  cases hprod : s.product with
  | code =>
    intro p p' a hs hrun
    obtain ⟨u, p₁, hset, hrun⟩ := Step.bind_inv hrun
    cases hset
    subst hs
    refine h.inRole .source _ (p := { p with known := some p.machines }) ?_ hrun
    rw [← hprod]
    rfl
  | stateHeader => exact enters_stateHeader
  | messageHeader => exact h.inRole .manifest s

theorem enters_messageHeader (h : Matches parts parts') (n : Node) :
    let inner := match n.text .pluginPrefix with
      | .ok (some start) => Scene.around (Scene.messageHeaderTop start) (Scene.all parts' s)
          (Scene.messageHeaderBottom start)
      | _ => ([], s)
    Enters s (messageHeader n parts) inner.1 inner.2 := by
  refine finds_lift.enters fun start hstart => ?_
  rw [hstart]
  cases start with
  | none => exact enters_throw _
  | some start =>
    dsimp only [Scene.around]
    rw [append_assoc]
    -- lines, the messages, and lines again
    repeat' first
      | exact enters_line _
      | refine .line ?_
      | refine (h.all s).seq ?_

/-- The printing of a node, from that of its parts. -/
theorem enters_rule (h : Matches parts parts') (parent : Option Kind) (t : Tree) :
    Enters s (rule parent t parts) (s.rule parent t parts').1 (s.rule parent t parts').2 := by
  have hexpr : ∀ r, Enters s (expressionIn t r) (s.expressionIn t r) s := enters_expressionIn t
  have hopt : ∀ r before, Enters s (optionalExpression t r before)
      (s.optionalExpression t r before) s := enters_optionalExpression t
  unfold rule Scene.rule
  cases hk : t.node.kind
  all_goals simp only [hk]
  case root => exact enters_root h
  case pluginManifest =>
    refine finds_get.enters fun q hq => ?_
    split
    · exact enters_messageHeader h t.node
    · intro p p' a hs hrun
      cases hrun
  case pluginSource =>
    refine (finds_shownText t.node .pluginPrefix).enters fun start hstart => ?_
    subst hstart
    exact (h.all s).line.congr (append_nil _).symm
  case declarationList | argumentDeclList | functionDefinition => exact h.all s
  case directive =>
    intro p p' a hs hrun
    obtain ⟨q, p₁, hget, hrun⟩ := Step.bind_inv hrun
    cases hget
    obtain ⟨text, p₂, htext, hrun⟩ := Step.bind_inv hrun
    obtain ⟨hbody, rfl⟩ := Step.lift_inv htext
    obtain ⟨l, p₃, hline, hset⟩ := Step.bind_inv hrun
    obtain ⟨hpush, rfl⟩ := Step.lift_inv hline
    cases hset
    -- A directive is handed over as it stands in the source, past the pieces of the line.
    obtain ⟨text, rfl, rfl⟩ := push_of_writeLine hpush
    rw [hbody]
    exact ⟨hs, rfl⟩
  case includeFile =>
    refine finds_lift.enters fun name hname => ?_
    rw [hname]
    cases name with
    | none => exact enters_throw _
    | some name => exact enters_line _
  case constantDefine =>
    refine .congr (enters_simple (.write <| .seq (enters_textOf _ _) (hexpr _).write) _) ?_
    simp
  case staticAssert =>
    refine .congr (enters_simple (.write <| .seq (hexpr _) <| .write <|
      .seq (enters_textOf _ _) (enters_write _)) _) ?_
    simp
  case functionDecl | papiFunctionDecl | operatorDecl => exact enters_functionDecl parent t
  case structDecl =>
    refine .congr (.seq (enters_head (enters_textOf _ _) _) <| .line <|
      .seq (h.inRole .members s) (enters_line _)) ?_
    simp [Scene.around]
  case attributeDecl =>
    refine (enters_simple ((enters_typed _ _).seq (enters_write _)) _).congr ?_
    simp
  case statementList => exact Enters.around (enters_line _) (h.all s) (enters_line _)
  case nop => exact enters_simple (enters_write _) _
  case variableDeclaration => exact enters_variableDeclaration t
  case expressionStatement =>
    refine (enters_simple ((hexpr _).seq (enters_write _)) _).congr ?_
    simp
  case callStatement =>
    refine ((enters_simple ((hexpr _).seq (enters_write _)) _).seq
      (show Enters s _ [] s from ?_)).congr ?_
    · refine (finds_child t .expression).enters fun call _ => ?_
      split
      · exact enters_throw _
      · exact enters_pure ()
      · exact enters_throw _
    · simp
  case papiWait => exact enters_papiWait t
  case papiSleep => exact enters_papiSleep t
  case whileLoop =>
    refine .congr (.seq (enters_head (.write <| .seq (hexpr _) (enters_write _)) _)
      (h.inRole .body s)) ?_
    simp [Scene.around]
  case doWhileLoop =>
    refine .congr (.seq (enters_head (enters_write _) _) <| .seq (h.inRole .body s) <|
      enters_simple (.write <| .seq (enters_expressionIn _ _) (enters_write _)) _) ?_
    simp [Scene.around]
  case forLoop =>
    refine .congr (.seq (enters_head (.write <| .seq (hopt _ _) <| .write <| .seq (hopt _ _) <|
      .write <| .seq (hopt _ _) (enters_write _)) _) (h.inRole .body s)) ?_
    simp [Scene.around]
  case returnStatement =>
    refine .congr (enters_simple (.write <| .seq (hopt _ _) (enters_write _)) _) ?_
    simp
  case typedefStatement =>
    refine .congr (enters_simple (.write <| .seq (enters_typed _ _) (enters_write _)) _) ?_
    simp
  case ifElse =>
    have hhead := enters_head ((enters_write "if(").seq ((hexpr .expression).seq
      (enters_write ")"))) t.node.origin
    split
    · refine (hhead.seq ((h.inRole .thenBranch s).seq ((enters_simple (enters_write _) _).seq
        (h.inRole .elseBranch _)))).congr ?_
      simp [Scene.around]
    · refine (hhead.seq ((h.inRole .thenBranch s).seq (enters_pure ()))).congr ?_
      simp [Scene.around]
  case machine => exact enters_dispatch _
  case debugState =>
    exact .line <| .seq (enters_suspend _) (enters_line _)
  case beforeSub =>
    exact (enters_enterSub _).seq (enters_line _)
  case afterSub => exact enters_passOn.line
  case callSub => exact enters_callSub t
  case initFirst =>
    refine (finds_shownText t.node .initState).enters fun state hstate => ?_
    subst hstate
    exact enters_line _
  case beforeReturn => exact enters_line _
  case mainFirst => exact enters_mainFirst _
  case subFirst =>
    refine finds_structName.enters fun name hname => ?_
    subst hname
    exact enters_line _
  case readFields => exact enters_readFields t
  case writeFields => exact enters_writeFields _
  -- What is left are types and expressions.
  all_goals exact finds_printing.enters fun _ hq => hq ▸ enters_pieces _

/-- The printing of a tree. -/
theorem enters_visit (parent : Option Kind) (t : Tree) (s : Scene) :
    Enters s (visit parent t) (Scene.entries parent t s).1 (Scene.entries parent t s).2 := by
  induction t using Tree.ofChildren generalizing parent s with
  | step n cs ih =>
    rw [visit, Scene.entries]
    refine enters_rule ?_ parent _
    -- the children are printed one by one
    induction cs with
    | nil => exact .nil
    | cons p cs ihs =>
      refine .cons ⟨rfl, fun s => ih p mem_cons_self _ s⟩ (ihs fun q hq => ?_)
      exact ih q (mem_cons_of_mem _ hq)

end

theorem text_inv {parent : Option Kind} {t : Tree} {p p' : Printer} {text : String}
    (h : Print.text parent t p = .ok text p') :
    (p.listing.enterAll (Scene.entries parent t p.scene).1).text = .ok text := by
  unfold Print.text at h
  obtain ⟨_, p₁, hvisit, h⟩ := Step.bind_inv h
  obtain ⟨-, hl⟩ := enters_visit parent t p.scene rfl hvisit
  obtain ⟨q, p₂, hget, h⟩ := Step.bind_inv h
  cases hget
  obtain ⟨text', p₃, htext, hstage⟩ := Step.bind_inv h
  obtain ⟨hok, rfl⟩ := Step.lift_inv htext
  obtain ⟨q, p₄, hget, hcheck⟩ := Step.bind_inv hstage
  cases hget
  obtain ⟨_, p₅, -, hend⟩ := Step.bind_inv hcheck
  cases hend
  rw [← hl, hok]

end Print

end Resumable
