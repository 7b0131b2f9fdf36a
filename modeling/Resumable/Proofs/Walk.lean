import Resumable.Cutting.Program
import Resumable.Proofs.Making

/-!
# What a walk does

The rules of the walk through a function run in a state, may stop at a fault and are chosen by the
kind of a node. The relations of this module say what a walk does that does not stop, with one
case for each rule, and without the state monad. What is proved about cutting is proved by
induction on them.

* `Cutting.CutsOperand`, `Cutting.CutsStatement`, `Cutting.CutsFunction`, `Cutting.CutsDefinition`:
  what is made of a tree, with one case for each rule.
* `Cutting.Later`: what a walk leaves as it is in the state.
-/

namespace Resumable

/-! ## Changes of the state -/

/-- The cutter after some nodes were made and put next to the current statement. -/
def Cutter.made (c : Cutter) (ids : Nat) (before after : List Tree) : Cutter :=
  { c with
    log := { c.log with nextId := c.log.nextId + ids }
    before := c.before ++ before
    after := c.after ++ after }

/-- The cutter after a new state, with what is put next to the statement. -/
def Cutter.cut (c : Cutter) (ids : Nat) (before after : List Tree) : Cutter :=
  { c.made ids before after with states := c.states + 1 }

namespace Kind

/-- The kinds of operands in which there is nothing to visit. -/
def bare : Kind → Bool
  | typeRef | refType | simpleType | invalidType | pointerType | literal | integerLiteral
  | booleanLiteral => true
  | _ => false

/-- The kinds of operands of which only the children are visited. -/
def inner : Kind → Bool
  | memberAccess | assignment | conditional | operator | binaryOperator | memberOperator
  | memberBinary | unary | postUnary | index | dereference | addressOf | cast | trivialCast
  | argumentList => true
  | _ => false

end Kind

namespace Cutting

/-! ## Nodes that are put in -/

def cutNode (kind : Kind) (id : NodeId) (o : Origin) (state : Nat) : Node :=
  (Node.blank id kind o).setNumber .nextState (some state)

/-- A call to which the machine is passed first. -/
def withMachine (id : NodeId) (call : Tree) : Tree :=
  call.mapRole .argumentList
    (·.insertAt 0 .arguments (.mk (.blank id .machineArgument call.origin) []))

/-- A call that is taken out of an expression, as a statement of its own. -/
def takenOut (id : NodeId) (stmt : Origin) (state : Nat) (call : Tree) : Tree :=
  .mk ((cutNode .callSub (id + 1) stmt state).named s!"zc_tmp{state}")
    [(.expression, withMachine id call)]

/-- What stands for the result of that call in the expression. -/
def resultOf (id : NodeId) (o : Origin) : Tree :=
  .mk ((Node.blank (id + 2) .callSubResult o).setLink .declaration (some (id + 1))) []

/-- The cutter after a pause behind a statement, if every statement ends a state. -/
def paused (o : Origin) (c : Cutter) : Cutter :=
  if c.splitAll then
    c.cut 1 [] [.mk (cutNode .debugState c.log.nextId o (c.states + 1)) []]
  else c

/-- The cutter after a call of a function with states, which is a statement. -/
def surrounded (o : Origin) (c : Cutter) : Cutter :=
  c.cut 3 [.mk (cutNode .beforeSub (c.log.nextId + 1) o (c.states + 1)) []]
    [.mk (.blank (c.log.nextId + 2) .afterSub o) []]

/-- The cutter after a wait, for which a statement and its call are taken out. -/
def waited (statement call : NodeId) (c : Cutter) : Cutter :=
  { c.cut 1 [] [] with
    log := { (c.cut 1 [] []).log with removed := c.log.removed ++ [statement, call] } }

/-- The cutter after a reset of the machine, which is needed once there is a state. -/
def wasReset (o : Origin) (c : Cutter) : Cutter :=
  if c.states = 0 then c else c.made 1 [.mk (.blank c.log.nextId .beforeReturn o) []] []

/-- The node that a blocking call of a function becomes. -/
inductive WaitNode (c : Cutter) (n call : Node) : Node → Prop
  | sleep (d : Tree) (hd : (call.link? .declaration).bind c.index.get? = some d)
      (hname : d.node.text .name = .ok (some sleepFunction)) :
      WaitNode c n call (cutNode .papiSleep c.log.nextId n.origin (c.states + 1))
  | transfer (d : Tree) {f start event : String} {spot : Spot}
      (hd : (call.link? .declaration).bind c.index.get? = some d)
      (hname : d.node.text .name = .ok (some f)) (hf : transferOf? f = some (start, event))
      (hspot : call.nameSpot = some spot) :
      WaitNode c n call
        (({ ((Node.blank c.log.nextId .papiWait n.origin).named start).setText .waitFor
              (some event) with nameSpot := some spot }).setNumber .nextState
          (some ((c.states + 1 : Nat) : Int)))

/-! ## Operands -/

mutual

/-- An operand of the statement from `stmt` becomes another one. -/
inductive CutsOperand (stmt : Origin) : Cutter → Tree → Tree → Cutter → Prop
  | bare {c : Cutter} {n : Node} {cs : Children} (hk : n.kind.bare = true) :
      CutsOperand stmt c (.mk n cs) (.mk n cs) c
  | use {c : Cutter} {n : Node} {cs : Children} (hk : n.kind = .variableUse) :
      CutsOperand stmt c (.mk n cs) (.mk n cs)
        { c with persistence := c.persistence.use (n.link? .declaration) c.states }
  | inner {c c' : Cutter} {n : Node} {cs cs' : Children} (hk : n.kind.inner = true)
      (h : CutsOperands stmt c cs cs' c') : CutsOperand stmt c (.mk n cs) (.mk n cs') c'
  | call {c c' : Cutter} {n a : Node} {as as' : Children} (hk : n.kind = .call)
      (ha : a.kind = .argumentList) (h : CutsOperands stmt c as as' c')
      (hm : c'.machines.hasStates (n.link? .declaration) = false) :
      CutsOperand stmt c (.mk n [(.argumentList, .mk a as)]) (.mk n [(.argumentList, .mk a as')])
        c'
  | taken {c c₁ : Cutter} {n a : Node} {as as' : Children} (hk : n.kind = .call)
      (ha : a.kind = .argumentList) (h : CutsOperands stmt c as as' c₁)
      (hm : c₁.machines.hasStates (n.link? .declaration) = true) :
      CutsOperand stmt c (.mk n [(.argumentList, .mk a as)]) (resultOf c₁.log.nextId n.origin)
        (c₁.cut 3 [takenOut c₁.log.nextId stmt (c₁.states + 1)
          (.mk n [(.argumentList, .mk a as')])] [])

/-- A row of operands becomes another one. -/
inductive CutsOperands (stmt : Origin) :
    Cutter → Children → Children → Cutter → Prop
  | nil {c : Cutter} : CutsOperands stmt c [] [] c
  | cons {c c₁ c₂ : Cutter} {r : Role} {t t' : Tree} {cs cs' : Children}
      (h : CutsOperand stmt c t t' c₁) (hs : CutsOperands stmt c₁ cs cs' c₂) :
      CutsOperands stmt c ((r, t) :: cs) ((r, t') :: cs') c₂

end

/-- Induction along a row of operands, which does not go into the operands. -/
theorem CutsOperands.row_induction {stmt : Origin}
    {motive : ∀ c cs cs' c', CutsOperands stmt c cs cs' c' → Prop}
    (nil : ∀ {c}, motive c [] [] c .nil)
    (cons : ∀ {c c₁ c₂ r t t' cs cs'} (h : CutsOperand stmt c t t' c₁)
      (hs : CutsOperands stmt c₁ cs cs' c₂), motive c₁ cs cs' c₂ hs →
      motive c ((r, t) :: cs) ((r, t') :: cs') c₂ (.cons h hs)) {c : Cutter} {cs cs' : Children}
    {c' : Cutter} : ∀ h : CutsOperands stmt c cs cs' c', motive c cs cs' c' h
  | .nil => nil
  | .cons h hs => cons h hs (row_induction nil cons hs)

/-! ## Statements -/

/-- Whether the first value of a variable comes from a function with states. -/
def startsMachine (ms : Machines) (cs : Children) : Bool :=
  (cs.lookup .initializer).any fun e =>
    e.kind == .call && ms.hasStates (e.node.link? .declaration)

mutual

/-- A statement becomes another one; what is put next to it is left in the cutter. -/
inductive CutsStatement : Cutter → Tree → Tree → Cutter → Prop
  | nop {c : Cutter} {n : Node} {cs : Children} (hk : n.kind = .nop) :
      CutsStatement c (.mk n cs) (.mk n cs) c
  | block {c c' : Cutter} {n : Node} {cs cs' : Children} (hk : n.kind = .statementList)
      (h : CutsStatements c cs cs' c') : CutsStatement c (.mk n cs) (.mk n cs') c'
  | declaration {c c₁ : Cutter} {n : Node} {cs cs' : Children} {p : Persistence}
      (hk : n.kind = .variableDeclaration) (hp : c.persistence.declare n.id c.states = .ok p)
      (hm : startsMachine c.machines cs = false)
      (h : CutsOperands n.origin { c with persistence := p } cs cs' c₁) :
      CutsStatement c (.mk n cs) (.mk n cs') (paused n.origin c₁)
  /-- The first value of a variable comes from a function with states. -/
  | machineDeclaration {c c₁ : Cutter} {n m a : Node} {type : Tree} {as as' : Children}
      {p : Persistence} (hk : n.kind = .variableDeclaration)
      (hp : c.persistence.declare n.id c.states = .ok p) (hcall : m.kind = .call)
      (ha : a.kind = .argumentList) (hm : c.machines.hasStates (m.link? .declaration) = true)
      (h : CutsOperands n.origin { c with persistence := p } as as' c₁) :
      CutsStatement c
        (.mk n [(.declaredType, type), (.initializer, .mk m [(.argumentList, .mk a as)])])
        (.mk n [(.declaredType, type),
          (.initializer, withMachine c₁.log.nextId (.mk m [(.argumentList, .mk a as')]))])
        (surrounded n.origin c₁)
  | expression {c c₁ : Cutter} {n : Node} {cs cs' : Children}
      (hk : n.kind = .expressionStatement) (h : CutsOperands n.origin c cs cs' c₁) :
      CutsStatement c (.mk n cs) (.mk n cs') (paused n.origin c₁)
  | call {c c₁ : Cutter} {n m a : Node} {as as' : Children}
      (hk : n.kind = .callStatement) (hcall : m.kind = .call) (ha : a.kind = .argumentList)
      (h : CutsOperands n.origin c as as' c₁)
      (hm : c₁.machines.hasStates (m.link? .declaration) = false)
      (hb : m.flags.lookup .blocking = some false) :
      CutsStatement c (.mk n [(.expression, .mk m [(.argumentList, .mk a as)])])
        (.mk n [(.expression, .mk m [(.argumentList, .mk a as')])]) (paused n.origin c₁)
  | machineCall {c c₁ : Cutter} {n m a : Node} {as as' : Children}
      (hk : n.kind = .callStatement) (hcall : m.kind = .call) (ha : a.kind = .argumentList)
      (h : CutsOperands n.origin c as as' c₁)
      (hm : c₁.machines.hasStates (m.link? .declaration) = true) :
      CutsStatement c (.mk n [(.expression, .mk m [(.argumentList, .mk a as)])])
        (.mk n [(.expression, withMachine c₁.log.nextId (.mk m [(.argumentList, .mk a as')]))])
        (surrounded n.origin c₁)
  | wait {c c₁ : Cutter} {n m a w : Node} {as as' : Children}
      (hk : n.kind = .callStatement) (hcall : m.kind = .call) (ha : a.kind = .argumentList)
      (h : CutsOperands n.origin c as as' c₁)
      (hm : c₁.machines.hasStates (m.link? .declaration) = false)
      (hb : m.flags.lookup .blocking = some true) (hw : WaitNode c₁ n m w) :
      CutsStatement c (.mk n [(.expression, .mk m [(.argumentList, .mk a as)])])
        (.mk w [(.argumentList, .mk a as')]) (waited n.id m.id c₁)
  | branch {c c₁ c₂ : Cutter} {n : Node} {ops blocks ops' blocks' : Children}
      (hk : n.kind = .ifElse) (h₁ : CutsOperands n.origin c ops ops' c₁)
      (h₂ : CutsBlocks c₁ blocks blocks' c₂) :
      CutsStatement c (.mk n (ops ++ blocks)) (.mk n (ops' ++ blocks')) c₂
  | loop {c c₁ c₂ : Cutter} {n : Node} {ops blocks ops' blocks' : Children}
      {p : Persistence} (hk : n.kind.loops = true)
      (h₁ : CutsOperands n.origin { c with persistence := c.persistence.beginLoop c.states }
        ops ops' c₁)
      (h₂ : CutsBlocks c₁ blocks blocks' c₂) (hp : c₂.persistence.endLoop c₂.states = .ok p) :
      CutsStatement c (.mk n (ops ++ blocks)) (.mk n (ops' ++ blocks'))
        { c₂ with persistence := p }
  | leave {c c₁ : Cutter} {n : Node} {cs cs' : Children} {o : Origin}
      (hk : n.kind = .returnStatement) (h : CutsOperands n.origin c cs cs' c₁) :
      CutsStatement c (.mk n cs) (.mk n cs') (wasReset o c₁)

/-- A list of statements becomes another one. -/
inductive CutsStatements : Cutter → Children → Children → Cutter → Prop
  | nil {c : Cutter} : CutsStatements c [] [] c
  | cons {c c₁ c₂ : Cutter} {r : Role} {t t' : Tree} {cs cs' : Children}
      (h : CutsStatement { c with before := [], after := [] } t t' c₁)
      (hs : CutsStatements { c₁ with before := c.before, after := c.after } cs cs' c₂) :
      CutsStatements c ((r, t) :: cs)
        ((c₁.before ++ t' :: c₁.after).map (Role.statements, ·) ++ cs') c₂

/-- The blocks of a statement become other ones. -/
inductive CutsBlocks : Cutter → Children → Children → Cutter → Prop
  | nil {c : Cutter} : CutsBlocks c [] [] c
  | cons {c c₁ c₂ : Cutter} {r : Role} {n : Node} {cs cs' blocks blocks' : Children}
      (hk : n.kind = .statementList) (h : CutsStatements c cs cs' c₁)
      (hs : CutsBlocks c₁ blocks blocks' c₂) :
      CutsBlocks c ((r, .mk n cs) :: blocks) ((r, .mk n cs') :: blocks') c₂

end

/-! ## Functions -/

/-- The jump to the state that was stored. -/
def dispatchNode (id : NodeId) (o : Origin) (states : Nat) (main : Bool) : Node :=
  ((Node.blank id .machine o).setNumber .lastState (some states)).setFlag .mainMachine main

/-- The first statement of a function with states. -/
inductive FirstNode (f : Tree) : Bool → Node → Prop
  | handler {id : NodeId} {o : Origin} {params : List Tree} {state wait : Option String}
      (hp : parameters f = .ok params) (hs : parameterName params 2 = .ok state)
      (hw : parameterName params 5 = .ok wait) :
      FirstNode f true
        (((Node.blank id .mainFirst o).setText .handlerState state).setText .handlerWait wait)
  | few {id : NodeId} {o : Origin} : FirstNode f true (.blank id .mainFirst o)
  | sub {id : NodeId} {o : Origin} : FirstNode f false (.blank id .subFirst o)

/-- The last statement of a function with states, if one is needed: control does not leave the body
at its end, or the machine is reset there. -/
inductive LastNodes (source body : Tree) : Bool → Children → Prop
  | none {main : Bool} (hc : (if main then source else body).closed = .ok true) :
      LastNodes source body main []
  | reset {id : NodeId} {o : Origin} :
      LastNodes source body false [(.statements, .mk (.blank id .beforeReturn o) [])]

/-- The statements of a function with states, before its variables get their names. -/
def withDispatch (first dispatch : Node) (skip : Nat) (cs rest : Children) :
    Children :=
  (.statements, .mk first []) :: (cs.take skip ++ (.statements, .mk dispatch []) :: rest)

/-- A function becomes another one. -/
inductive CutsFunction (main : Bool) : Cutter → Tree → Tree → Cutter → Prop
  /-- A handler whose end can be reached is left as it is, with an error. -/
  | rejected {c c' : Cutter} {f body : Tree} (hmain : main = true) (hb : f.child? .body = some body)
      (ho : body.closed = .ok false) (hfailed : c'.log.failed = true) : CutsFunction main c f f c'
  | stateless {c c' : Cutter} {n b : Node} {d : Tree} {cs rest : Children} {skip : Nat}
      (hb : b.kind = .statementList) (hskip : prologue (cs.map (·.2)) = .ok skip)
      (h : CutsStatements { c with states := 0, persistence := {} } (cs.drop skip) rest c')
      (hs : c'.states = 0) (hclosed : main = true → (Tree.mk b cs).closed = .ok true) :
      CutsFunction main c (.mk n [(.declaration, d), (.body, .mk b cs)])
        (.mk n [(.declaration, d), (.body, .mk b (cs.take skip ++ rest))]) c'
  | machine {c c₁ c' : Cutter} {n b first : Node} {d : Tree} {cs rest last : Children}
      {skip : Nat} {o : Origin} {names : List (NodeId × Option String)}
      (hb : b.kind = .statementList) (hskip : prologue (cs.map (·.2)) = .ok skip)
      (h : CutsStatements { c with states := 0, persistence := {} } (cs.drop skip) rest c₁)
      (hs : c₁.states ≠ 0)
      (hfirst : FirstNode (.mk n [(.declaration, d), (.body, .mk b cs)]) main first)
      (hnames : keptNames c₁ (.mk b (withDispatch first
        (dispatchNode c₁.log.nextId o c₁.states main) skip cs rest)) = (names, none))
      (hm : c₁.machines.add d.id d.node.name? c₁.log.nextId main c₁.persistence.kept =
        .ok c'.machines)
      (hlast : LastNodes (.mk b cs) (rename names (.mk b (withDispatch first
        (dispatchNode c₁.log.nextId o c₁.states main) skip cs rest))) main last)
      (hclosed : main = true → (Tree.mk b cs).closed = .ok true)
      (hlog : c₁.log.Clean c'.log ({c₁.log.nextId} + {first.id} + Tree.under last)) :
      CutsFunction main c (.mk n [(.declaration, d), (.body, .mk b cs)])
        (.mk n [(.declaration, d), (.body, .mk (rename names (.mk b [])).node
          ((rename names (.mk b (withDispatch first
            (dispatchNode c₁.log.nextId o c₁.states main) skip cs rest))).children ++ last))]) c'

/-- The first statement of the function that starts a run of the handler. -/
inductive InitNode (f : Tree) : Node → Prop
  | state {id : NodeId} {o : Origin} {params : List Tree} {state : Option String}
      (hp : parameters f = .ok params) (hs : parameterName params 1 = .ok state) :
      InitNode f ((Node.blank id .initFirst o).setText .initState state)
  | few {id : NodeId} {o : Origin} : InitNode f (.blank id .initFirst o)

/-- Whether the statements of a function with some name are visited: those of the functions that set
up the plugin or start a run of the handler are not. -/
def visits (names : PluginNames) (name : Option String) : Bool :=
  name = some names.handler ∨ (name ≠ some names.execInit ∧ name ≠ some names.handlerInit)

/-- A function becomes another one, according to its name. -/
inductive CutsDefinition : Cutter → Tree → Tree → Cutter → Prop
  | unnamed {c : Cutter} {f : Tree} (hn : c.machines.names = none) : CutsDefinition c f f c
  | setUp {c : Cutter} {f d : Tree} {names : PluginNames} (hn : c.machines.names = some names)
      (hd : f.child? .declaration = some d) (hv : visits names d.node.name? = false) :
      CutsDefinition c f f c
  /-- The function that starts a run of the handler gets a first statement. -/
  | starter {c : Cutter} {l : Log} {n b first : Node} {d : Tree} {cs : Children}
      {names : PluginNames} (hb : b.kind = .statementList)
      (hfirst : InitNode (.mk n [(.declaration, d), (.body, .mk b cs)]) first)
      (hn : c.machines.names = some names) (hv : visits names d.node.name? = false)
      (hlog : c.log.Clean l {first.id}) :
      CutsDefinition c (.mk n [(.declaration, d), (.body, .mk b cs)])
        (.mk n [(.declaration, d), (.body, .mk b ((.statements, .mk first []) :: cs))])
        { c with log := l }
  | function {c c' : Cutter} {f f' d : Tree} {names : PluginNames}
      (h : CutsFunction (d.node.name? = some names.handler) c f f' c')
      (hn : c.machines.names = some names) (hd : f.child? .declaration = some d)
      (hv : visits names d.node.name? = true) : CutsDefinition c f f' c'

/-! ## What a walk leaves alone -/

/-- A later moment of a walk: what is known about the program is the same, and numbers of nodes
and states are used up. -/
structure Later (c c' : Cutter) : Prop where
  machines : c'.machines = c.machines
  index : c'.index = c.index
  splitAll : c'.splitAll = c.splitAll
  nextId : c.log.nextId ≤ c'.log.nextId
  states : c.states ≤ c'.states

theorem Later.refl (c : Cutter) : Later c c := ⟨rfl, rfl, rfl, Nat.le_refl _, Nat.le_refl _⟩

theorem Later.trans {c c₁ c₂ : Cutter} (h : Later c c₁) (h' : Later c₁ c₂) : Later c c₂ where
  machines := h'.machines.trans h.machines
  index := h'.index.trans h.index
  splitAll := h'.splitAll.trans h.splitAll
  nextId := Nat.le_trans h.nextId h'.nextId
  states := Nat.le_trans h.states h'.states

theorem later_persistence (c : Cutter) (p : Persistence) : Later c { c with persistence := p } :=
  ⟨rfl, rfl, rfl, Nat.le_refl _, Nat.le_refl _⟩

theorem later_beside (c : Cutter) (before after : List Tree) :
    Later c { c with before := before, after := after } :=
  ⟨rfl, rfl, rfl, Nat.le_refl _, Nat.le_refl _⟩

theorem later_made (c : Cutter) (ids : Nat) (before after : List Tree) :
    Later c (c.made ids before after) :=
  ⟨rfl, rfl, rfl, Nat.le_add_right _ _, Nat.le_refl _⟩

theorem later_cut (c : Cutter) (ids : Nat) (before after : List Tree) :
    Later c (c.cut ids before after) :=
  ⟨rfl, rfl, rfl, Nat.le_add_right _ _, Nat.le_add_right _ _⟩

theorem later_paused (o : Origin) (c : Cutter) : Later c (paused o c) := by
  unfold paused
  split
  · exact later_cut c _ _ _
  · exact Later.refl c

theorem later_waited (s call : NodeId) (c : Cutter) : Later c (waited s call c) :=
  ⟨rfl, rfl, rfl, Nat.le_add_right _ _, Nat.le_add_right _ _⟩

theorem later_wasReset (o : Origin) (c : Cutter) : Later c (wasReset o c) := by
  unfold wasReset
  split
  · exact Later.refl c
  · exact later_made c _ _ _

mutual

theorem CutsOperand.later {stmt : Origin} {c c' : Cutter} {t t' : Tree}
    (h : CutsOperand stmt c t t' c') : Later c c' := by
  cases h with
  | bare | use => exact ⟨rfl, rfl, rfl, Nat.le_refl _, Nat.le_refl _⟩
  | inner hk h => exact h.later
  | call hk ha h hm => exact h.later
  | taken hk ha h hm => exact h.later.trans (later_cut _ _ _ _)

theorem CutsOperands.later {stmt : Origin} {c c' : Cutter} {cs cs' : Children}
    (h : CutsOperands stmt c cs cs' c') : Later c c' := by
  cases h with
  | nil => exact Later.refl c
  | cons h hs => exact h.later.trans hs.later

end

mutual

/-- A walk through a statement only goes on counting. It changes neither the machines nor the index.
-/
theorem CutsStatement.later {c c' : Cutter} {t t' : Tree} (h : CutsStatement c t t' c') :
    Later c c' :=
  match h with
  | .nop _ => Later.refl c
  | .block _ h => h.later
  | .declaration _ _ _ h =>
    ((later_persistence _ _).trans h.later).trans (later_paused _ _)
  | .machineDeclaration _ _ _ _ _ h =>
    ((later_persistence _ _).trans h.later).trans (later_cut _ _ _ _)
  | .expression _ h | .call _ _ _ h _ _ => h.later.trans (later_paused _ _)
  | .machineCall _ _ _ h _ => h.later.trans (later_cut _ _ _ _)
  | .wait _ _ _ h _ _ _ => h.later.trans (later_waited _ _ _)
  | .branch _ h₁ h₂ => h₁.later.trans h₂.later
  | .loop _ h₁ h₂ _ =>
    (((later_persistence _ _).trans h₁.later).trans h₂.later).trans (later_persistence _ _)
  | .leave _ h => h.later.trans (later_wasReset _ _)

theorem CutsStatements.later {c c' : Cutter} {cs cs' : Children}
    (h : CutsStatements c cs cs' c') : Later c c' :=
  match h with
  | .nil => Later.refl c
  | .cons h hs =>
    ((later_beside c [] []).trans h.later).trans
      ((later_beside _ c.before c.after).trans hs.later)

theorem CutsBlocks.later {c c' : Cutter} {cs cs' : Children}
    (h : CutsBlocks c cs cs' c') : Later c c' :=
  match h with
  | .nil => Later.refl c
  | .cons _ h hs => h.later.trans hs.later

end

end Cutting

def Sample.cutter (splitAll : Bool) : Cutter where
  log := { nextId := 60 }
  machines := { names := some (.ofPrefix "p") }
  index := Sample.index
  splitAll := splitAll

end Resumable
