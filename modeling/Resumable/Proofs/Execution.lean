import Resumable.Cutting
import Resumable.Proofs.Jobs
import Resumable.Proofs.Meaning

/-!
# Functions that are carried out

A function does its jobs one after the other. Each job evaluates its operands, does something with
their values and puts other jobs in its place. A function with states leaves in the middle: it
stores the number of the state in which it wants to go on, and when it is called again it runs from
its beginning to the dispatch and jumps to the label with this number. In between it loses all
variables that do not belong to the structure of its machine.

The same rules hold for a function that was not cut, which never leaves before its end.

* `Program.step`: one step of a function, in an environment that calls it again.
* `Program.built_act`: a job reads the variables of its operands and sets no others than its own.
* `Program.step_inv`: what a step can do.
* `Program.act_map`: a job does the same with other names.
-/

namespace Resumable

open List hiding iterate

open Job Resumable.Tree

/-! ## Expressions as they are evaluated -/

/-- The definition of the constant that the node stands for. -/
def Node.constant? (index : IdMap Tree) (n : Node) : Option Tree :=
  if n.kind = .variableUse then
    ((n.link? .declaration).bind index.get?).bind fun d =>
      if d.kind = .constantDefine then d.child? .expression else none
  else none

/-- The result of a call that was taken out is read like a variable. -/
def Node.asVariable (n : Node) : Node :=
  if n.kind = .callSubResult then { n with kind := .variableUse } else n

/-- An expression as it is evaluated: constants stand for their definitions, results of calls that
were taken out are variables, and the machine is none of the arguments of a call. -/
def Tree.expanded (index : IdMap Tree) : Tree → Tree
  | mk n cs => (n.constant? index).getD (mk n.asVariable (go cs))
where
  go : Children → Children
    | [] => []
    | (r, t) :: rest =>
      if t.kind = .machineArgument then go rest else (r, t.expanded index) :: go rest

/-! ## Programs -/

/-- The variables that are declared in a tree, with those for the results of calls. -/
def Tree.declared (t : Tree) : List NodeId :=
  (t.subtrees.filter fun s => s.kind = .variableDeclaration ∨ s.kind = .callSub).map (·.id)

/-- Whether a call is one of the function that waits for some time. -/
def Node.sleepsIn (index : IdMap Tree) (call : Node) : Bool :=
  call.flag .blocking && ((call.link? .declaration).bind index.get?).any fun d =>
    (d.node.text .name).toOption == some (some Cutting.sleepFunction)

/-- The call of the function that waits for some time, in a statement that consists of it. -/
def Tree.sleep? (index : IdMap Tree) (t : Tree) : Option Tree :=
  if t.kind = .callStatement then (t.child? .expression).filter (·.node.sleepsIn index) else none

variable {L : Language}

/-- A function as it is carried out. -/
structure Program where
  index : IdMap Tree
  parameters : List NodeId
  body : Tree
  moved : List NodeId

/-- What a function finds when it is called. -/
structure Environment (L : Language) where
  outside : NodeId → L.Value
  /-- What is in the variables of the function when it is called for the first, second … time. -/
  garbage : Nat → NodeId → L.Value
  /-- The first, second … answer to the question whether to wait on. -/
  waiting : Nat → Bool

/-- The state of a function. -/
structure Config (L : Language) where
  work : List Job
  store : Store L
  next : Int := 0
  entries : Nat := 0
  asked : Nat := 0

/-- What becomes of a function that carries out a job. -/
inductive Outcome (L : Language) where
  | goes (c : Config L)
  | ends (calls : List (Called L.Value)) (result : Option L.Value)

namespace Program

/-- The variables of the function. -/
def locals (p : Program) : List NodeId := p.body.declared

/-- The variables whose address is taken. -/
def shared (p : Program) : List NodeId := p.body.addressed

/-! ## One job -/

/-- The value of an expression. -/
def value (p : Program) (e : Tree) : Eval L L.Value :=
  ((e.expanded p.index).meaning L p.shared).value

/-- What a job evaluates first. A sleep needs only the time. -/
def operands (p : Program) : Job → List Tree
  | run t =>
    match t.sleep? p.index with
    | some e => (argumentsOf e).take 1
    | none => (run t).operands
  | j => j.operands

/-- To give a variable its first value, in a cell of its own if its address is taken. -/
def bindVariable (p : Program) (v : NodeId) : Option L.Value → Eval L Unit
  | none => pure ()
  | some x => if v ∈ p.shared then (Place.memory (L.home v)).write x else Eval.setCell v x

/-- A sleep is noted with its time; it gives no value. -/
def sleep : List L.Value → Eval L (Option L.Value)
  | [] => Eval.lift none
  | x :: _ => do
    Eval.record (.sleep x)
    return none

/-- What a job does with the values of its operands. A wait for a transfer is started with all of
them, and then the first one is evaluated again to be noted. -/
def effect (p : Program) (xs : List L.Value) : Job → Eval L (Option L.Value)
  | run t =>
    match t.kind with
    | .variableDeclaration => do
      p.bindVariable t.id xs.head?
      return none
    | .expressionStatement | .returnStatement | .ifElse | .forLoop => return xs.head?
    | .callStatement => if (t.sleep? p.index).isSome then sleep xs else return xs.head?
    | .papiSleep => sleep xs
    | .papiWait => do
      Eval.record (.transfer (t.node.texts.lookup .waitFor).join xs)
      let _ ← Eval.all (((argumentsOf t).take 1).map p.value)
      return none
    | .statementList | .nop | .whileLoop | .doWhileLoop | .mainFirst | .subFirst | .debugState
    | .beforeSub | .afterSub | .callSub | .beforeReturn | .machine => return none
    | _ => Eval.lift none
  | test _ | iterate _ => return xs.head?
  | wait _ => return none
  | call t => do
    p.bindVariable t.id xs.head?
    return none

/-- Carries out a job, as far as values and variables go. -/
def act (p : Program) (j : Job) : Eval L (Option L.Value) := do
  p.effect (← Eval.all ((p.operands j).map p.value)) j

/-- What is in a variable that does not belong to the structure of the machine. -/
def found (p : Program) (env : Environment L) (entries : Nat) (v : NodeId) : L.Value :=
  if v ∈ p.parameters then env.outside v else env.garbage entries v

/-- The store of a function that is called, if some of its variables are kept. -/
def opened (p : Program) (env : Environment L) (entries : Nat) (kept : List NodeId)
    (s : Store L) : Store L :=
  { s with
    cells := fun v => if v ∈ kept then s.cells v else p.found env entries v
    world := ((p.parameters ++ p.locals).filter fun v => v ∈ p.shared ∧ v ∉ kept).foldl
      (fun w v => (L.store w (L.home v) (p.found env entries v)).getD w) s.world }

/-- The function is called again. What does not belong to the structure of the machine is lost. -/
def enter (p : Program) (env : Environment L) (c : Config L) (next : Int) : Config L where
  work := [run p.body]
  store := p.opened env (c.entries + 1) p.moved c.store
  next := next
  entries := c.entries + 1
  asked := c.asked

/-- The first call of a function. -/
def start (p : Program) (env : Environment L) (w : L.World) : Config L where
  work := [run p.body]
  store := p.opened env 0 [] { cells := env.outside, world := w }

/-- What a job with some value leads to. The stored number has eight bits. -/
def follow (p : Program) (env : Environment L) (c : Config L) (x : Option L.Value)
    (rest : List Job) : Flow → Option (Outcome L)
  | .next ts => some (.goes { c with work := ts ++ rest })
  | .ends => some (.ends c.store.calls x)
  | .leave k => k.map fun k => .goes (p.enter env c (k % 256))
  | .store k ts => k.map fun k => .goes { c with work := ts ++ rest, next := k % 256 }
  | .dispatch last =>
    if c.next = 0 then some (.goes { c with work := rest })
    else if last.any (c.next ≤ ·) then
      (p.body.seek c.next).map fun ts => .goes { c with work := ts }
    else none
  | .ask =>
    if env.waiting c.asked then some (.goes (p.enter env { c with asked := c.asked + 1 } c.next))
    else some (.goes { c with work := rest, asked := c.asked + 1 })

/-- One step: the first job is carried out, and control goes where it says. -/
def step (p : Program) (env : Environment L) (c : Config L) : Option (Outcome L) :=
  match c.work with
  | [] => some (.ends c.store.calls none)
  | j :: rest => do
    let (x, s) ← p.act j c.store
    p.follow env { c with store := s } x rest (j.flow (x.all L.truth))

end Program

/-! ## What a job reads and sets -/

/-- The kinds of statements that evaluate nothing themselves. -/
def Kind.idle : Kind → Bool
  | statementList | nop | whileLoop | doWhileLoop | mainFirst | subFirst | debugState | beforeSub
  | afterSub | callSub | beforeReturn | machine => true
  | _ => false

/-- The variables that a job gives a value. -/
def Job.binds : Job → List NodeId
  | run t => if t.kind = .variableDeclaration then [t.id] else []
  | j => j.keeps

section Built

variable {R W : NodeId → Prop}

namespace Program

variable {p : Program}

/-- The variables that a job may read. -/
def reads (p : Program) (j : Job) : List NodeId :=
  (p.operands j).flatMap fun e => (e.expanded p.index).uses

/-- The variables that a job assigns to, or gives a value because they are declared. -/
def sets (p : Program) (j : Job) : List NodeId :=
  ((p.operands j).flatMap fun e => (e.expanded p.index).targets) ++ j.binds

theorem built_values {es : List Tree} (hR : ∀ e ∈ es, ∀ v ∈ (e.expanded p.index).uses, R v)
    (hW : ∀ e ∈ es, ∀ v ∈ (e.expanded p.index).targets, W v) :
    Built R W (Eval.all (es.map (p.value (L := L)))) := by
  refine Built.all fun x hx => ?_
  obtain ⟨e, he, rfl⟩ := mem_map.mp hx
  exact (sane_meaning p.shared (e.expanded p.index)).value.mono (hR e he) (hW e he)

theorem built_bindVariable {v : NodeId} (hW : W v) (x : Option L.Value) :
    Built R W (p.bindVariable v x) := by
  unfold bindVariable
  split
  · exact .pure _
  · split
    · exact Sense.built_write nofun
    · exact .setCell hW

theorem built_sleep (xs : List L.Value) : Built R W (sleep xs) := by
  unfold sleep
  split
  · exact .lift _
  · exact (Built.record _).seq fun _ => .pure _

theorem operands_papiWait {t : Tree} (hk : t.kind = .papiWait) :
    p.operands (run t) = argumentsOf t := by
  have hsleep : t.sleep? p.index = none := by simp [sleep?, hk]
  simp [operands, hsleep, Job.operands, hk]

/-- What a job does with its values sets its own variables only. -/
theorem built_effect (j : Job) (xs : List L.Value)
    (hR : ∀ e ∈ p.operands j, ∀ v ∈ (e.expanded p.index).uses, R v)
    (hW : ∀ e ∈ p.operands j, ∀ v ∈ (e.expanded p.index).targets, W v)
    (hbinds : ∀ v ∈ j.binds, W v) : Built R W (p.effect xs j) := by
  cases j with
  | run t =>
    simp only [effect]
    split
    case h_1 hk =>
      have hv : W t.id := hbinds _ (by simp [Job.binds, hk])
      exact (built_bindVariable hv _).seq fun _ => .pure _
    case h_6 =>
      split
      · exact built_sleep xs
      · exact .pure _
    case h_7 => exact built_sleep xs
    -- A wait evaluates its first argument again.
    case h_8 hk =>
      rw [operands_papiWait hk] at hR hW
      have hfirst : ∀ e ∈ (argumentsOf t).take 1, e ∈ argumentsOf t := fun e =>
        mem_of_mem_take
      refine (Built.record _).seq fun _ => (built_values ?_ ?_).seq fun _ => .pure _
      · exact fun e he => hR e (hfirst e he)
      · exact fun e he => hW e (hfirst e he)
    case h_21 => exact .lift _
    all_goals exact .pure _
  | test t | iterate t | wait t => exact .pure _
  | call t =>
    exact (built_bindVariable (hbinds _ (by simp [Job.binds, Job.keeps])) _).seq fun _ => .pure _

/-- A job reads the variables that are used in its operands, and sets those that are assigned to
there or that it declares. -/
theorem built_act (j : Job) : Built (· ∈ p.reads j) (· ∈ p.sets j) (p.act (L := L) j) := by
  have hR : ∀ e ∈ p.operands j, ∀ v ∈ (e.expanded p.index).uses, v ∈ p.reads j :=
    fun e he v hv => mem_flatMap.mpr ⟨e, he, hv⟩
  have hW : ∀ e ∈ p.operands j, ∀ v ∈ (e.expanded p.index).targets, v ∈ p.sets j :=
    fun e he v hv => mem_append_left _ (mem_flatMap.mpr ⟨e, he, hv⟩)
  exact (built_values hR hW).seq fun xs =>
    built_effect j xs hR hW fun v hv => mem_append_right _ hv

end Program

end Built

namespace Program

variable {p : Program} {env : Environment L} {x : Option L.Value} {w : List Job}

/-! ## What a step can do -/

/-- Control changes neither the variables nor the number of calls, unless the function is called
again. -/
theorem follow_inv {c d : Config L} {f : Flow} (h : p.follow env c x w f = some (.goes d)) :
    d.store = c.store ∧ d.entries = c.entries ∨
      ∃ c₁ k, c₁.store = c.store ∧ c₁.entries = c.entries ∧ d = p.enter env c₁ k := by
  cases f with
  | next ts =>
    cases h
    exact Or.inl ⟨rfl, rfl⟩
  | ends => cases h
  | leave k =>
    obtain ⟨k, -, h⟩ := Option.map_eq_some_iff.mp h
    cases h
    exact Or.inr ⟨c, _, rfl, rfl, rfl⟩
  | store k ts =>
    obtain ⟨k, -, h⟩ := Option.map_eq_some_iff.mp h
    cases h
    exact Or.inl ⟨rfl, rfl⟩
  | ask =>
    rw [follow] at h
    split at h
    · cases h
      exact Or.inr ⟨{ c with asked := c.asked + 1 }, _, rfl, rfl, rfl⟩
    · cases h
      exact Or.inl ⟨rfl, rfl⟩
  | dispatch last =>
    rw [follow] at h
    split at h
    · cases h
      exact Or.inl ⟨rfl, rfl⟩
    · split at h
      · obtain ⟨ts, -, h⟩ := Option.map_eq_some_iff.mp h
        cases h
        exact Or.inl ⟨rfl, rfl⟩
      · cases h

/-- After a job the function goes on with the store that the job leaves, or it is left and called
again. -/
theorem step_inv {c d : Config L} (h : p.step env c = some (.goes d)) :
    ∃ j w x s, c.work = j :: w ∧ p.act j c.store = some (x, s) ∧
      (d.store = s ∧ d.entries = c.entries ∨
        ∃ c₁ k, c₁.store = s ∧ c₁.entries = c.entries ∧ d = p.enter env c₁ k) := by
  unfold step at h
  split at h
  · cases h
  · next j w hw =>
    obtain ⟨⟨x, s⟩, hact, hfollow⟩ := Option.bind_eq_some_iff.mp h
    exact ⟨j, w, x, s, hw, hact, follow_inv hfollow⟩

theorem step_of_act {c : Config L} {j : Job} {s : Store L} (hw : c.work = j :: w)
    (hact : p.act j c.store = some (x, s)) :
    p.step env c = p.follow env { c with store := s } x w (j.flow (x.all L.truth)) := by
  unfold step
  simp [hw, hact]

/-- An idle statement does nothing. -/
theorem act_idle {t : Tree} (hk : t.kind.idle = true) (s : Store L) :
    p.act (run t) s = some (none, s) := by
  have hsleep : t.sleep? p.index = none := by
    rw [sleep?, if_neg]
    intro hc
    simp [hc, Kind.idle] at hk
  have hoperands : p.operands (run t) = [] := by
    simp only [operands, hsleep, Job.operands]
    split <;> simp_all [Kind.idle]
  have heffect : p.effect (L := L) [] (run t) = pure none := by
    simp only [effect]
    split <;> simp_all [Kind.idle]
  unfold act
  rw [hoperands, map_nil]
  change p.effect [] (run t) s = _
  rw [heffect]
  rfl

end Program

/-! ## Names have no meaning -/

def Job.map (f : Tree → Tree) : Job → Job
  | run t => run (f t)
  | test t => test (f t)
  | iterate t => iterate (f t)
  | wait t => wait (f t)
  | call t => call (f t)

section Names

variable {g : Node → Node} {index : IdMap Tree}

theorem Node.constant?_renamed (hg : Renames g) (n : Node) :
    (g n).constant? index = n.constant? index := by
  rw [constant?, hg.kind, hg.link?, constant?]

theorem Node.asVariable_setText (n : Node) (name : Option String) :
    (n.setText .name name).asVariable = n.asVariable.setText .name name := by
  unfold asVariable
  split <;> split <;> first | rfl | contradiction

theorem Tree.meaning_expanded_go_mapNodes (hg : Renames g) (shared : List NodeId)
    {cs : Children} (ih : ∀ p ∈ cs, ((p.2.mapNodes g).expanded index).meaning L shared =
      (p.2.expanded index).meaning L shared) :
    meaning.go L shared (expanded.go index (mapNodes.go g cs)) =
      meaning.go L shared (expanded.go index cs) := by
  induction cs with
  | nil => rfl
  | cons p cs ihcs =>
    obtain ⟨r, t⟩ := p
    obtain ⟨iht, ih⟩ := forall_mem_cons.mp ih
    rw [mapNodes.go, expanded.go, expanded.go, hg.kind_mapNodes]
    split
    · exact ihcs ih
    · rw [meaning.go, meaning.go, iht, ihcs ih]

theorem Tree.meaning_expanded_mapNodes (hg : Renames g) (shared : List NodeId) (t : Tree) :
    ((t.mapNodes g).expanded index).meaning L shared = (t.expanded index).meaning L shared := by
  induction t using ofChildren with
  | step n cs ih =>
    rw [mapNodes, expanded, expanded, Node.constant?_renamed hg]
    cases n.constant? index with
    | some e => rfl
    | none =>
      -- Neither the value nor the place of a node depends on its name.
      have hset : ∀ name, Renames fun m : Node => m.setText .name name := fun name m =>
        Or.inr ⟨name, rfl⟩
      have hvalue : ∀ parts : List (Role × Sense L),
          Sense.valueOf shared (g n).asVariable parts = Sense.valueOf shared n.asVariable parts :=
        fun parts => hg.congr (q := fun m => Sense.valueOf shared m.asVariable parts)
          (fun m name => by rw [Node.asVariable_setText]; exact (hset name).valueOf _ _ _) n
      have hplace : ∀ parts : List (Role × Sense L),
          Sense.placeOf shared (g n).asVariable parts = Sense.placeOf shared n.asVariable parts :=
        fun parts => hg.congr (q := fun m => Sense.placeOf shared m.asVariable parts)
          (fun m name => by rw [Node.asVariable_setText]; exact (hset name).placeOf _ _ _) n
      have hlink : (g n).asVariable.link? .typeDeclaration =
          n.asVariable.link? .typeDeclaration :=
        hg.congr (q := fun m => m.asVariable.link? .typeDeclaration)
          (fun m name => by rw [Node.asVariable_setText]; rfl) n
      rw [Option.getD_none, Option.getD_none, meaning, meaning,
        meaning_expanded_go_mapNodes hg shared ih, hvalue, hplace, hlink]

theorem Node.sleepsIn_renamed (hg : Renames g) (n : Node) :
    (g n).sleepsIn index = n.sleepsIn index := by
  rw [sleepsIn, hg.flag, hg.link?, sleepsIn]

theorem Tree.sleep?_mapNodes (hg : Renames g) (t : Tree) :
    (t.mapNodes g).sleep? index = (t.sleep? index).map (mapNodes g) := by
  rw [sleep?, hg.kind_mapNodes, child?_mapNodes, sleep?]
  split
  · cases t.child? .expression with
    | none => rfl
    | some e =>
      obtain ⟨n, cs⟩ := e
      have hsleeps : ((mk n cs).mapNodes g).node.sleepsIn index = n.sleepsIn index :=
        Node.sleepsIn_renamed hg n
      simp only [Option.map_some, Option.filter, hsleeps]
      split <;> simp_all [node]
  · rfl

namespace Program

variable {p : Program}

theorem value_mapNodes (hg : Renames g) (e : Tree) :
    p.value (L := L) (e.mapNodes g) = p.value e := by
  rw [value, meaning_expanded_mapNodes hg, value]

/-- The operands of a job with other names. -/
theorem operands_map (hg : Renames g) (j : Job) :
    p.operands (j.map (mapNodes g)) = (p.operands j).map (mapNodes g) := by
  obtain ⟨hrun, htest, hiterate, hwait, hcall⟩ := Job.operands_mapNodes hg j.tree
  cases j with
  | run t =>
    rw [Job.map, operands, sleep?_mapNodes hg, operands]
    cases t.sleep? p.index with
    | none => exact hrun
    | some e => exact (congrArg (List.take 1) (argumentsOf_mapNodes e)).trans map_take.symm
  | test t => exact htest
  | iterate t => exact hiterate
  | wait t => exact hwait
  | call t => exact hcall

theorem values_map (hg : Renames g) (es : List Tree) :
    (es.map (mapNodes g)).map (p.value (L := L)) = es.map p.value := by
  rw [map_map]
  exact map_congr_left fun e _ => value_mapNodes hg e

/-- Names do not matter for what a job does. -/
theorem effect_map (hg : Renames g) (xs : List L.Value) (j : Job) :
    p.effect xs (j.map (mapNodes g)) = p.effect xs j := by
  have hid : ∀ t : Tree, (t.mapNodes g).id = t.id := by
    rintro ⟨n, cs⟩
    exact hg.id n
  cases j with
  | run t =>
    have hevent : (t.mapNodes g).node.texts.lookup .waitFor = t.node.texts.lookup .waitFor := by
      obtain ⟨n, cs⟩ := t
      exact hg.text n (by decide)
    have hfirst : ((argumentsOf (t.mapNodes g)).take 1).map (p.value (L := L)) =
        ((argumentsOf t).take 1).map p.value := by
      rw [argumentsOf_mapNodes, ← map_take, values_map hg]
    simp only [Job.map, effect, hg.kind_mapNodes, hid, sleep?_mapNodes hg,
      Option.isSome_map, hevent, hfirst]
  | test t | iterate t | wait t => rfl
  | call t => simp only [Job.map, effect, hid]

theorem act_map (hg : Renames g) (j : Job) :
    p.act (L := L) (j.map (mapNodes g)) = p.act j := by
  unfold act
  rw [operands_map hg, values_map hg]
  simp only [effect_map hg]

end Program

end Names

end Resumable
