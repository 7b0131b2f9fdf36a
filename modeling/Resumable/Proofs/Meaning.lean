import Resumable.Proofs.Renaming

/-!
# What expressions do

An expression computes a value. On the way it may read and set variables, look into memory and
call functions. The numbers, the operators, the memory and the functions of the outside are left
open: whatever they are, they form a `Language`.

Variables whose address is taken live in memory. All others have a cell of their own, which no
pointer leads to.

* `Tree.sane_meaning`: an expression reads only variables that are used in it, and sets only those
  that are assigned to in it.
* `Built.alike`, `Built.frame`: what follows from this for two stores, and for one.
* `Renames.valueOf`: names of variables have no meaning.
-/

namespace Resumable

open List

variable {v : NodeId} {cs : Children} {W' R' : NodeId → Prop} {r : Role} {path : List NodeId}

/-! ## Languages and stores -/

/-- The values and the memory that programs work with, and what can be done with them. An
operation may be undefined. -/
structure Language where
  Value : Type
  World : Type
  literal : String → Option Value
  truth : Value → Bool
  apply : Option NodeId → String → List Value → Option Value
  convert : Option NodeId → Value → Option Value
  field : NodeId → Value → Option Value
  setField : NodeId → Value → Value → Option Value
  member : NodeId → Value → Option Value
  element : Value → Value → Option Value
  home : NodeId → Value
  load : World → Value → Option Value
  store : World → Value → Value → Option World
  call : NodeId → List Value → World → Option (Value × World)

/-- A call that a program makes. -/
inductive Called (Value : Type) where
  | function (id : NodeId) (args : List Value)
  | sleep (time : Value)
  /-- The start of something to wait for, by the name of the event. -/
  | transfer (event : Option String) (args : List Value)
deriving Repr, DecidableEq

/-- What a program has to do with: its variables, the memory, and the calls that it made. -/
structure Store (L : Language) where
  cells : NodeId → L.Value
  world : L.World
  calls : List (Called L.Value) := []

/-- A computation on a store that may get stuck. -/
abbrev Eval (L : Language) (α : Type) := StateT (Store L) Option α

/-- What an expression names: a variable or a part of it, or a place in memory. -/
inductive Place (L : Language) where
  | cell (v : NodeId) (path : List NodeId)
  | memory (address : L.Value)

variable {L : Language}

namespace Eval

variable {α : Type}

def onWorld (f : L.World → Option (α × L.World)) : Eval L α := fun s =>
  (f s.world).map fun p => (p.1, { s with world := p.2 })

def lift (x : Option α) : Eval L α := onWorld fun w => x.map (·, w)

def cell (v : NodeId) : Eval L L.Value := fun s => some (s.cells v, s)

def setCell (v : NodeId) (x : L.Value) : Eval L Unit := fun s =>
  some ((), { s with cells := fun u => if u = v then x else s.cells u })

def record (c : Called L.Value) : Eval L Unit := fun s =>
  some ((), { s with calls := s.calls ++ [c] })

/-- Computations from left to right. -/
def all : List (Eval L α) → Eval L (List α)
  | [] => pure []
  | x :: xs => do
    let a ← x
    return a :: (← all xs)

end Eval

open Eval

namespace Language

/-- A part of a value, along a path of fields. -/
def fieldAt (L : Language) : List NodeId → L.Value → Option L.Value
  | [], x => some x
  | f :: path, x => do L.fieldAt path (← L.field f x)

/-- A value in which the part at the end of a path is another one. -/
def setFieldAt (L : Language) : List NodeId → L.Value → L.Value → Option L.Value
  | [], _, x => some x
  | f :: path, whole, x => do
    let part ← L.setFieldAt path (← L.field f whole) x
    L.setField f whole part

end Language

namespace Place

def read : Place L → Eval L L.Value
  | cell v path => do lift (L.fieldAt path (← Eval.cell v))
  | memory p => onWorld fun w => (L.load w p).map (·, w)

def write (x : L.Value) : Place L → Eval L Unit
  | cell v path => do
    let whole ← lift (L.setFieldAt path (← Eval.cell v) x)
    setCell v whole
  | memory p => onWorld fun w => (L.store w p x).map ((), ·)

end Place

/-! ## Expressions -/

/-- What a tree stands for where a value, a place, a list of arguments or a type is asked for. -/
structure Sense (L : Language) where
  value : Eval L L.Value
  place : Eval L (Place L)
  each : List (Eval L L.Value)
  type : Option NodeId

namespace Sense

def valueIn (parts : List (Role × Sense L)) (r : Role) : Eval L L.Value := do
  (← lift (parts.lookup r)).value

def placeIn (parts : List (Role × Sense L)) (r : Role) : Eval L (Place L) := do
  (← lift (parts.lookup r)).place

def arguments (parts : List (Role × Sense L)) : List (Eval L L.Value) :=
  ((parts.lookup .argumentList).map (·.each)).getD []

def sign (n : Node) : Option String := (n.texts.lookup .operator).join

/-- Applies the operator of a node. -/
def operate (n : Node) (xs : List L.Value) : Eval L L.Value := do
  lift (L.apply (n.link? .declaration) (← lift (sign n)) xs)

/-- Changes the place in front of an operator; gives the value before and behind. -/
def change (n : Node) (parts : List (Role × Sense L)) : Eval L (L.Value × L.Value) := do
  let p ← placeIn parts .expression
  let old ← p.read
  let xs ← all (arguments parts)
  let new ← operate n (old :: xs)
  p.write new
  return (old, new)

/-- Whether the first operand decides: it does for a false `&&` and a true `||`. -/
def decides (n : Node) (x : L.Value) : Bool :=
  (sign n == some "&&" && !L.truth x) || (sign n == some "||" && L.truth x)

def setters : List String := ["++", "--"]

/-- The variable or the place in memory that an expression names. -/
def placeOf (shared : List NodeId) (n : Node) (parts : List (Role × Sense L)) :
    Eval L (Place L) :=
  match n.kind with
  | .variableUse => do
    let v ← lift (n.link? .declaration)
    return if v ∈ shared then .memory (L.home v) else .cell v []
  | .memberAccess => do
    let f ← lift (n.link? .declaration)
    if n.flag .arrow then
      return .memory (← lift (L.member f (← valueIn parts .expression)))
    else
      match ← placeIn parts .expression with
      | .cell v path => return .cell v (path ++ [f])
      | .memory p => return .memory (← lift (L.member f p))
  | .index => do
    let p ← valueIn parts .expression
    let xs ← all (arguments parts)
    return .memory (← lift (xs.head?.bind (L.element p)))
  | .dereference => return .memory (← valueIn parts .expression)
  | _ => lift none

/-- The value of an expression, with all that happens on the way. -/
def valueOf (shared : List NodeId) (n : Node) (parts : List (Role × Sense L)) :
    Eval L L.Value :=
  match n.kind with
  | .literal | .integerLiteral | .booleanLiteral =>
    lift ((n.texts.lookup .literal).join.bind L.literal)
  | .variableUse | .index | .dereference => do (← placeOf shared n parts).read
  | .memberAccess =>
    if n.flag .arrow then do (← placeOf shared n parts).read
    else do
      let x ← valueIn parts .expression
      lift ((n.link? .declaration).bind (L.field · x))
  | .addressOf => do
    match ← placeIn parts .expression with
    | .cell _ _ => lift none
    | .memory p => return p
  | .assignment => do
    let x ← valueIn parts .right
    let p ← placeIn parts .left
    p.write x
    return x
  | .memberBinary => return (← change n parts).2
  | .unary =>
    if (sign n).any (· ∈ setters) then return (← change n parts).2
    else do operate n [← valueIn parts .expression]
  | .postUnary => return (← change n parts).1
  | .operator | .binaryOperator =>
    match arguments parts with
    | [a, b] => do
      let x ← a
      if decides n x then operate n [x] else operate n [x, ← b]
    | _ => lift none
  | .conditional => do
    if L.truth (← valueIn parts .condition) then valueIn parts .whenTrue
    else valueIn parts .whenFalse
  | .cast => do
    let x ← valueIn parts .expression
    lift (L.convert ((parts.lookup .castType).bind (·.type)) x)
  | .trivialCast => do lift (L.convert (n.link? .castType) (← valueIn parts .expression))
  | .call => do
    let xs ← all (arguments parts)
    let f ← lift (n.link? .declaration)
    record (.function f xs)
    onWorld (L.call f xs)
  | _ => lift none

end Sense

/-- What a tree means. Variables whose address is taken, the shared ones, are in memory. -/
def Tree.meaning (L : Language) (shared : List NodeId) : Tree → Sense L
  | mk n cs =>
    ⟨Sense.valueOf shared n (go cs), Sense.placeOf shared n (go cs),
      (go cs).map (·.2.value),
      n.link? .typeDeclaration⟩
where
  go : Children → List (Role × Sense L)
    | [] => []
    | (r, t) :: rest => (r, t.meaning L shared) :: go rest

/-! ## Variables of a tree -/

namespace Tree

/-- The variables that are used in a tree. -/
def uses : Tree → List NodeId
  | mk n cs => (if n.kind = .variableUse then (n.link? .declaration).toList else []) ++ go cs
where
  go : Children → List NodeId
    | [] => []
    | (_, t) :: rest => t.uses ++ go rest

/-- The variable of which an expression names a part. -/
def root? : Tree → Option NodeId
  | mk n cs =>
    match n.kind with
    | .variableUse => n.link? .declaration
    | .memberAccess => if n.flag .arrow then none else go cs
    | _ => none
where
  go : Children → Option NodeId
    | [] => none
    | (r, t) :: rest => if r = .expression then t.root? else go rest

end Tree

/-- The role of the operand that a node assigns to or takes the address of. -/
def Node.target? (n : Node) : Option Role :=
  match n.kind with
  | .assignment => some .left
  | .memberBinary | .postUnary | .addressOf => some .expression
  | .unary => if (Sense.sign n).any (· ∈ Sense.setters) then some .expression else none
  | _ => none

namespace Tree

/-- The variables that are assigned to in a tree, or whose address is taken. -/
def targets : Tree → List NodeId
  | mk n cs => (n.target?.bind fun r => (cs.lookup r).bind root?).toList ++ go cs
where
  go : Children → List NodeId
    | [] => []
    | (_, t) :: rest => t.targets ++ go rest

/-- The variables whose address is taken in a tree. -/
def addressed : Tree → List NodeId
  | mk n cs =>
    (if n.kind = .addressOf then ((cs.lookup .expression).bind root?).toList else []) ++ go cs
where
  go : Children → List NodeId
    | [] => []
    | (_, t) :: rest => t.addressed ++ go rest

theorem gathers_uses : Gathers uses.go uses := ⟨rfl, fun _ _ => rfl⟩

theorem gathers_targets : Gathers targets.go targets := ⟨rfl, fun _ _ => rfl⟩

theorem gathers_addressed : Gathers addressed.go addressed := ⟨rfl, fun _ _ => rfl⟩

theorem root?_go (cs : Children) :
    root?.go cs = (cs.lookup .expression).bind root? := by
  induction cs with
  | nil => rfl
  | cons p cs ih =>
    obtain ⟨r, t⟩ := p
    rw [root?.go, lookup_cons, ih]
    cases r <;> rfl

theorem meaning_go_eq_map (L : Language) (shared : List NodeId) (cs : Children) :
    meaning.go L shared cs = cs.map fun p => (p.1, p.2.meaning L shared) :=
  Tree.eq_map rfl (fun _ _ _ => rfl) cs

theorem lookup_meaning_go (L : Language) (shared : List NodeId) (cs : Children)
    (r : Role) :
    (meaning.go L shared cs).lookup r = (cs.lookup r).map (·.meaning L shared) := by
  rw [meaning_go_eq_map, Tree.lookup_map]

end Tree

/-! ## Computations that are built from reading and setting cells -/

/-- A computation that reads cells of some variables and sets those of some others, and for the
rest works with the memory. -/
inductive Built (R W : NodeId → Prop) : {α : Type} → Eval L α → Prop
  | pure {α : Type} (a : α) : Built R W (pure a)
  | bind {α β : Type} {x : Eval L α} {f : α → Eval L β} (hx : Built R W x)
      (hf : ∀ a s s', x s = some (a, s') → Built R W (f a)) : Built R W (x >>= f)
  | cell {v : NodeId} (hv : R v) : Built R W (cell v)
  | setCell {v : NodeId} {x : L.Value} (hv : W v) : Built R W (setCell v x)
  | onWorld {α : Type} (f : L.World → Option (α × L.World)) : Built R W (onWorld f)
  | record (c : Called L.Value) : Built R W (record c)

/-- Two stores that differ in nothing but some cells. -/
structure Alike (live : NodeId → Prop) (s s' : Store L) : Prop where
  cells : ∀ v, live v → s'.cells v = s.cells v
  world : s'.world = s.world
  calls : s'.calls = s.calls

namespace Built

variable {R W : NodeId → Prop} {α : Type} {x : Eval L α}

theorem mono (h : Built R W x) (hR : ∀ v, R v → R' v) (hW : ∀ v, W v → W' v) : Built R' W' x := by
  induction h with
  | pure a => exact .pure a
  | bind _ _ ihx ihf => exact .bind ihx fun a s s' h => ihf a s s' h
  | cell hv => exact .cell (hR _ hv)
  | setCell hv => exact .setCell (hW _ hv)
  | onWorld f => exact .onWorld f
  | record c => exact .record c

/-- In stores that agree on what is read, a computation has the same result and leaves stores that
agree again. -/
theorem alike {live : NodeId → Prop} (h : Built R W x) (hR : ∀ v, R v → live v) {s s' : Store L}
    (hs : Alike live s s') :
    Option.Rel (fun p q => q.1 = p.1 ∧ Alike live p.2 q.2) (x s) (x s') := by
  induction h generalizing s s' with
  | pure a => exact .some ⟨rfl, hs⟩
  | @bind _ _ x f _ _ ihx ihf =>
    -- If the first part fails in one store, it fails in the other.
    have hx := ihx hs
    change Option.Rel _ ((x s).bind fun p => f p.1 p.2) ((x s').bind fun p => f p.1 p.2)
    cases hxs : x s with
    | none =>
      rw [hxs] at hx
      cases hx' : x s' with
      | none => exact .none
      | some q =>
        rw [hx'] at hx
        cases hx
    | some p =>
      rw [hxs] at hx
      cases hx' : x s' with
      | none =>
        rw [hx'] at hx
        cases hx
      | some q =>
        rw [hx'] at hx
        obtain ⟨a, s₁⟩ := p
        obtain ⟨b, s₁'⟩ := q
        cases hx with
        | some hpq =>
          obtain ⟨hab, hs₁⟩ := hpq
          change b = a at hab
          subst hab
          exact ihf b s s₁ hxs hs₁
  | cell hv => exact .some ⟨hs.cells _ (hR _ hv), hs⟩
  | @setCell v x hv =>
    refine .some ⟨rfl, ?_, hs.world, hs.calls⟩
    intro u hu
    dsimp only
    rw [hs.cells u hu]
  | onWorld f =>
    unfold Eval.onWorld
    rw [hs.world]
    cases f s.world with
    | none => exact .none
    | some p => exact .some ⟨rfl, hs.cells, rfl, hs.calls⟩
  | record c => exact .some ⟨rfl, hs.cells, hs.world, by rw [hs.calls]⟩

/-- A computation leaves all cells alone that it does not set. -/
theorem frame (h : Built R W x) {s s' : Store L} {a : α} (hx : x s = some (a, s')) (hv : ¬ W v) :
    s'.cells v = s.cells v := by
  induction h generalizing s s' with
  | pure b =>
    cases hx
    rfl
  | @bind _ _ x f _ _ ihx ihf =>
    change ((x s).bind fun p => f p.1 p.2) = _ at hx
    obtain ⟨⟨b, s₁⟩, hb, hrest⟩ := Option.bind_eq_some_iff.mp hx
    rw [ihf b s s₁ hb hrest, ihx hb]
  | cell _ =>
    cases hx
    rfl
  | @setCell u y hu =>
    -- Only here a cell is set, and it is one of those that may be.
    cases hx
    have hne : v ≠ u := by
      rintro rfl
      exact hv hu
    exact if_neg hne
  | onWorld f =>
    obtain ⟨p, -, hp⟩ := Option.map_eq_some_iff.mp hx
    cases hp
    rfl
  | record c =>
    cases hx
    rfl

theorem lift (o : Option α) : Built (L := L) R W (lift o) := .onWorld _

theorem seq {β : Type} {f : α → Eval L β} (hx : Built R W x) (hf : ∀ a, Built R W (f a)) :
    Built R W (x >>= f) := .bind hx fun a _ _ _ => hf a

theorem all {xs : List (Eval L α)} (h : ∀ x ∈ xs, Built R W x) : Built R W (all xs) := by
  induction xs with
  | nil => exact .pure []
  | cons x xs ih =>
    obtain ⟨hx, hxs⟩ := forall_mem_cons.mp h
    exact hx.seq fun a => (ih hxs).seq fun as => .pure _

end Built

theorem Eval.lift_inv {α : Type} {o : Option α} {s s' : Store L} {a : α}
    (h : lift o s = some (a, s')) : o = some a := by
  obtain ⟨p, hp, hs⟩ := Option.map_eq_some_iff.mp h
  cases hs
  obtain ⟨b, hb, hp⟩ := Option.map_eq_some_iff.mp hp
  cases hp
  exact hb

namespace Sense

/-- A tree whose computations read and set some cells only. If the tree names a part of a variable,
this is the one that can be seen. -/
structure Sane (R W : NodeId → Prop) (root : Option NodeId) (m : Sense L) : Prop where
  value : Built R W m.value
  place : Built R W m.place
  each : ∀ x ∈ m.each, Built R W x
  names : ∀ {v path s s'}, m.place s = some (.cell v path, s') → root = some v ∧ R v

variable {R W : NodeId → Prop} {parts : List (Role × Sense L)} {root : Role → Option NodeId}
  {shared : List NodeId} {n : Node}

theorem Sane.mono {root : Option NodeId} {m : Sense L} (h : m.Sane R W root) (hR : ∀ v, R v → R' v)
    (hW : ∀ v, W v → W' v) : m.Sane R' W' root where
  value := h.value.mono hR hW
  place := h.place.mono hR hW
  each x hx := (h.each x hx).mono hR hW
  names hp := ⟨(h.names hp).1, hR _ (h.names hp).2⟩

def AllSane (R W : NodeId → Prop) (root : Role → Option NodeId)
    (parts : List (Role × Sense L)) :
    Prop := ∀ r m, parts.lookup r = some m → m.Sane R W (root r)

namespace AllSane

theorem valueIn (h : AllSane R W root parts) (r : Role) : Built R W (valueIn parts r) :=
  .bind (.lift _) fun m _ _ hm => (h r m (Eval.lift_inv hm)).value

theorem placeIn (h : AllSane R W root parts) (r : Role) : Built R W (placeIn parts r) :=
  .bind (.lift _) fun m _ _ hm => (h r m (Eval.lift_inv hm)).place

theorem arguments (h : AllSane R W root parts) : ∀ x ∈ arguments parts, Built R W x := by
  intro x hx
  unfold Sense.arguments at hx
  cases hl : parts.lookup .argumentList with
  | none =>
    rw [hl] at hx
    cases hx
  | some m =>
    rw [hl] at hx
    exact (h .argumentList m hl).each x hx

theorem names (h : AllSane R W root parts) {s s' : Store L}
    (hp : Sense.placeIn parts r s = some (.cell v path, s')) : root r = some v ∧ R v := by
  obtain ⟨⟨m, s₁⟩, hm, hrest⟩ := Option.bind_eq_some_iff.mp hp
  exact (h r m (Eval.lift_inv hm)).names hrest

end AllSane

theorem built_read {p : Place L} (h : ∀ v path, p = .cell v path → R v) : Built R W p.read := by
  cases p with
  | cell v path => exact (Built.cell (h v path rfl)).seq fun x => .lift _
  | memory p =>
    unfold Place.read
    exact .onWorld _

theorem built_write {p : Place L} {x : L.Value} (h : ∀ v path, p = .cell v path → R v ∧ W v) :
    Built R W (p.write x) := by
  cases p with
  | cell v path =>
    obtain ⟨hR, hW⟩ := h v path rfl
    exact (Built.cell hR).seq fun old => (Built.lift _).seq fun whole => .setCell hW
  | memory p =>
    unfold Place.write
    exact .onWorld _

theorem built_operate (xs : List L.Value) : Built R W (operate n xs) :=
  (Built.lift _).seq fun _ => .lift _

theorem built_change (h : AllSane R W root parts) (hW : ∀ v, root .expression = some v → W v) :
    Built R W (change n parts) := by
  refine .bind (h.placeIn .expression) fun p s s' hp => ?_
  -- The place is that of a variable only if the operand shows the variable.
  have hcell : ∀ v path, p = .cell v path → R v ∧ W v := by
    rintro v path rfl
    obtain ⟨hroot, hR⟩ := h.names hp
    exact ⟨hR, hW v hroot⟩
  refine (built_read fun v path hv => (hcell v path hv).1).seq fun old => ?_
  refine (Built.all h.arguments).seq fun xs => (built_operate _).seq fun new => ?_
  exact (built_write hcell).seq fun _ => .pure _

/-- The cell that an expression names is the one at its root. -/
theorem names_placeOf (h : AllSane R W root parts)
    (hv : n.kind = .variableUse → ∀ v, n.link? .declaration = some v → R v) {s s' : Store L}
    (hp : placeOf shared n parts s = some (.cell v path, s')) :
    R v ∧ (n.kind = .variableUse ∧ n.link? .declaration = some v ∨
      n.kind = .memberAccess ∧ n.flag .arrow = false ∧ root .expression = some v) := by
  obtain ⟨x, hx⟩ : ∃ x, placeOf shared n parts = x := ⟨_, rfl⟩
  rw [hx] at hp
  unfold placeOf at hx
  split at hx <;> subst hx
  case h_1 hk =>
    obtain ⟨⟨u, s₁⟩, hu, hp⟩ := Option.bind_eq_some_iff.mp hp
    dsimp only at hp
    split at hp <;> cases hp
    have hlink := Eval.lift_inv hu
    exact ⟨hv hk v hlink, Or.inl ⟨hk, hlink⟩⟩
  case h_2 hk =>
    obtain ⟨⟨f, s₁⟩, -, hp⟩ := Option.bind_eq_some_iff.mp hp
    dsimp only at hp
    split at hp
    · -- An arrow leads into memory.
      obtain ⟨⟨x, s₂⟩, -, hp⟩ := Option.bind_eq_some_iff.mp hp
      obtain ⟨⟨y, s₃⟩, -, hp⟩ := Option.bind_eq_some_iff.mp hp
      cases hp
    · next harrow =>
      obtain ⟨⟨q, s₂⟩, hq, hp⟩ := Option.bind_eq_some_iff.mp hp
      cases q with
      | cell u path' =>
        cases hp
        obtain ⟨hroot, hR⟩ := h.names hq
        exact ⟨hR, Or.inr ⟨hk, by simpa using harrow, hroot⟩⟩
      | memory q =>
        obtain ⟨⟨y, s₃⟩, -, hp⟩ := Option.bind_eq_some_iff.mp hp
        cases hp
  case h_3 =>
    obtain ⟨⟨x, s₁⟩, -, hp⟩ := Option.bind_eq_some_iff.mp hp
    obtain ⟨⟨xs, s₂⟩, -, hp⟩ := Option.bind_eq_some_iff.mp hp
    obtain ⟨⟨y, s₃⟩, -, hp⟩ := Option.bind_eq_some_iff.mp hp
    cases hp
  case h_4 =>
    obtain ⟨⟨x, s₁⟩, -, hp⟩ := Option.bind_eq_some_iff.mp hp
    cases hp
  case h_5 => cases hp

theorem built_placeOf (h : AllSane R W root parts) : Built R W (placeOf shared n parts) := by
  unfold placeOf
  split
  · exact (Built.lift _).seq fun v => .pure _
  · refine (Built.lift _).seq fun f => ?_
    split
    · exact (h.valueIn .expression).seq fun x => (Built.lift _).seq fun _ => .pure _
    · refine (h.placeIn .expression).seq fun p => ?_
      cases p with
      | cell v path => exact .pure _
      | memory p => exact (Built.lift _).seq fun _ => .pure _
  · exact (h.valueIn .expression).seq fun x => (Built.all h.arguments).seq fun xs =>
      (Built.lift _).seq fun _ => .pure _
  · exact (h.valueIn .expression).seq fun x => .pure _
  · exact .lift _

/-- A node computes its value from the parts, and sets the target that its kind has. -/
theorem built_valueOf (h : AllSane R W root parts)
    (hv : n.kind = .variableUse → ∀ v, n.link? .declaration = some v → R v)
    (hW : ∀ r v, n.target? = some r → root r = some v → W v) :
    Built R W (valueOf shared n parts) := by
  -- What names a place is read from there.
  have hread : Built R W (do (← placeOf shared n parts).read) := by
    refine .bind (built_placeOf h) fun p s s' hp => built_read ?_
    rintro v path rfl
    exact (names_placeOf h hv hp).1
  unfold valueOf
  split
  case h_1 | h_2 | h_3 => exact .lift _
  case h_4 | h_5 | h_6 => exact hread
  case h_7 =>
    split
    · exact hread
    · exact (h.valueIn .expression).seq fun x => .lift _
  case h_8 =>
    refine (h.placeIn .expression).seq fun p => ?_
    cases p with
    | cell v path => exact .lift _
    | memory p => exact .pure _
  case h_9 hk =>
    -- The right side comes first.
    refine (h.valueIn .right).seq fun x => ?_
    refine .bind (h.placeIn .left) fun p s s' hp => ?_
    refine (built_write ?_).seq fun _ => .pure _
    rintro v path rfl
    obtain ⟨hroot, hR⟩ := h.names hp
    exact ⟨hR, hW .left v (by simp [Node.target?, hk]) hroot⟩
  case h_10 hk =>
    have htarget : n.target? = some .expression := by simp [Node.target?, hk]
    exact (built_change h fun v => hW .expression v htarget).seq fun _ => .pure _
  case h_11 hk =>
    split
    · next hsign =>
      have htarget : n.target? = some .expression := by
        rw [Node.target?, hk]
        exact if_pos hsign
      exact (built_change h fun v => hW .expression v htarget).seq fun _ => .pure _
    · exact (h.valueIn .expression).seq fun x => built_operate _
  case h_12 hk =>
    have htarget : n.target? = some .expression := by simp [Node.target?, hk]
    exact (built_change h fun v => hW .expression v htarget).seq fun _ => .pure _
  -- The second operand may be left out.
  case h_13 | h_14 =>
    have hargs := h.arguments
    split
    · next a b hab =>
      rw [hab] at hargs
      refine (hargs a (by simp)).seq fun x => ?_
      split
      · exact built_operate _
      · exact (hargs b (by simp)).seq fun y => built_operate _
    · exact .lift _
  case h_15 =>
    refine (h.valueIn .condition).seq fun x => ?_
    split
    · exact h.valueIn .whenTrue
    · exact h.valueIn .whenFalse
  case h_16 => exact (h.valueIn .expression).seq fun x => .lift _
  case h_17 => exact (h.valueIn .expression).seq fun x => .lift _
  case h_18 =>
    refine (Built.all h.arguments).seq fun xs => (Built.lift _).seq fun f => ?_
    exact (Built.record _).seq fun _ => .onWorld _
  case h_19 => exact .lift _

end Sense

namespace Tree

theorem lookup_child {t : Tree} (h : cs.lookup r = some t) : (r, t) ∈ cs := by
  obtain ⟨xs, ys, rfl, -⟩ := lookup_eq_some_iff.mp h
  simp

/-- What a tree stands for reads the variables that are used in it and sets those that are assigned
to. -/
theorem sane_meaning (shared : List NodeId) (t : Tree) :
    (t.meaning L shared).Sane (· ∈ t.uses) (· ∈ t.targets) t.root? := by
  induction t using ofSmaller with
  | step t ih =>
    obtain ⟨n, cs⟩ := t
    -- The children read and set no more than the whole tree.
    have hchild : ∀ p ∈ cs, (p.2.meaning L shared).Sane (· ∈ (mk n cs).uses)
        (· ∈ (mk n cs).targets) p.2.root? := by
      intro p hp
      refine (ih p.2 (sizeOf_child hp)).mono (fun v hv => ?_) (fun v hv => ?_)
      · exact mem_append_right _ (gathers_uses.mem.mpr ⟨p, hp, hv⟩)
      · exact mem_append_right _ (gathers_targets.mem.mpr ⟨p, hp, hv⟩)
    have hparts : Sense.AllSane (· ∈ (mk n cs).uses) (· ∈ (mk n cs).targets)
        (fun r => (cs.lookup r).bind root?) (meaning.go L shared cs) := by
      intro r m hm
      rw [lookup_meaning_go] at hm
      obtain ⟨t, ht, rfl⟩ := Option.map_eq_some_iff.mp hm
      dsimp only
      rw [ht]
      exact hchild (r, t) (lookup_child ht)
    have hv : n.kind = .variableUse → ∀ v, n.link? .declaration = some v →
        v ∈ (mk n cs).uses := by
      intro hk v hlink
      rw [uses, if_pos hk, hlink]
      exact mem_append_left _ (mem_singleton_self v)
    refine ⟨Sense.built_valueOf hparts hv ?_, Sense.built_placeOf hparts, ?_,
      fun hp => ?_⟩
    · intro r v hr hroot
      rw [targets, hr]
      exact mem_append_left _ (by simp [hroot])
    · intro x hx
      obtain ⟨q, hq, rfl⟩ := mem_map.mp hx
      rw [meaning_go_eq_map] at hq
      obtain ⟨p, hp, rfl⟩ := mem_map.mp hq
      exact (hchild p hp).value
    · obtain ⟨hR, hname | hname⟩ := Sense.names_placeOf hparts hv hp
      · refine ⟨?_, hR⟩
        rw [root?, hname.1]
        exact hname.2
      · refine ⟨?_, hR⟩
        rw [root?, hname.1, hname.2.1, root?_go]
        exact hname.2.2

end Tree

/-! ## Names have no meaning -/

namespace Renames

variable {g : Node → Node}

theorem placeOf (hg : Renames g) (shared : List NodeId) (n : Node)
    (parts : List (Role × Sense L)) :
    Sense.placeOf shared (g n) parts = Sense.placeOf shared n parts := by
  unfold Sense.placeOf
  rw [hg.kind, hg.link?, hg.flag]

theorem sign (hg : Renames g) (n : Node) : Sense.sign (g n) = Sense.sign n := by
  rw [Sense.sign, hg.text n (by decide), Sense.sign]

theorem operate (hg : Renames g) (n : Node) (xs : List L.Value) :
    Sense.operate (g n) xs = Sense.operate n xs := by
  rw [Sense.operate, hg.link?, hg.sign, Sense.operate]

theorem change (hg : Renames g) (n : Node) (parts : List (Role × Sense L)) :
    Sense.change (g n) parts = Sense.change n parts := by
  unfold Sense.change
  simp only [hg.operate]

theorem valueOf (hg : Renames g) (shared : List NodeId) (n : Node)
    (parts : List (Role × Sense L)) :
    Sense.valueOf shared (g n) parts = Sense.valueOf shared n parts := by
  have hdecides : ∀ x : L.Value, Sense.decides (g n) x = Sense.decides n x := by
    intro x
    rw [Sense.decides, hg.sign, Sense.decides]
  unfold Sense.valueOf
  simp only [hg.kind, hg.link?, hg.flag, hg.sign, hg.operate, hg.change, hg.placeOf, hdecides,
    hg.text n (show TextKey.literal ≠ .name by decide)]

end Renames

end Resumable
