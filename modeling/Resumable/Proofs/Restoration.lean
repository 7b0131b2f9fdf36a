import Resumable.Proofs.Renaming
import Resumable.Proofs.Walk.Function

/-!
# Nothing is lost

Cutting puts statements between others, takes calls out of expressions and replaces blocking
calls, while it walks through the lists that it changes. What it put in can be taken away again,
and the function is left that was cut: the same statements in the same order and nesting, with the
same expressions in them. Only variables that moved into the structure of the machine may have new
names.

* `Restores`: a tree is another one in which some things were put in, and nothing is lost.
* `Cutting.CutsStatement.restores`: the statement is left if what cutting put in is taken away.
* `Cutting.definition_restores`: so is the function, but for names of variables that moved.
-/

namespace Resumable

open List Resumable.Tree

variable {c c' c₁ : Cutter} {n a w m b : Node} {P Q : List (NodeId × Tree) → Prop}
  {cs as as' cs' ds : Children} {t t' f f' d : Tree} {o stmt : Origin} {r : Role} {ts : List Tree}
  {held : List (NodeId × Tree)} {k : Kind} {main : Bool}

/-! ## Taking away what was put in -/

/-- The kinds of nodes that are put in beside what they serve, and go without a trace. -/
def Kind.scaffold : Kind → Bool
  | machine | mainFirst | subFirst | initFirst | debugState | beforeSub | afterSub | beforeReturn
  | machineArgument => true
  | _ => false

/-- The kinds of nodes behind cutting that stand for one of the function before. -/
def Kind.stays (k : Kind) : Bool := !(k.scaffold || k == .callSub)

/-- The name of the function that a wait was a call of. -/
def Node.awaited? (w : Node) : Option String :=
  match w.kind with
  | .papiSleep => some Cutting.sleepFunction
  | .papiWait => (w.texts.lookup .waitFor).join.map ("papi_wait_for_" ++ ·)
  | _ => none

/-- A statement and the call in it that a wait can have taken the place of: a blocking call of the
function that is waited for, at the same place. -/
structure Awaits (index : IdMap Tree) (w n m : Node) : Prop where
  statement : n.kind = .callStatement
  origin : n.origin = w.origin
  call : m.kind = .call
  blocking : m.flag .blocking = true
  function : ∃ d f, (m.link? .declaration).bind index.get? = some d ∧ d.node.name? = some f ∧
    w.awaited? = some f

mutual

/-- A tree without what cutting put into it is another one. The calls that were taken out before
it are known by the statements that hold them. -/
inductive Restores (index : IdMap Tree) : List (NodeId × Tree) → Tree → Tree → Prop
  | result {held : List (NodeId × Tree)} {n : Node} {cs : Children} {call : Tree}
      (hk : n.kind = .callSubResult) (h : (n.link? .declaration).bind (held.lookup ·) = some call) :
      Restores index held (.mk n cs) call
  | wait {held : List (NodeId × Tree)} {w n m : Node} {cs ds : Children}
      (hw : Awaits index w n m) (h : RestoresAll index held cs ds) :
      Restores index held (.mk w cs) (.mk n [(.expression, .mk m ds)])
  | node {held : List (NodeId × Tree)} {n : Node} {cs ds : Children}
      (hk : n.kind.inserted = false) (h : RestoresAll index held cs ds) :
      Restores index held (.mk n cs) (.mk n ds)

/-- Children without what cutting put between them are other ones. -/
inductive RestoresAll (index : IdMap Tree) :
    List (NodeId × Tree) → Children → Children → Prop
  | nil {held : List (NodeId × Tree)} : RestoresAll index held [] []
  | scaffold {held : List (NodeId × Tree)} {r : Role} {t : Tree} {cs ds : Children}
      (hk : t.kind.scaffold = true) (hs : RestoresAll index held cs ds) :
      RestoresAll index held ((r, t) :: cs) ds
  /-- A statement that holds a call goes, and the call is kept for its result. -/
  | taken {held : List (NodeId × Tree)} {r : Role} {n : Node} {call call₀ : Tree}
      {cs ds : Children} (hk : n.kind = .callSub) (h : Restores index held call call₀)
      (hs : RestoresAll index ((n.id, call₀) :: held) cs ds) :
      RestoresAll index held ((r, .mk n [(.expression, call)]) :: cs) ds
  | kept {held : List (NodeId × Tree)} {r : Role} {t t₀ : Tree} {cs ds : Children}
      (hk : t.kind.stays = true) (h : Restores index held t t₀)
      (hs : RestoresAll index held cs ds) : RestoresAll index held ((r, t) :: cs) ((r, t₀) :: ds)

end

theorem Kind.stays_of_inserted (h : k.inserted = false) : k.stays = true := by
  revert h
  cases k <;> decide

theorem stays_of_uncut (hu : (mk n cs).uncut = true) : n.kind.stays = true :=
  Kind.stays_of_inserted (uncut_inserted hu)

/-- Rows are restored one behind the other, whatever calls the first one has met. -/
theorem RestoresAll.append {index : IdMap Tree} {bs : Children} (h : RestoresAll index held as bs)
    (h' : ∀ held, RestoresAll index held cs ds) : RestoresAll index held (as ++ cs) (bs ++ ds) := by
  induction as generalizing held bs with
  | nil =>
    cases h
    exact h' held
  | cons p as ih =>
    cases h with
    | scaffold hk hs => exact .scaffold hk (ih hs)
    | taken hk h hs => exact .taken hk h (ih hs)
    | kept hk h hs => exact .kept hk h (ih hs)

/-! ## Nodes that stay -/

theorem Renames.awaits {g : Node → Node} (hg : Renames g) {index : IdMap Tree}
    (h : Awaits index w n m) : Awaits index (g w) (g n) (g m) where
  statement := (hg.kind n).trans h.statement
  origin := by rw [hg.origin, hg.origin, h.origin]
  call := (hg.kind m).trans h.call
  blocking := (hg.flag m _).trans h.blocking
  function := by
    obtain ⟨d, f, hd, hname, hf⟩ := h.function
    refine ⟨d, f, by rw [hg.link?, hd], hname, ?_⟩
    rw [Node.awaited?, hg.kind, hg.text w (by decide)]
    exact hf

section

variable {g : Node → Node} {index : IdMap Tree} {held : List (NodeId × Tree)}

theorem restores_node (hg : Renames g) (hn : n.kind.inserted = false)
    (h : RestoresAll index held (mapNodes.go g cs') (mapNodes.go g cs)) :
    Restores index held ((mk n cs').mapNodes g) ((mk n cs).mapNodes g) :=
  .node ((congrArg Kind.inserted (hg.kind n)).trans hn) h

theorem restoresAll_cons (hg : Renames g) (ht : t'.kind.stays = true)
    (h : Restores index held (t'.mapNodes g) (t.mapNodes g))
    (hs : RestoresAll index held (mapNodes.go g cs') (mapNodes.go g cs)) :
    RestoresAll index held (mapNodes.go g ((r, t') :: cs')) (mapNodes.go g ((r, t) :: cs)) :=
  .kept ((congrArg Kind.stays (hg.kind_mapNodes t')).trans ht) h hs

theorem restoresAll_of_forall (hg : Renames g)
    (h : ∀ p ∈ cs, p.2.uncut = true ∧ Restores index held (p.2.mapNodes g) (p.2.mapNodes g)) :
    RestoresAll index held (mapNodes.go g cs) (mapNodes.go g cs) := by
  induction cs with
  | nil => exact .nil
  | cons p cs ih =>
    obtain ⟨r, ⟨n, ds⟩⟩ := p
    obtain ⟨⟨hu, hp⟩, hcs⟩ := forall_mem_cons.mp h
    exact restoresAll_cons hg (stays_of_uncut hu) hp (ih hcs)

/-- A tree that was not cut is restored as it is. -/
theorem restores_uncut (hg : Renames g) (t : Tree) (hu : t.uncut = true) :
    Restores index held (t.mapNodes g) (t.mapNodes g) := by
  induction t using ofSmaller with
  | step t ih =>
    obtain ⟨n, cs⟩ := t
    refine restores_node hg (uncut_inserted hu) (restoresAll_of_forall hg fun p hp => ?_)
    exact ⟨uncut_child hu hp, ih p.2 (sizeOf_child hp) (uncut_child hu hp)⟩

end

/-! ## Calls that were taken out -/

/-- Statements all go, and the calls in them are kept with those that were kept before. -/
inductive Drops (index : IdMap Tree) :
    List (NodeId × Tree) → List Tree → List (NodeId × Tree) → Prop
  | nil {held : List (NodeId × Tree)} : Drops index held [] held
  | scaffold {held held' : List (NodeId × Tree)} {t : Tree} {ts : List Tree}
      (hk : t.kind.scaffold = true) (hs : Drops index held ts held') :
      Drops index held (t :: ts) held'
  | taken {held held' : List (NodeId × Tree)} {n : Node} {call call₀ : Tree} {ts : List Tree}
      (hk : n.kind = .callSub) (h : Restores index held call call₀)
      (hs : Drops index ((n.id, call₀) :: held) ts held') :
      Drops index held (.mk n [(.expression, call)] :: ts) held'

namespace Drops

variable {index : IdMap Tree} {held held₁ held₂ : List (NodeId × Tree)}

theorem append {us : List Tree} (h : Drops index held ts held₁) (h' : Drops index held₁ us held₂) :
    Drops index held (ts ++ us) held₂ := by
  induction h with
  | nil => exact h'
  | scaffold hk _ ih => exact .scaffold hk (ih h')
  | taken hk h _ ih => exact .taken hk h (ih h')

theorem of_scaffold (h : ∀ t ∈ ts, t.kind.scaffold = true) : Drops index held ts held := by
  induction ts with
  | nil => exact .nil
  | cons t ts ih =>
    obtain ⟨ht, hts⟩ := forall_mem_cons.mp h
    exact .scaffold ht (ih hts)

/-- What is taken away in front of a row does no harm, if the row is restored with the calls met
there. -/
theorem restoresAll (h : Drops index held ts held₁) (hs : RestoresAll index held₁ cs ds) :
    RestoresAll index held (ts.map (r, ·) ++ cs) ds := by
  induction h with
  | nil => exact hs
  | scaffold hk _ ih => exact .scaffold hk (ih hs)
  | taken hk h _ ih => exact .taken hk h (ih hs)

end Drops

/-- Two collections of calls hold the same ones below a number. -/
def Agree (k : Nat) (held held' : List (NodeId × Tree)) : Prop :=
  ∀ id < k, held'.lookup id = held.lookup id

theorem Agree.refl (k : Nat) (held : List (NodeId × Tree)) : Agree k held held :=
  fun _ _ => rfl

theorem Agree.trans {k k' : Nat} {held₁ held₂ : List (NodeId × Tree)} (h : Agree k held held₁)
    (h' : Agree k' held₁ held₂) (hk : k ≤ k') : Agree k held held₂ :=
  fun id hid => (h' id (Nat.lt_of_lt_of_le hid hk)).trans (h id hid)

/-- A call with a later number changes nothing for the earlier ones. -/
theorem Agree.cons {k : Nat} {held' : List (NodeId × Tree)} (h : Agree k held held') {id : NodeId}
    (hid : k ≤ id) (call : Tree) : Agree k held ((id, call) :: held') := by
  intro i hi
  have hne : (i == id) = false := beq_false_of_ne (by omega)
  rw [lookup_cons, hne]
  exact h i hi

namespace Cutting

variable {index : IdMap Tree} {g : Node → Node}

/-- A walk puts nothing but calls before the current statement, and with them a property holds of
the calls that are kept, whatever is kept later. -/
def Hoists (index : IdMap Tree) (g : Node → Node) (c c' : Cutter)
    (P : List (NodeId × Tree) → Prop) : Prop :=
  ∃ ts, c'.before = c.before ++ ts ∧ c'.after = c.after ∧ ∀ held, ∃ held',
    Drops index held (ts.map (mapNodes g)) held' ∧ Agree c.log.nextId held held' ∧
      ∀ later, Agree c'.log.nextId held' later → P later

theorem hoists_of_forall (hb : c'.before = c.before) (ha : c'.after = c.after) (h : ∀ held, P held)
    : Hoists index g c c' P :=
  ⟨[], by simp [hb], ha, fun held => ⟨held, .nil, Agree.refl _ _, fun later _ => h later⟩⟩

theorem Hoists.mono (h : Hoists index g c c' P) (hPQ : ∀ held, P held → Q held) :
    Hoists index g c c' Q := by
  obtain ⟨ts, hb, ha, h⟩ := h
  refine ⟨ts, hb, ha, fun held => ?_⟩
  obtain ⟨held', hd, hag, hP⟩ := h held
  exact ⟨held', hd, hag, fun later hl => hPQ later (hP later hl)⟩

/-- What two operands put in front of the statement, one after the other. -/
theorem Hoists.and {c₂ : Cutter} (h : Hoists index g c c₁ P) (h' : Hoists index g c₁ c₂ Q)
    (hl : Later c c₁) (hl' : Later c₁ c₂) : Hoists index g c c₂ fun held => P held ∧ Q held := by
  obtain ⟨ts, hb, ha, h⟩ := h
  obtain ⟨us, hb', ha', h'⟩ := h'
  refine ⟨ts ++ us, by rw [hb', hb, append_assoc], ha'.trans ha, fun held => ?_⟩
  obtain ⟨held₁, hd, hag, hP⟩ := h held
  obtain ⟨held₂, hd', hag', hQ⟩ := h' held₁
  refine ⟨held₂, ?_, hag.trans hag' hl.nextId, fun later hlater => ⟨?_, hQ later hlater⟩⟩
  · rw [map_append]
    exact hd.append hd'
  · exact hP later (hag'.trans hlater hl'.nextId)

/-! ## Operands -/

theorem inserted_inner (h : k.inner = true) : k.inserted = false := by
  revert h
  cases k <;> decide

theorem CutsOperand.stays (h : CutsOperand stmt c t t' c') (hu : t.uncut = true) :
    t'.kind.stays = true := by
  cases h with
  | bare | use | inner | call => exact stays_of_uncut hu
  | taken => rfl

theorem restores_call (hg : Renames g) (hk : n.kind = .call) (ha : a.kind = .argumentList)
    (h : RestoresAll index held (mapNodes.go g as') (mapNodes.go g as)) :
    Restores index held ((mk n [(.argumentList, .mk a as')]).mapNodes g)
      ((mk n [(.argumentList, .mk a as)]).mapNodes g) := by
  have hn : (g n).kind = .call := (hg.kind n).trans hk
  have hga : (g a).kind = .argumentList := (hg.kind a).trans ha
  exact .node (by rw [hn]; rfl) (.kept (congrArg Kind.stays hga) (.node (by rw [hga]; rfl) h) .nil)

/-- A call is restored from one with a machine as its first argument. -/
theorem restores_withMachine (hg : Renames g) {id : NodeId} (hk : n.kind = .call)
    (ha : a.kind = .argumentList)
    (h : RestoresAll index held (mapNodes.go g as') (mapNodes.go g as)) :
    Restores index held ((withMachine id (.mk n [(.argumentList, .mk a as')])).mapNodes g)
      ((mk n [(.argumentList, .mk a as)]).mapNodes g) := by
  have hall : RestoresAll index held
      (mapNodes.go g ((.arguments, .mk (.blank id .machineArgument n.origin) []) :: as'))
      (mapNodes.go g as) :=
    .scaffold (congrArg Kind.scaffold (hg.kind _)) h
  exact restores_call hg hk ha hall

/-- A call that is taken out is found again under the number of its result. -/
theorem hoists_taken (hg : Renames g) (hk : n.kind = .call) (ha : a.kind = .argumentList)
    (h : Hoists index g c c₁ fun held =>
      RestoresAll index held (mapNodes.go g as') (mapNodes.go g as)) (hl : Later c c₁) :
    Hoists index g c
      (c₁.cut 3 [takenOut c₁.log.nextId stmt (c₁.states + 1) (.mk n [(.argumentList, .mk a as')])]
        []) fun held =>
      Restores index held ((resultOf c₁.log.nextId n.origin).mapNodes g)
        ((mk n [(.argumentList, .mk a as)]).mapNodes g) := by
  -- The result refers to the call by a number that is new, so it finds this call and no other one.
  obtain ⟨ts, hb, hafter, h⟩ := h
  refine ⟨ts ++ [takenOut c₁.log.nextId stmt (c₁.states + 1)
    (.mk n [(.argumentList, .mk a as')])], ?_, ?_, fun held => ?_⟩
  · rw [← append_assoc, ← hb]
    rfl
  · rw [← hafter]
    exact append_nil _
  · obtain ⟨held₁, hd, hag, hargs⟩ := h held
    have hcall : Restores index held₁ ((withMachine c₁.log.nextId
        (.mk n [(.argumentList, .mk a as')])).mapNodes g) _ :=
      restores_withMachine hg hk ha (hargs held₁ (Agree.refl _ _))
    refine ⟨(c₁.log.nextId + 1, (mk n [(.argumentList, .mk a as)]).mapNodes g) :: held₁, ?_,
      hag.cons (Nat.le_succ_of_le hl.nextId) _, fun later hlater => ?_⟩
    · have hdrop := Drops.taken (n := g ((cutNode .callSub (c₁.log.nextId + 1) stmt
        (c₁.states + 1)).named s!"zc_tmp{c₁.states + 1}")) (hg.kind _) hcall .nil
      rw [hg.id] at hdrop
      rw [map_append]
      exact hd.append hdrop
    · refine .result (hg.kind _) ?_
      have hlink : (g ((Node.blank (c₁.log.nextId + 2) .callSubResult n.origin).setLink
          .declaration (some (c₁.log.nextId + 1)))).link? .declaration =
            some (c₁.log.nextId + 1) := hg.link? _ _
      rw [hlink]
      exact (hlater _ (Nat.add_lt_add_left (by decide) _)).trans (lookup_cons_self ..)

mutual

/-- An operand is restored with the calls that were put in front of its statement. -/
theorem CutsOperand.restores (hg : Renames g) {stmt : Origin} {c c' : Cutter} {t t' : Tree}
    (h : CutsOperand stmt c t t' c') (hu : t.uncut = true) :
    Hoists index g c c' fun held => Restores index held (t'.mapNodes g) (t.mapNodes g) :=
  match h with
  | .bare _ | .use _ => hoists_of_forall rfl rfl fun _ => restores_uncut hg _ hu
  | @CutsOperand.inner _ _ _ n _ _ hk h =>
    (h.restores hg fun _ hp => uncut_child hu hp).mono fun _ hs =>
      .node ((congrArg Kind.inserted (hg.kind n)).trans (inserted_inner hk)) hs
  | .call hk ha h _ =>
    (h.restores hg (uncut_arguments hu)).mono fun _ hs => restores_call hg hk ha hs
  | .taken hk ha h _ =>
    hoists_taken hg hk ha (h.restores hg (uncut_arguments hu)) h.later

theorem CutsOperands.restores (hg : Renames g) {stmt : Origin} {c c' : Cutter}
    {cs cs' : Children} (h : CutsOperands stmt c cs cs' c')
    (hu : ∀ p ∈ cs, p.2.uncut = true) :
    Hoists index g c c' fun held => RestoresAll index held (mapNodes.go g cs') (mapNodes.go g cs) :=
  match h with
  | .nil => hoists_of_forall rfl rfl fun _ => .nil
  | .cons h hs => by
    obtain ⟨ht, hcs⟩ := forall_mem_cons.mp hu
    refine ((h.restores hg ht).and (hs.restores hg hcs) h.later hs.later).mono fun held hP => ?_
    exact .kept ((congrArg Kind.stays (hg.kind_mapNodes _)).trans (h.stays ht)) hP.1 hP.2

end

/-! ## Statements -/

/-- A statement is restored with the calls that were put before it; all else that is put next to
it goes. -/
def PutsBeside (index : IdMap Tree) (g : Node → Node) (c c' : Cutter) (t' t : Tree) : Prop :=
  t'.kind.stays = true ∧ ∃ before after, c'.before = c.before ++ before ∧
    c'.after = c.after ++ after ∧ (∀ a ∈ after, a.kind.scaffold = true) ∧
      ∀ held, ∃ held', Drops index held (before.map (mapNodes g)) held' ∧
        Restores index held' (t'.mapNodes g) (t.mapNodes g)

/-- Whatever is put next to a statement besides these calls is taken away as it is. -/
theorem Hoists.putsBeside (hg : Renames g) (h : Hoists index g c c₁ P) (ht : t'.kind.stays = true)
    (hP : ∀ held, P held → Restores index held (t'.mapNodes g) (t.mapNodes g))
    {before after : List Tree} (hb : c'.before = c₁.before ++ before)
    (ha : c'.after = c₁.after ++ after) (hbs : ∀ t ∈ before, t.kind.scaffold = true)
    (has : ∀ t ∈ after, t.kind.scaffold = true) : PutsBeside index g c c' t' t := by
  obtain ⟨ts, hb₁, ha₁, h⟩ := h
  refine ⟨ht, ts ++ before, after, by rw [hb, hb₁, append_assoc], by rw [ha, ha₁], has,
    fun held => ?_⟩
  obtain ⟨held', hd, -, hlater⟩ := h held
  refine ⟨held', ?_, hP held' (hlater held' (Agree.refl _ _))⟩
  rw [map_append]
  refine hd.append (Drops.of_scaffold fun x hx => ?_)
  obtain ⟨y, hy, rfl⟩ := mem_map.mp hx
  rw [hg.kind_mapNodes]
  exact hbs y hy

section

variable (hg : Renames g) (h : Hoists index g c c₁ P) (hu : (mk n cs).uncut = true)
  (hP : ∀ held, P held → RestoresAll index held (mapNodes.go g cs') (mapNodes.go g cs))

include hg h hu hP

theorem Hoists.putsBeside_node {before after : List Tree} (hb : c'.before = c₁.before ++ before)
    (ha : c'.after = c₁.after ++ after) (hbs : ∀ t ∈ before, t.kind.scaffold = true)
    (has : ∀ t ∈ after, t.kind.scaffold = true) : PutsBeside index g c c' (.mk n cs') (.mk n cs) :=
  h.putsBeside hg (stays_of_uncut hu)
    (fun held hs => restores_node hg (uncut_inserted hu) (hP held hs)) hb ha hbs has

theorem Hoists.putsBeside_paused : PutsBeside index g c (paused o c₁) (.mk n cs') (.mk n cs) := by
  unfold paused
  split
  · exact h.putsBeside_node hg hu hP rfl rfl (by simp) (by simp; rfl)
  · exact h.putsBeside_node hg hu hP (append_nil _).symm (append_nil _).symm (by simp) (by simp)

theorem Hoists.putsBeside_wasReset :
    PutsBeside index g c (wasReset o c₁) (.mk n cs') (.mk n cs) := by
  unfold wasReset
  split
  · exact h.putsBeside_node hg hu hP (append_nil _).symm (append_nil _).symm (by simp) (by simp)
  · exact h.putsBeside_node hg hu hP rfl rfl (by simp; rfl) (by simp)

theorem Hoists.putsBeside_surrounded :
    PutsBeside index g c (surrounded o c₁) (.mk n cs') (.mk n cs) :=
  h.putsBeside_node hg hu hP rfl rfl (by simp; rfl) (by simp; rfl)

end

theorem putsBeside_of_forall (hb : c'.before = c.before) (ha : c'.after = c.after)
    (ht : t'.kind.stays = true) (h : ∀ held, Restores index held (t'.mapNodes g) (t.mapNodes g)) :
    PutsBeside index g c c' t' t :=
  ⟨ht, [], [], by simp [hb], by simp [ha], by simp, fun held => ⟨held, .nil, h held⟩⟩

theorem eq_of_transferOf? {f start event : String} (h : transferOf? f = some (start, event)) :
    f = "papi_wait_for_" ++ event := by
  unfold transferOf? at h
  split at h <;> first | cases h; rfl | cases h

/-- A wait knows which call it was made from. -/
theorem WaitNode.awaits (h : WaitNode c n m w) (hk : n.kind = .callStatement)
    (hcall : m.kind = .call) (hb : m.flags.lookup .blocking = some true) :
    Awaits c.index w n m := by
  have hname : ∀ {d : Tree} {f : String}, d.node.text .name = .ok (some f) →
      d.node.name? = some f := by
    intro d f hd
    unfold Node.text at hd
    split at hd
    · next s hs =>
      cases hd
      rw [Node.name?, hs]
      rfl
    · cases hd
  have hflag : m.flag .blocking = true := by rw [Node.flag, hb]; rfl
  cases h with
  | sleep d hd hf => exact ⟨hk, rfl, hcall, hflag, d, _, hd, hname hf, rfl⟩
  | transfer d hd hf hfind hspot =>
    exact ⟨hk, rfl, hcall, hflag, d, _, hd, hname hf, congrArg some (eq_of_transferOf? hfind).symm⟩

theorem Hoists.putsBeside_compound (hg : Renames g) {ops blocks ops' blocks' : Children}
    (h₁ : CutsOperands stmt c ops ops' c₁) (hu : (mk n (ops ++ blocks)).uncut = true)
    (hb : c'.before = c₁.before) (ha : c'.after = c₁.after)
    (h₂ : ∀ held, RestoresAll index held (mapNodes.go g blocks') (mapNodes.go g blocks)) :
    PutsBeside index g c c' (.mk n (ops' ++ blocks')) (.mk n (ops ++ blocks)) := by
  refine (h₁.restores hg fun p hp => uncut_child hu (mem_append_left _ hp)).putsBeside_node hg hu
    (fun held hops => ?_) (hb.trans (append_nil _).symm) (ha.trans (append_nil _).symm)
    (by simp) (by simp)
  rw [mapNodes_go_append, mapNodes_go_append]
  exact hops.append h₂

mutual

/-- A statement is restored with what was put next to it. -/
theorem CutsStatement.restores (hg : Renames g) {c c' : Cutter} {t t' : Tree}
    (h : CutsStatement c t t' c') (hi : c.index = index) (hu : t.uncut = true) :
    PutsBeside index g c c' t' t :=
  match h with
  | .nop _ =>
    putsBeside_of_forall rfl rfl (stays_of_uncut hu) fun _ => restores_uncut hg _ hu
  | .block hk h => by
    obtain ⟨hb, ha, hs⟩ := h.restores hg hi (fun p hp => (uncut_block hu hk p hp).1)
      (fun p hp => uncut_child hu hp)
    exact putsBeside_of_forall hb ha (stays_of_uncut hu) fun held =>
      restores_node hg (uncut_inserted hu) (hs held)
  | .declaration _ _ _ h | .expression _ h =>
    (h.restores hg fun _ hp => uncut_child hu hp).putsBeside_paused hg hu fun _ => id
  | @CutsStatement.machineDeclaration c _ n m a type as as' _ _ _ hcall ha _ h => by
    have htype := uncut_child hu mem_cons_self
    have hinit := uncut_child hu (mem_cons_of_mem _ (mem_singleton_self _))
    refine (h.restores hg (uncut_arguments hinit)).putsBeside_surrounded hg hu fun held hs => ?_
    refine restoresAll_cons hg ?_ (restores_uncut hg type htype)
      (restoresAll_cons hg (stays_of_uncut hinit) (restores_withMachine hg hcall ha hs) .nil)
    cases type
    exact stays_of_uncut htype
  | .call _ hcall ha h _ _ => by
    have hm := uncut_child hu (mem_singleton_self _)
    exact (h.restores hg (uncut_arguments hm)).putsBeside_paused hg hu fun held hs =>
      restoresAll_cons hg (stays_of_uncut hm) (restores_call hg hcall ha hs) .nil
  | .machineCall _ hcall ha h _ => by
    have hm := uncut_child hu (mem_singleton_self _)
    exact (h.restores hg (uncut_arguments hm)).putsBeside_surrounded hg hu fun held hs =>
      restoresAll_cons hg (stays_of_uncut hm) (restores_withMachine hg hcall ha hs) .nil
  | .wait hk hcall ha h _ hb hw => by
    have hm := uncut_child hu (mem_singleton_self _)
    have hindex := h.later.index.trans hi
    refine (h.restores hg (uncut_arguments hm)).putsBeside hg (by cases hw <;> rfl)
      (fun held hs => ?_) rfl rfl (forall_mem_nil _) (forall_mem_nil _)
    -- Statement and call are made from the wait, and the arguments are still there.
    refine .wait (hg.awaits (hindex ▸ hw.awaits hk hcall hb)) ?_
    refine restoresAll_cons hg (congrArg Kind.stays ha) (restores_node hg ?_ hs) .nil
    rw [ha]
    rfl
  | .branch _ h₁ h₂ => by
    obtain ⟨hb, ha, hs⟩ := h₂.restores hg (h₁.later.index.trans hi) fun p hp =>
      uncut_child hu (mem_append_right _ hp)
    exact Hoists.putsBeside_compound hg h₁ hu hb ha hs
  | .loop _ h₁ h₂ _ => by
    obtain ⟨hb, ha, hs⟩ := h₂.restores hg (h₁.later.index.trans hi) fun p hp =>
      uncut_child hu (mem_append_right _ hp)
    have hputs := Hoists.putsBeside_compound hg h₁ hu hb ha hs
    exact hputs
  | .leave _ h =>
    (h.restores hg fun _ hp => uncut_child hu hp).putsBeside_wasReset hg hu fun _ => id

/-- A list of statements is restored, and nothing is left next to it. -/
theorem CutsStatements.restores (hg : Renames g) {c c' : Cutter} {cs cs' : Children}
    (h : CutsStatements c cs cs' c') (hi : c.index = index) (hr : ∀ p ∈ cs, p.1 = .statements)
    (hu : ∀ p ∈ cs, p.2.uncut = true) :
    c'.before = c.before ∧ c'.after = c.after ∧ ∀ held, RestoresAll index held (mapNodes.go g cs')
      (mapNodes.go g cs) :=
  match h with
  | .nil => ⟨rfl, rfl, fun _ => .nil⟩
  | @CutsStatements.cons _ c₁ _ r t t' cs cs' h hs => by
    obtain ⟨hrt, hrs⟩ := forall_mem_cons.mp hr
    obtain ⟨ht, hcs⟩ := forall_mem_cons.mp hu
    obtain ⟨hstays, before, after, hb, ha, hafter, hrestores⟩ := h.restores hg hi ht
    obtain ⟨hb', ha', hrest⟩ := hs.restores hg (h.later.index.trans hi) hrs hcs
    refine ⟨hb', ha', fun held => ?_⟩
    obtain ⟨held', hdrops, ht'⟩ := hrestores held
    change r = _ at hrt
    subst hrt
    have htail : RestoresAll index held'
        (mapNodes.go g (after.map (Role.statements, ·) ++ cs')) (mapNodes.go g cs) := by
      rw [mapNodes_go_append, mapNodes_go_statements]
      refine (Drops.of_scaffold fun x hx => ?_).restoresAll (hrest held')
      obtain ⟨y, hy, rfl⟩ := mem_map.mp hx
      rw [hg.kind_mapNodes]
      exact hafter y hy
    -- The calls before the statement are known in it and in the rest of the list.
    have hlist := hdrops.restoresAll (r := .statements)
      (restoresAll_cons (r := .statements) hg hstays ht' htail)
    rw [← mapNodes_go_statements, ← mapNodes_go_append] at hlist
    rw [hb, ha]
    simpa using hlist

theorem CutsBlocks.restores (hg : Renames g) {c c' : Cutter} {cs cs' : Children}
    (h : CutsBlocks c cs cs' c') (hi : c.index = index) (hu : ∀ p ∈ cs, p.2.uncut = true) :
    c'.before = c.before ∧ c'.after = c.after ∧ ∀ held, RestoresAll index held (mapNodes.go g cs')
      (mapNodes.go g cs) :=
  match h with
  | .nil => ⟨rfl, rfl, fun _ => .nil⟩
  | .cons hk h hs => by
    obtain ⟨ht, hcs⟩ := forall_mem_cons.mp hu
    obtain ⟨hb, ha, hblock⟩ := h.restores hg hi (fun p hp => (uncut_block ht hk p hp).1)
      (fun p hp => uncut_child ht hp)
    obtain ⟨hb', ha', hrest⟩ := hs.restores hg (h.later.index.trans hi) hcs
    refine ⟨hb'.trans hb, ha'.trans ha, fun held => ?_⟩
    exact restoresAll_cons hg (stays_of_uncut ht)
      (restores_node hg (uncut_inserted ht) (hblock held)) (hrest held)

end

/-! ## Functions -/

theorem mem_of_add {ms ms' : Machines} {function dispatch : NodeId} {name : Option String}
    {kept : List NodeId} (h : ms.add function name dispatch main kept = .ok ms') :
    ∃ m ∈ ms'.list, m.function = function ∧ m.kept = kept := by
  obtain ⟨struct, -, rfl⟩ := add_inv h
  exact ⟨_, mem_append_right _ (mem_singleton_self _), rfl, rfl⟩

theorem restores_self (hu : t.uncut = true) : Restores index [] t t := by
  have h : Restores index [] (t.mapNodes fun n => n) (t.mapNodes fun n => n) :=
    restores_uncut renames_id t hu
  rwa [mapNodes_id] at h

theorem restores_function {b' : Node}
    (hu : (mk n [(.declaration, d), (.body, .mk b cs)]).uncut = true)
    (hk : b'.kind = .statementList) (h : RestoresAll index [] cs' ds) :
    Restores index [] (.mk n [(.declaration, d), (.body, .mk b' cs')])
      (.mk n [(.declaration, d), (.body, .mk b' ds)]) := by
  have hd := uncut_child hu mem_cons_self
  refine .node (uncut_inserted hu) (.kept ?_ (restores_self hd)
    (.kept (congrArg Kind.stays hk) (.node (by rw [hk]; rfl) h) .nil))
  cases d
  exact stays_of_uncut hd

/-- The statements of a function are restored: those at its beginning are left as they are, and
the others are cut. -/
theorem restoresAll_statements (hg : Renames g) {rest : Children} {skip : Nat}
    (hu : (mk n [(.declaration, d), (.body, .mk b cs)]).uncut = true) (hb : b.kind = .statementList)
    (h : CutsStatements c (cs.drop skip) rest c') (hi : c.index = index)
    (held : List (NodeId × Tree)) :
    RestoresAll index held (mapNodes.go g (cs.take skip)) (mapNodes.go g (cs.take skip)) ∧
      RestoresAll index held (mapNodes.go g rest) (mapNodes.go g (cs.drop skip)) := by
  have hbody := uncut_child hu (mem_cons_of_mem _ (mem_singleton_self _))
  have hroles := uncut_block hbody hb
  obtain ⟨-, -, hrest⟩ := h.restores hg hi (fun p hp => (hroles p (mem_of_mem_drop hp)).1)
    (fun p hp => uncut_child hbody (mem_of_mem_drop hp))
  refine ⟨restoresAll_of_forall hg fun p hp => ?_, hrest held⟩
  have hp' := uncut_child hbody (mem_of_mem_take hp)
  exact ⟨hp', restores_uncut hg p.2 hp'⟩

/-- A variable that moved into the structure of the machine of a function. -/
def Moved (f : Tree) (ms : Machines) (v : NodeId) : Prop :=
  ∃ m ∈ ms.list, (f.child? .declaration).map Tree.id = some m.function ∧ v ∈ m.kept

/-- What cutting put into a function can be taken away, and but for the names of variables that
moved the function is as it was. -/
def Restorable (index : IdMap Tree) (ms : Machines) (f f' : Tree) : Prop :=
  ∃ names : List (NodeId × Option String), (∀ p ∈ names, Moved f ms p.1) ∧
    Restores index [] f' (f.mapRole .body (rename names))

theorem restorable_of_restores {ms : Machines} (h : Restores index [] f' f) :
    Restorable index ms f f' := by
  refine ⟨[], forall_mem_nil _, ?_⟩
  have hsame : f.mapRole .body (rename []) = f := by
    obtain ⟨n, cs⟩ := f
    rw [mapRole]
    congr 1
    refine (map_congr_left fun p _ => ?_).trans (map_id cs)
    have hid : rename [] p.2 = p.2 := mapNodes_id p.2
    simp [hid]
  rw [hsame]
  exact h

/-- A function is restored, but for the names of the variables that moved. -/
theorem CutsFunction.restorable (h : CutsFunction main c f f' c') (hu : f.uncut = true) :
    Restorable c.index c'.machines f f' := by
  cases h with
  | rejected hmain hb ho => exact restorable_of_restores (restores_self hu)
  | @stateless _ n b d cs rest skip hb hskip h hs =>
    have hall := restoresAll_statements renames_id hu hb h rfl
    simp only [mapNodes_go_id] at hall
    have hbody := (hall []).1.append fun held => (hall held).2
    rw [take_append_drop] at hbody
    exact restorable_of_restores (restores_function hu hb hbody)
  | @machine c₁ _ n b first d cs rest last skip o names hb hskip h hs hfirst hnames hm hlast =>
    -- Only variables that the machine keeps get other names.
    obtain ⟨m, hmem, hfunction, hkept⟩ := mem_of_add hm
    refine ⟨names, fun p hp => ⟨m, hmem, ?_, ?_⟩, ?_⟩
    · rw [hfunction]
      rfl
    · rw [hkept]
      exact mem_kept_of_keptNames hnames p hp
    obtain ⟨g, hg, hrename⟩ : ∃ g, Renames g ∧ ∀ t, rename names t = t.mapNodes g :=
      ⟨_, renames_names names, fun _ => rfl⟩
    rw [hrename, hrename]
    have hall := restoresAll_statements hg hu hb h rfl
    have hlasts : ∀ held, RestoresAll c.index held last [] := by
      intro held
      cases hlast with
      | none => exact .nil
      | reset => exact .scaffold rfl .nil
    have hscaffold : (g first).kind.scaffold = true := by
      rw [hg.kind]
      cases hfirst <;> rfl
    have hdispatch : ∀ held, RestoresAll c.index held (mapNodes.go g
        ((.statements, .mk (dispatchNode c₁.log.nextId o c₁.states main) []) :: rest))
        (mapNodes.go g (cs.drop skip)) := fun held =>
      .scaffold (congrArg Kind.scaffold (hg.kind _)) (hall held).2
    -- The first statement, the prologue, the dispatch, the rows of the statements, and the reset.
    have hbody := (RestoresAll.scaffold (t := (mk first []).mapNodes g) (r := .statements)
      hscaffold ((hall []).1.append hdispatch)).append hlasts
    rw [append_nil, ← mapNodes_go_append, ← mapNodes_go_append, take_append_drop]
      at hbody
    have hf : (mk n [(.declaration, d), (.body, .mk b cs)]).mapRole .body (rename names) =
        .mk n [(.declaration, d), (.body, .mk (g b) (mapNodes.go g cs))] := by
      simp [mapRole, hrename, mapNodes]
    rw [hf]
    exact restores_function hu ((hg.kind b).trans hb) hbody

theorem CutsDefinition.restorable (h : CutsDefinition c f f' c') (hu : f.uncut = true) :
    Restorable c.index c'.machines f f' := by
  cases h with
  | unnamed | setUp => exact restorable_of_restores (restores_self hu)
  | @starter _ n b first d cs _ hb hfirst =>
    have hbody := uncut_child hu (mem_cons_of_mem _ (mem_singleton_self _))
    have hall : RestoresAll c.index [] cs cs := by
      have hcs : RestoresAll c.index [] (mapNodes.go (fun n => n) cs) (mapNodes.go (fun n => n) cs)
        := restoresAll_of_forall renames_id fun p hp =>
          ⟨uncut_child hbody hp, restores_uncut renames_id p.2 (uncut_child hbody hp)⟩
      rwa [mapNodes_go_id] at hcs
    refine restorable_of_restores (restores_function hu hb (.scaffold ?_ hall))
    cases hfirst <;> rfl
  | function h => exact h.restorable hu

/-- What cutting puts into a function can be taken away again, whatever the function and whether
or not every statement ends a state. The function is left that was cut, and only variables that
moved into the structure of its machine may have other names. -/
theorem definition_restores {f : Tree} {c : Cutter} (hu : f.uncut = true)
    (hk : f.kind = .functionDefinition) (hf : (definition f c).2.fault = none) :
    ∃ names : List (NodeId × Option String),
      (∀ p ∈ names, Moved f (definition f c).2.machines p.1) ∧
        Restores c.index [] (definition f c).1 (f.mapRole .body (rename names)) :=
  (cutsDefinition_of_definition hu hk rfl hf).restorable hu

/-- The cutter of the example, if the function that is called in the inner loop has states. -/
def callingCutter (splitAll : Bool) : Cutter :=
  { Sample.cutter splitAll with
    machines := { names := some (.ofPrefix "p"), list := [⟨51, 53, [], some "p_state1", false⟩] } }

/-- A call is taken out of the handler of the example and its sleep becomes a wait. It is restored
all the same. -/
theorem handler_restores :
    let f := (definition Sample.handler (callingCutter true)).1
    Sample.handler.uncut = true ∧
      (∀ k ∈ [Kind.machine, .mainFirst, .debugState, .callSub, .callSubResult, .papiSleep],
        k ∈ f.subtrees.map Tree.kind) ∧
      ∃ names : List (NodeId × Option String),
        (∀ p ∈ names, Moved Sample.handler
          (definition Sample.handler (callingCutter true)).2.machines p.1) ∧
        Restores Sample.index [] f (Sample.handler.mapRole .body (rename names)) :=
  ⟨by decide, by decide +kernel,
    definition_restores (c := callingCutter true) (by decide) rfl (by decide +kernel)⟩

end Cutting

end Resumable
