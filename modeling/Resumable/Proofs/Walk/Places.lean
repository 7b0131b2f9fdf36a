import Mathlib.Data.List.Forall2
import Resumable.Proofs.Walk.Program

/-!
# What stands where behind cutting

Every node of a function that was cut is one of a few things: it stood in the function with the same
children, but for calls that were taken out; it is a call, with or without a machine as first
argument; it is a list of statements to which some were added; or it was put in. What is said of all
nodes behind cutting is said of these.

* `Cutting.Left`: the forms that a node behind cutting can have.
* `Cutting.CutsStatement.left`: what a walk leaves of a statement consists of such nodes.
* `Cutting.Left.slots`: so every child stands in a place of the schema that allows its kind.
-/

namespace Resumable

open List Resumable.Tree

variable {k : Kind} {p : Role × Tree} {r : Role}

/-- The places of types and of lists of parameters. -/
def Role.typing : Role → Bool
  | .declaredType | .aliasedType | .parameterType | .castType | .returnType | .parameters => true
  | _ => false

namespace Kind

variable {k : Kind} {slot : Slot}

theorem bare_of_typeRef (h : k.isA typeRef = true) : k.bare = true := by
  revert h
  cases k <;> decide

theorem typing_slot (hk : k.isA functionDecl = false) (hs : slot ∈ k.slots)
    (hr : slot.role.typing = true) : slot.allowed = typeRef := by
  revert slot
  revert hk
  cases k <;> decide

end Kind

namespace Tree

/-- A property of kinds that goes from a node to all that its places allow holds all over a tree. -/
theorem kinds_of_slots {P : Kind → Prop} {t : Tree}
    (hP : ∀ k, P k → ∀ slot ∈ k.slots, ∀ k' : Kind, k'.isA slot.allowed = true → P k')
    (h : ∀ s ∈ t.subtrees, ∀ p ∈ s.children, ∃ slot ∈ s.kind.slots,
      p.1 = slot.role ∧ p.2.kind.isA slot.allowed = true)
    (ht : P t.kind) : ∀ s ∈ t.subtrees, P s.kind := by
  induction t using ofChildren with
  | step n cs ih =>
    intro s hs
    rcases mem_subtrees_mk.mp hs with rfl | ⟨p, hp, hs⟩
    · exact ht
    · obtain ⟨slot, hslot, -, hkind⟩ := h _ (mem_subtrees_self _) p hp
      refine ih p hp (fun u hu => h u ?_) (hP _ ht slot hslot _ hkind) s hs
      exact mem_subtrees_trans hu (mem_subtrees_child (t := mk n cs) hp)

theorem type_of_role {n : Node} {cs : Children} (hu : (mk n cs).uncut = true)
    (hn : n.kind.isA .functionDecl = false) (hp : p ∈ cs) (hr : p.1.typing = true) :
    p.2.kind.isA .typeRef = true := by
  obtain ⟨slot, hslot, hrole, ha⟩ := fills_mem (uncut_fills hu) p hp
  rw [← Kind.typing_slot hn hslot (by rw [← hrole, hr])]
  exact ha

/-- A child that became another one in the same place. -/
structure Turns (p q : Role × Tree) : Prop where
  role : q.1 = p.1
  kind : q.2.kind = p.2.kind ∨ p.2.kind = .call ∧ q.2.kind = .callSubResult

abbrev Turned : Children → Children → Prop := List.Forall₂ Turns

variable {cs cs' : Children}

theorem Turned.mem (h : Turned cs cs') : ∀ q ∈ cs', ∃ p ∈ cs, Turns p q := by
  induction h with
  | nil => exact nofun
  | cons h _ ih =>
    refine forall_mem_cons.mpr ⟨⟨_, mem_cons_self, h⟩, fun q hq => ?_⟩
    obtain ⟨p, hp, hturns⟩ := ih q hq
    exact ⟨p, mem_cons_of_mem _ hp, hturns⟩

theorem turns_self (p : Role × Tree) : Turns p p := ⟨rfl, .inl rfl⟩

theorem turns_node {n m : Node} (hm : m.kind = n.kind) : Turns (r, .mk n cs) (r, .mk m cs') :=
  ⟨rfl, .inl hm⟩

end Tree

namespace Cutting

/-- The nodes that the walk through a function puts in. -/
inductive FreshNode : Node → Prop
  | blank (id : NodeId) {k : Kind} (o : Origin) (hk : (k.inserted && k != .callSub) = true) :
      FreshNode (.blank id k o)
  | cut {k : Kind} (id : NodeId) (o : Origin) (state : Nat)
      (hk : (k.inserted && k != .callSub) = true) : FreshNode (cutNode k id o state)
  | takenOut (id : NodeId) (o : Origin) (state : Nat) :
      FreshNode ((cutNode .callSub id o state).named s!"zc_tmp{state}")
  | result (id : NodeId) (o : Origin) (x : Option NodeId) :
      FreshNode ((Node.blank id .callSubResult o).setLink .declaration x)
  | wait {c : Cutter} {n call w : Node} (h : WaitNode c n call w) : FreshNode w

/-- What a node behind cutting is, with its children: `w` is a tree around what was there, calls
are passed a machine or not as `P` says, and `N` holds of the nodes that were put in. -/
inductive Left (w : Tree) (P : Option NodeId → Bool → Prop) (N : Node → Prop) : Tree → Prop
  | same {n : Node} {cs : Children} (hw : .mk n cs ∈ w.subtrees)
      (hp : n.kind = .call → P (n.link? .declaration) false) : Left w P N (.mk n cs)
  | turned {n : Node} {cs cs' : Children} (hw : .mk n cs ∈ w.subtrees)
      (hn : (n.kind.isA .functionDecl || n.kind == .call) = false) (h : Turned cs cs') :
      Left w P N (.mk n cs')
  | call {n a : Node} {as as' : Children}
      (hw : .mk n [(.argumentList, .mk a as)] ∈ w.subtrees) (hn : n.kind = .call)
      (ha : a.kind = .argumentList) (h : Turned as as') (hp : P (n.link? .declaration) false) :
      Left w P N (.mk n [(.argumentList, .mk a as')])
  | given {id : NodeId} {n a : Node} {as as' : Children}
      (hw : .mk n [(.argumentList, .mk a as)] ∈ w.subtrees) (hn : n.kind = .call)
      (ha : a.kind = .argumentList) (hp : P (n.link? .declaration) true) :
      Left w P N (withMachine id (.mk n [(.argumentList, .mk a as')]))
  | arguments {m a : Node} {as as' : Children} (hw : .mk a as ∈ w.subtrees)
      (ha : a.kind = .argumentList) (hm : m.kind = .machineArgument) (h : Turned as as') :
      Left w P N (.mk a ((.arguments, .mk m []) :: as'))
  | block {n : Node} {cs cs' : Children} (hw : .mk n cs ∈ w.subtrees)
      (hn : n.kind = .statementList)
      (h : ∀ p ∈ cs', p.1 = .statements ∧ p.2.kind.isA .statement = true) : Left w P N (.mk n cs')
  | put {n : Node} {cs : Children} (hn : n.kind.inserted = true) (hN : N n)
      (h : ∀ p ∈ cs, ∃ slot ∈ n.kind.slots, p.1 = slot.role ∧ p.2.kind.isA slot.allowed = true) :
      Left w P N (.mk n cs)

def AllLeft (w : Tree) (P : Option NodeId → Bool → Prop) (N : Node → Prop) (t : Tree) : Prop :=
  ∀ s ∈ t.subtrees, Left w P N s

variable {w t : Tree} {P : Option NodeId → Bool → Prop} {N : Node → Prop} {n a : Node}
  {cs cs' as as' : Children} {c c' : Cutter}

theorem allLeft_mk (h : Left w P N (.mk n cs)) (hcs : ∀ p ∈ cs, AllLeft w P N p.2) :
    AllLeft w P N (.mk n cs) := by
  intro s hs
  rcases mem_subtrees_mk.mp hs with rfl | ⟨p, hp, hs⟩
  · exact h
  · exact hcs p hp s hs

theorem allLeft_put (hn : n.kind.inserted = true) (hN : N n) : AllLeft w P N (.mk n []) :=
  allLeft_mk (.put hn hN nofun) nofun

theorem allLeft_same (ht : t ∈ w.subtrees)
    (h : ∀ s ∈ t.subtrees, s.kind = .call → P (s.node.link? .declaration) false) :
    AllLeft w P N t := by
  rintro ⟨n, cs⟩ hs
  exact .same (mem_subtrees_trans hs ht) (h _ hs)

theorem child_mem (h : .mk n cs ∈ w.subtrees) (hp : p ∈ cs) :
    p.2 ∈ w.subtrees := mem_subtrees_trans (mem_subtrees_child (t := .mk n cs) hp) h

/-- There are no calls in a type or a literal. -/
theorem kind_ne_call_of_bare (hu : t.uncut = true) (hk : t.kind.bare = true) :
    ∀ s ∈ t.subtrees, s.kind ≠ .call := by
  induction t using ofChildren with
  | step n cs ih =>
    intro s hs hcall
    rcases mem_subtrees_mk.mp hs with rfl | ⟨p, hp, hs⟩
    · rw [hcall] at hk
      cases hk
    · -- what stands in a type is a type
      obtain ⟨slot, hslot, -, ha⟩ := fills_mem (uncut_fills hu) p hp
      have htype : ∀ k : Kind, k.bare = true → ∀ s ∈ k.slots, s.allowed = .typeRef := by
        intro k
        cases k <;> decide
      rw [htype n.kind hk slot hslot] at ha
      exact ih p hp (uncut_child hu hp) (Kind.bare_of_typeRef ha) s hs hcall

theorem allLeft_bare (hu : w.uncut = true) (ht : t ∈ w.subtrees) (hk : t.kind.bare = true) :
    AllLeft w P N t :=
  allLeft_same ht fun s hs hcall =>
    absurd hcall (kind_ne_call_of_bare (uncut_subtree hu ht) hk s hs)

theorem kind_ne_call_of_empty (hu : (mk n cs).uncut = true) (hn : n.kind = k) (hk : k ≠ .call)
    (hs : k.slots = []) : ∀ s ∈ (mk n cs).subtrees, s.kind ≠ .call := by
  have hf := uncut_fills hu
  rw [hn, hs] at hf
  rw [fills_nil hf]
  intro s hs
  rcases mem_subtrees_mk.mp hs with rfl | ⟨p, hp, -⟩
  · exact fun h => hk (hn.symm.trans h)
  · cases hp

/-! ## Operands -/

/-- A statement all of whose nodes have such a form. -/
def Stands (w : Tree) (P : Option NodeId → Bool → Prop) (N : Node → Prop) (t : Tree) : Prop :=
  AllLeft w P N t ∧ t.kind.isA .statement = true

/-- A moment of the walk through a tree: calls are passed machines as the cutter has them, and what
is put next to the current statement are statements. -/
structure Lined (w : Tree) (P : Option NodeId → Bool → Prop) (N : Node → Prop) (c : Cutter) :
    Prop where
  uncut : w.uncut = true
  fresh : ∀ n, FreshNode n → N n
  calls : ∀ x, P x (c.machines.hasStates x)
  beside : ∀ t ∈ c.before ++ c.after, Stands w P N t

theorem Lined.of_beside (h : Lined w P N c) {c' : Cutter} (hm : c'.machines = c.machines)
    (hb : c'.before = c.before) (ha : c'.after = c.after) : Lined w P N c' :=
  { h with
    calls := by rw [hm]; exact h.calls
    beside := by rw [hb, ha]; exact h.beside }

/-- What is put next to the statement may be any statements that consist of such nodes. -/
theorem Lined.made (hc : Lined w P N c) (ids : Nat) {before after : List Tree}
    (h : ∀ t ∈ before ++ after, Stands w P N t) : Lined w P N (c.made ids before after) := by
  refine ⟨hc.uncut, hc.fresh, hc.calls, fun t ht => ?_⟩
  simp only [Cutter.made, mem_append] at ht
  rcases ht with (ht | ht) | ht | ht
  · exact hc.beside t (mem_append_left _ ht)
  · exact h t (mem_append_left _ ht)
  · exact hc.beside t (mem_append_right _ ht)
  · exact h t (mem_append_right _ ht)

theorem Lined.cut (hc : Lined w P N c) (ids : Nat) {before after : List Tree}
    (h : ∀ t ∈ before ++ after, Stands w P N t) : Lined w P N (c.cut ids before after) :=
  (hc.made ids h).of_beside rfl rfl rfl

theorem stands_put (hn : n.kind = k) (hk : (k.isA .statement && k.inserted) = true) (hN : N n) :
    Stands w P N (.mk n []) := by
  obtain ⟨hs, hi⟩ := Bool.and_eq_true_iff.mp hk
  exact ⟨allLeft_put (hn ▸ hi) hN, by rw [kind, node, hn, hs]⟩

/-- A call with a machine as its first argument is one of the forms. -/
theorem allLeft_withMachine {id : NodeId} (hm : N (.blank id .machineArgument n.origin))
    (hw : .mk n [(.argumentList, .mk a as)] ∈ w.subtrees) (hn : n.kind = .call)
    (ha : a.kind = .argumentList) (hp : P (n.link? .declaration) true) (h : Turned as as')
    (has : ∀ p ∈ as', AllLeft w P N p.2) :
    AllLeft w P N (withMachine id (.mk n [(.argumentList, .mk a as')])) := by
  refine allLeft_mk (.given hw hn ha hp) (forall_mem_singleton.mpr (allLeft_mk
    (.arguments (child_mem hw mem_cons_self) ha rfl h) (forall_mem_cons.mpr ⟨?_, has⟩)))
  exact allLeft_put rfl hm

theorem allLeft_call (hw : .mk n [(.argumentList, .mk a as)] ∈ w.subtrees) (hn : n.kind = .call)
    (ha : a.kind = .argumentList) (hp : P (n.link? .declaration) false) (h : Turned as as')
    (has : ∀ p ∈ as', AllLeft w P N p.2) :
    AllLeft w P N (.mk n [(.argumentList, .mk a as')]) :=
  allLeft_mk (.call hw hn ha h hp) (forall_mem_singleton.mpr (allLeft_mk
    (.turned (child_mem hw mem_cons_self) (ha ▸ rfl) h) has))

mutual

/-- What a walk leaves of an operand. Where a call was, there may be the result of one. -/
theorem CutsOperand.left {stmt : Origin} {c c' : Cutter} {t t' : Tree} (r : Role)
    (h : CutsOperand stmt c t t' c') (ht : t ∈ w.subtrees) (hc : Lined w P N c) :
    Turns (r, t) (r, t') ∧ AllLeft w P N t' ∧ Lined w P N c' :=
  match h with
  | .bare hk =>
    ⟨turns_self _, allLeft_bare hc.uncut ht hk, hc⟩
  | .use hk =>
    ⟨turns_self _, allLeft_same ht fun s hs hcall => absurd hcall
      (kind_ne_call_of_empty (uncut_subtree hc.uncut ht) hk (by decide) rfl s hs),
      hc.of_beside rfl rfl rfl⟩
  | .inner (n := n) hk h => by
    obtain ⟨hcs, hleft, hc'⟩ := h.left (fun p hp => child_mem ht hp) hc
    have hkind : (n.kind.isA .functionDecl || n.kind == .call) = false := by
      revert hk
      cases n.kind <;> decide
    exact ⟨turns_node rfl, allLeft_mk (.turned ht hkind hcs) hleft, hc'⟩
  | .call hk ha h hm => by
    obtain ⟨has, hleft, hc'⟩ := h.left (fun p hp => child_mem (child_mem ht mem_cons_self) hp) hc
    exact ⟨turns_node rfl, allLeft_call ht hk ha (hm ▸ hc'.calls _) has hleft, hc'⟩
  | .taken hk ha h hm => by
    obtain ⟨has, hleft, hc'⟩ := h.left (fun p hp => child_mem (child_mem ht mem_cons_self) hp) hc
    -- The call goes in front of the statement, with a machine as its first argument.
    refine ⟨⟨rfl, .inr ⟨hk, rfl⟩⟩, allLeft_put rfl (hc.fresh _ (.result _ _ _)),
      hc'.cut 3 (forall_mem_singleton.mpr ⟨allLeft_mk (.put rfl (hc.fresh _ (.takenOut _ _ _)) ?_)
        (forall_mem_singleton.mpr (allLeft_withMachine (hc.fresh _ (.blank _ _ rfl)) ht hk ha
          (hm ▸ hc'.calls _) has hleft)), rfl⟩)⟩
    exact forall_mem_singleton.mpr ⟨_, mem_singleton_self _, rfl,
      (congrArg (Kind.isA · .expression) hk).trans rfl⟩

theorem CutsOperands.left {stmt : Origin} {c c' : Cutter} {cs cs' : Children}
    (h : CutsOperands stmt c cs cs' c') (ht : ∀ p ∈ cs, p.2 ∈ w.subtrees) (hc : Lined w P N c) :
    Turned cs cs' ∧ (∀ p ∈ cs', AllLeft w P N p.2) ∧ Lined w P N c' :=
  match h with
  | .nil => ⟨.nil, nofun, hc⟩
  | .cons h hs => by
    obtain ⟨hhead, htail⟩ := forall_mem_cons.mp ht
    obtain ⟨hturns, hleft, hc₁⟩ := h.left _ hhead hc
    obtain ⟨hcs, hlefts, hc₂⟩ := hs.left htail hc₁
    exact ⟨.cons hturns hcs, forall_mem_cons.mpr ⟨hleft, hlefts⟩, hc₂⟩

end

/-! ## Statements -/

theorem Lined.paused (hc : Lined w P N c) (o : Origin) : Lined w P N (Cutting.paused o c) := by
  unfold Cutting.paused
  split
  · exact hc.cut 1 (forall_mem_singleton.mpr (stands_put rfl rfl (hc.fresh _ (.cut _ _ _ rfl))))
  · exact hc

theorem Lined.surrounded (hc : Lined w P N c) (o : Origin) : Lined w P N (Cutting.surrounded o c) :=
  hc.cut 3 (forall_mem_cons.mpr ⟨stands_put rfl rfl (hc.fresh _ (.cut _ _ _ rfl)),
    forall_mem_singleton.mpr (stands_put rfl rfl (hc.fresh _ (.blank _ _ rfl)))⟩)

theorem Lined.wasReset (hc : Lined w P N c) (o : Origin) : Lined w P N (Cutting.wasReset o c) := by
  unfold Cutting.wasReset
  split
  · exact hc
  · exact hc.made 1 (forall_mem_singleton.mpr (stands_put rfl rfl (hc.fresh _ (.blank _ _ rfl))))

theorem WaitNode.stands {n m v : Node} (h : WaitNode c n m v) (hN : ∀ n, FreshNode n → N n)
    (ha : a.kind = .argumentList) (has : AllLeft w P N (.mk a as)) :
    Stands w P N (.mk v [(.argumentList, .mk a as)]) := by
  have hv := hN v (.wait h)
  cases h with
  | sleep | transfer =>
    exact ⟨allLeft_mk (.put rfl hv (forall_mem_singleton.mpr
      ⟨_, mem_singleton_self _, rfl, (congrArg (Kind.isA · _) ha).trans rfl⟩))
      (forall_mem_singleton.mpr has), rfl⟩

theorem stands_of_turned (ht : .mk n cs ∈ w.subtrees) (h : Turned cs cs')
    (hcs : ∀ p ∈ cs', AllLeft w P N p.2) (hn : n.kind = k) (hk : k.isA .statement = true) :
    Stands w P N (.mk n cs') := by
  refine ⟨allLeft_mk (.turned ht ?_ h) hcs, by rw [kind, node, hn, hk]⟩
  rw [hn]
  revert hk
  cases k <;> decide

mutual

/-- What a walk leaves of a statement, and next to it. -/
theorem CutsStatement.left {c c' : Cutter} {t t' : Tree} (h : CutsStatement c t t' c')
    (ht : t ∈ w.subtrees) (hc : Lined w P N c) : Stands w P N t' ∧ Lined w P N c' :=
  match h with
  | .nop hk =>
    ⟨⟨allLeft_same ht fun s hs hcall => absurd hcall
      (kind_ne_call_of_empty (uncut_subtree hc.uncut ht) hk (by decide) rfl s hs),
      (congrArg (Kind.isA · _) hk).trans rfl⟩, hc⟩
  | .block hk h => by
    obtain ⟨hcs, hc'⟩ := h.left (fun p hp => child_mem ht hp) hc
    exact ⟨⟨allLeft_mk (.block ht hk fun p hp => ⟨(hcs p hp).1, (hcs p hp).2.2⟩)
      fun p hp => (hcs p hp).2.1, (congrArg (Kind.isA · _) hk).trans rfl⟩, hc'⟩
  | .declaration hk hp hm h => by
    obtain ⟨hcs, hleft, hc'⟩ := h.left (fun p hp => child_mem ht hp) (hc.of_beside rfl rfl rfl)
    exact ⟨stands_of_turned ht hcs hleft hk rfl, hc'.paused _⟩
  | .machineDeclaration hk hp hcall ha hm h => by
    have hcallee := child_mem ht (mem_cons_of_mem _ mem_cons_self)
    obtain ⟨has, hleft, hc'⟩ := h.left
      (fun p hp => child_mem (child_mem hcallee mem_cons_self) hp) (hc.of_beside rfl rfl rfl)
    -- The type of the variable stays as it is.
    have htype := type_of_role (uncut_subtree hc.uncut ht) (hk ▸ rfl) mem_cons_self rfl
    exact ⟨stands_of_turned ht (.cons (turns_self _) (.cons (turns_node rfl) .nil))
      (forall_mem_cons.mpr ⟨allLeft_bare hc.uncut
        (child_mem ht mem_cons_self) (Kind.bare_of_typeRef htype),
        forall_mem_singleton.mpr (allLeft_withMachine (hc.fresh _ (.blank _ _ rfl)) hcallee
          hcall ha (hm ▸ hc.calls _) has hleft)⟩) hk rfl,
      hc'.surrounded _⟩
  | .expression hk h => by
    obtain ⟨hcs, hleft, hc'⟩ := h.left (fun p hp => child_mem ht hp) hc
    exact ⟨stands_of_turned ht hcs hleft hk rfl, hc'.paused _⟩
  | .call hk hcall ha h hm hb => by
    have hcallee := child_mem ht mem_cons_self
    obtain ⟨has, hleft, hc'⟩ := h.left
      (fun p hp => child_mem (child_mem hcallee mem_cons_self) hp) hc
    exact ⟨stands_of_turned ht (.cons (turns_node rfl) .nil)
      (forall_mem_singleton.mpr (allLeft_call hcallee hcall ha (hm ▸ hc'.calls _) has hleft))
      hk rfl, hc'.paused _⟩
  | .machineCall hk hcall ha h hm => by
    have hcallee := child_mem ht mem_cons_self
    obtain ⟨has, hleft, hc'⟩ := h.left
      (fun p hp => child_mem (child_mem hcallee mem_cons_self) hp) hc
    exact ⟨stands_of_turned ht (.cons (turns_node rfl) .nil)
      (forall_mem_singleton.mpr (allLeft_withMachine (hc.fresh _ (.blank _ _ rfl)) hcallee hcall ha
        (hm ▸ hc'.calls _) has hleft)) hk rfl, hc'.surrounded _⟩
  | .wait hk hcall ha h hm hb hw => by
    -- Only the list of arguments is left of a statement that becomes a wait.
    have hargs := child_mem (child_mem ht mem_cons_self) mem_cons_self
    obtain ⟨has, hleft, hc'⟩ := h.left (fun p hp => child_mem hargs hp) hc
    exact ⟨hw.stands hc.fresh ha (allLeft_mk (.turned hargs (ha ▸ rfl) has) hleft),
      (@hc'.cut _ _ _ _ 1 [] [] nofun).of_beside rfl rfl rfl⟩
  | .branch hk h₁ h₂ => by
    obtain ⟨hops, hl₁, hc₁⟩ := h₁.left (fun p hp => child_mem ht (mem_append_left _ hp)) hc
    obtain ⟨hblocks, hl₂, hc₂⟩ := h₂.left (fun p hp => child_mem ht (mem_append_right _ hp)) hc₁
    exact ⟨stands_of_turned ht (rel_append hops hblocks)
      (forall_mem_append.mpr ⟨hl₁, hl₂⟩) hk rfl, hc₂⟩
  | .loop (n := n) hk h₁ h₂ hp => by
    obtain ⟨hops, hl₁, hc₁⟩ := h₁.left (fun p hp => child_mem ht (mem_append_left _ hp))
      (hc.of_beside rfl rfl rfl)
    obtain ⟨hblocks, hl₂, hc₂⟩ := h₂.left (fun p hp => child_mem ht (mem_append_right _ hp)) hc₁
    refine ⟨stands_of_turned ht (rel_append hops hblocks)
      (forall_mem_append.mpr ⟨hl₁, hl₂⟩) rfl ?_, hc₂.of_beside rfl rfl rfl⟩
    revert hk
    cases n.kind <;> decide
  | .leave hk h => by
    obtain ⟨hcs, hleft, hc'⟩ := h.left (fun p hp => child_mem ht hp) hc
    exact ⟨stands_of_turned ht hcs hleft hk rfl, hc'.wasReset _⟩

theorem CutsStatements.left {c c' : Cutter} {cs cs' : Children}
    (h : CutsStatements c cs cs' c') (ht : ∀ p ∈ cs, p.2 ∈ w.subtrees) (hc : Lined w P N c) :
    (∀ p ∈ cs', p.1 = .statements ∧ Stands w P N p.2) ∧ Lined w P N c' :=
  match h with
  | .nil => ⟨nofun, hc⟩
  | .cons h hs => by
    obtain ⟨hhead, htail⟩ := forall_mem_cons.mp ht
    obtain ⟨hstands, hc₁⟩ := h.left hhead { hc with beside := nofun }
    obtain ⟨hcs, hc₂⟩ := hs.left htail { hc₁ with beside := hc.beside }
    refine ⟨forall_mem_append.mpr ⟨fun p hp => ?_, hcs⟩, hc₂⟩
    obtain ⟨u, hmem, rfl⟩ := mem_map.mp hp
    -- the statement with what was put before it and behind it
    rcases mem_append.mp hmem with hmem | hmem
    · exact ⟨rfl, hc₁.beside u (mem_append_left _ hmem)⟩
    · rcases mem_cons.mp hmem with rfl | hmem
      · exact ⟨rfl, hstands⟩
      · exact ⟨rfl, hc₁.beside u (mem_append_right _ hmem)⟩

theorem CutsBlocks.left {c c' : Cutter} {cs cs' : Children} (h : CutsBlocks c cs cs' c')
    (ht : ∀ p ∈ cs, p.2 ∈ w.subtrees) (hc : Lined w P N c) :
    Turned cs cs' ∧ (∀ p ∈ cs', AllLeft w P N p.2) ∧ Lined w P N c' :=
  match h with
  | .nil => ⟨.nil, nofun, hc⟩
  | .cons hk h hs => by
    obtain ⟨hhead, htail⟩ := forall_mem_cons.mp ht
    obtain ⟨hcs, hc₁⟩ := h.left (fun p hp => child_mem hhead hp) hc
    obtain ⟨hblocks, hleft, hc₂⟩ := hs.left htail hc₁
    exact ⟨.cons (turns_node rfl) hblocks, forall_mem_cons.mpr ⟨allLeft_mk
      (.block hhead hk fun p hp => ⟨(hcs p hp).1, (hcs p hp).2.2⟩) fun p hp => (hcs p hp).2.1,
      hleft⟩, hc₂⟩

end

/-! ## What is left -/

variable {s : Tree}

/-- Every child of such a node stands in a place that allows its kind. -/
theorem Left.slots (hu : w.uncut = true) (h : Left w P N s) :
    ∀ p ∈ s.children, ∃ slot ∈ s.kind.slots, p.1 = slot.role ∧
      p.2.kind.isA slot.allowed = true := by
  have hturned : ∀ {n : Node} {cs cs' : Children}, .mk n cs ∈ w.subtrees →
      Turned cs cs' → ∀ q ∈ cs', ∃ slot ∈ n.kind.slots,
        q.1 = slot.role ∧ q.2.kind.isA slot.allowed = true := by
    intro n cs cs' hw h q hq
    obtain ⟨p, hp, hturns⟩ := h.mem q hq
    obtain ⟨slot, hslot, hr, ha⟩ := fills_mem (uncut_fills (uncut_subtree hu hw)) p hp
    refine ⟨slot, hslot, hturns.role.trans hr, ?_⟩
    rcases hturns.kind with hkind | ⟨hcall, hresult⟩
    · rwa [hkind]
    · -- where a call may stand, its result may stand too
      have hplace : ∀ k : Kind, ∀ s ∈ k.slots, Kind.call.isA s.allowed = true →
          Kind.callSubResult.isA s.allowed = true := by
        intro k
        cases k <;> decide
      rw [hresult]
      exact hplace n.kind slot hslot (hcall ▸ ha)
  cases h with
  | same hw hp => exact fills_mem (uncut_fills (uncut_subtree hu hw))
  | turned hw hn h => exact hturned hw h
  | call hw hn ha h hp | given hw hn ha hp => exact hturned hw (.cons (turns_node rfl) .nil)
  | arguments hw ha hm h =>
    refine forall_mem_cons.mpr ⟨⟨⟨.arguments, .expression, .many⟩, ?_, rfl, ?_⟩, hturned hw h⟩
    · rw [kind, node, ha]
      decide
    · rw [kind, node, hm]
      decide
  | block hw hn h =>
    exact fun p hp => ⟨⟨.statements, .statement, .many⟩, by rw [kind, node, hn]; decide,
      h p hp⟩
  | put hn hN h => exact h

/-- A node that was not put in was there before. -/
theorem Left.stems (h : Left w P N s) :
    (s.kind.inserted = true ∧ N s.node) ∨ ∃ u ∈ w.subtrees, s.node = u.node := by
  cases h with
  | put hn hN h => exact .inl ⟨hn, hN⟩
  | same hw | turned hw | call hw | given hw | arguments hw | block hw => exact .inr ⟨_, hw, rfl⟩

end Cutting

end Resumable
