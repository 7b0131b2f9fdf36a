import Mathlib.Algebra.BigOperators.Group.Multiset.Basic
import Mathlib.Data.Multiset.Basic
import Mathlib.Tactic.Abel
import Resumable.Proofs.Holding
import Resumable.Proofs.Steps

/-!
# Steps that make nodes

A step that builds trees draws numbers from the log and must hand on every node that it has made.
Nothing is said of the nodes once an error has been reported, since a stage with an error does not
end well.

* `Step.Makes`: a step hands on the nodes that it has drawn, and has a property.
* `Step.Makes.bind`, `Step.Makes.mapM`: steps one after the other.
* `Step.Makes.after_error`: behind an error nothing is asked for.
-/

namespace Resumable

variable {cs : Children} {k : Kind}

namespace Tree

/-- The numbers of a tree. -/
def bag (t : Tree) : Multiset NodeId := t.ids

/-- The numbers of some trees. -/
def bags (ts : List Tree) : Multiset NodeId := (ts.map bag).sum

/-- The numbers below a node. -/
def under (cs : Children) : Multiset NodeId := bags (cs.map (·.2))

@[simp] theorem bags_nil : bags [] = 0 := rfl

@[simp] theorem bags_cons (t : Tree) (ts : List Tree) : bags (t :: ts) = t.bag + bags ts := by
  simp [bags]

@[simp] theorem bags_append (ts us : List Tree) : bags (ts ++ us) = bags ts + bags us := by
  simp [bags]

@[simp] theorem bags_flatten (tss : List (List Tree)) :
    bags tss.flatten = (tss.map bags).sum := by
  induction tss with
  | nil => rfl
  | cons ts tss ih => simp [ih]

@[simp] theorem under_nil : under [] = 0 := rfl

@[simp] theorem under_cons (r : Role) (t : Tree) (cs : Children) :
    under ((r, t) :: cs) = t.bag + under cs := by
  simp [under]

@[simp] theorem under_append (cs ds : Children) :
    under (cs ++ ds) = under cs + under ds := by
  simp [under]

@[simp] theorem under_flatten (css : List Children) :
    under css.flatten = (css.map under).sum := by
  induction css with
  | nil => rfl
  | cons cs css ih => simp [ih]

@[simp] theorem under_map (r : Role) (ts : List Tree) : under (ts.map (r, ·)) = bags ts := by
  simp [under, Function.comp_def]

theorem under_eq_sum (cs : Children) : under cs = (cs.map fun p => p.2.bag).sum := by
  simp [under, bags, Function.comp_def]

theorem coe_ids_go (cs : Children) : (ids.go cs : Multiset NodeId) = under cs := by
  induction cs with
  | nil => rfl
  | cons p cs ih =>
    obtain ⟨r, t⟩ := p
    rw [ids.go, ← Multiset.coe_add, ih, under_cons, bag]

@[simp] theorem bag_mk (n : Node) (cs : Children) : (mk n cs).bag = {n.id} + under cs := by
  rw [bag, ids, ← coe_ids_go, ← Multiset.cons_coe, Multiset.singleton_add]

@[simp] theorem bag_mapNode {f : Node → Node} (hf : ∀ n, (f n).id = n.id) (t : Tree) :
    (t.mapNode f).bag = t.bag := by
  obtain ⟨n, cs⟩ := t
  rw [mapNode, bag_mk, bag_mk, hf]

end Tree

/-! ## Trees that fit -/

namespace Tree

/-- A node is uncut if its kind is one of the parser's, its children fill its places, and they are
uncut themselves. -/
theorem uncut_of {n : Node} (hk : n.kind = k) (hplain : (k.inserted || k.generated) = false)
    (hfills : fills k.slots cs = true) (hcall : k ≠ .callStatement ∨ ∀ p ∈ cs, p.2.kind = .call)
    (hcs : ∀ p ∈ cs, p.2.uncut = true) : (mk n cs).uncut = true := by
  have hgo := uncut_go_iff.mpr hcs
  rcases hcall with hcall | hcall
  · simp [uncut, hk, hplain, hfills, hgo, hcall]
  · have hall : (cs.all fun p => p.2.kind == .call) = true := by
      rw [List.all_eq_true]
      exact fun p hp => by simp [hcall p hp]
    simp [uncut, hk, hplain, hfills, hgo, hall]

/-- A slot for any number of children takes them all. -/
theorem fills_many {r : Role} (h : ∀ p ∈ cs, p.1 = r ∧ p.2.kind.isA k = true) :
    fills [⟨r, k, .many⟩] cs = true := by
  have hrole : ∀ p ∈ cs, (p.1 == r) = true := fun p hp => by simp [(h p hp).1]
  have hall : (cs.all fun p => p.2.kind.isA k) = true :=
    List.all_eq_true.mpr fun p hp => (h p hp).2
  simp only [fills, List.takeWhile_eq_self_iff.mpr hrole, List.dropWhile_eq_nil_iff.mpr hrole,
    hall, List.isEmpty_nil, Bool.and_self]

/-- All nodes of the tree are of these kinds. -/
def Of (ks : List Kind) (t : Tree) : Prop := ∀ s ∈ t.subtrees, s.kind ∈ ks

theorem Of.mk {ks : List Kind} {n : Node} (hn : n.kind ∈ ks) (hcs : ∀ p ∈ cs, p.2.Of ks) :
    (Tree.mk n cs).Of ks := by
  intro s hs
  rcases mem_subtrees_mk.mp hs with rfl | ⟨p, hp, hs⟩
  · exact hn
  · exact hcs p hp s hs

end Tree

theorem Kind.isA_node (k : Kind) : k.isA .node = true := by
  cases k <;> rfl

/-! ## Attributes leave number and kind alone -/

namespace Node

variable (n : Node)

@[simp] theorem blank_id (id : NodeId) (k : Kind) (o : Origin) : (blank id k o).id = id := rfl

@[simp] theorem blank_kind (id : NodeId) (k : Kind) (o : Origin) : (blank id k o).kind = k := rfl

@[simp] theorem setText_id (k : TextKey) (s : Option String) : (n.setText k s).id = n.id := rfl

@[simp] theorem setText_kind (k : TextKey) (s : Option String) : (n.setText k s).kind = n.kind :=
  rfl

@[simp] theorem setLink_id (k : LinkKey) (i : Option NodeId) : (n.setLink k i).id = n.id := rfl

@[simp] theorem setLink_kind (k : LinkKey) (i : Option NodeId) : (n.setLink k i).kind = n.kind :=
  rfl

@[simp] theorem setFlag_id (k : FlagKey) (b : Bool) : (n.setFlag k b).id = n.id := rfl

@[simp] theorem setFlag_kind (k : FlagKey) (b : Bool) : (n.setFlag k b).kind = n.kind := rfl

@[simp] theorem setNumber_id (k : NumberKey) (i : Option Int) : (n.setNumber k i).id = n.id := rfl

@[simp] theorem setNumber_kind (k : NumberKey) (i : Option Int) :
    (n.setNumber k i).kind = n.kind := rfl

@[simp] theorem named_id (s : String) : (n.named s).id = n.id := rfl

@[simp] theorem named_kind (s : String) : (n.named s).kind = n.kind := rfl

end Node

/-! ## Logs -/

/-- States in which setting a log sets the log and nothing else. -/
class LawfulLog (σ : Type) [HasLog σ] : Prop where
  get_set : ∀ (s : σ) (l : Log), HasLog.get (HasLog.set s l) = l
  set_get : ∀ s : σ, HasLog.set s (HasLog.get s) = s
  set_set : ∀ (s : σ) (l l' : Log), HasLog.set (HasLog.set s l) l' = HasLog.set s l'

instance : LawfulLog Log := ⟨fun _ _ => rfl, fun _ => rfl, fun _ _ _ => rfl⟩

/-- The numbers that were drawn between two logs. -/
def Log.drawn (l l' : Log) : Multiset NodeId := (List.range' l.nextId (l'.nextId - l.nextId) : _)

/-- Between two logs no node was taken out, and the nodes in hand grew by those drawn. -/
structure Log.Grows (l l' : Log) (had has : Multiset NodeId) : Prop where
  removed : l'.removed = l.removed
  le : l.nextId ≤ l'.nextId
  has : has = had + l.drawn l'

namespace Log

@[simp] theorem drawn_self (l : Log) : l.drawn l = 0 := by simp [drawn]

theorem range'_append_range' {a b c : Nat} (h : a ≤ b) (h' : b ≤ c) :
    List.range' a (b - a) ++ List.range' b (c - b) = List.range' a (c - a) := by
  obtain ⟨m, rfl⟩ := Nat.exists_eq_add_of_le h
  obtain ⟨k, rfl⟩ := Nat.exists_eq_add_of_le h'
  have hsum : a + m + k - a = m + k := by omega
  rw [hsum, Nat.add_sub_cancel_left, Nat.add_sub_cancel_left, ← List.range'_append, Nat.one_mul]

theorem drawn_add {l l' l'' : Log} (h : l.nextId ≤ l'.nextId) (h' : l'.nextId ≤ l''.nextId) :
    l.drawn l' + l'.drawn l'' = l.drawn l'' := by
  rw [drawn, drawn, drawn, Multiset.coe_add, range'_append_range' h h']

theorem Grows.refl (l : Log) (had : Multiset NodeId) : l.Grows l had had :=
  ⟨rfl, le_rfl, by rw [drawn_self, add_zero]⟩

/-- What is drawn in two steps is drawn in one. -/
theorem Grows.trans {l l' l'' : Log} {a b c : Multiset NodeId} (h : l.Grows l' a b)
    (h' : l'.Grows l'' b c) : l.Grows l'' a c where
  removed := h'.removed.trans h.removed
  le := h.le.trans h'.le
  has := by rw [h'.has, h.has, add_assoc, drawn_add h.le h'.le]

/-- Without an error at the end there was none before, no node was taken out, and the numbers that
were drawn are known. -/
def Clean (l l' : Log) (d : Multiset NodeId) : Prop :=
  l'.failed = false → l.failed = false ∧ l.Grows l' 0 d

variable {l l' l'' : Log} {d d' : Multiset NodeId}

theorem Clean.refl (l : Log) : l.Clean l 0 := fun hok => ⟨hok, .refl _ _⟩

theorem Clean.of_failed (h : l'.failed = true) : l.Clean l' d := fun hok => by
  rw [h] at hok
  cases hok

theorem Clean.failed (h : l.Clean l' d) (hf : l.failed = true) : l'.failed = true := by
  cases hl : l'.failed with
  | true => rfl
  | false => exact (h hl).1.symm.trans hf

theorem Clean.next (l : Log) : l.Clean { l with nextId := l.nextId + 1 } {l.nextId} := fun hok =>
  ⟨hok, rfl, Nat.le_succ _, by simp [drawn]⟩

theorem Grows.add (h : l.Grows l' 0 d) (h' : l'.Grows l'' 0 d') : l.Grows l'' 0 (d + d') :=
  h.trans ⟨h'.removed, h'.le, by rw [h'.has, zero_add]⟩

theorem Clean.trans (h : l.Clean l' d) (h' : l'.Clean l'' d') :
    l.Clean l'' (d + d') := fun hok => by
  obtain ⟨hok', hgrows'⟩ := h' hok
  obtain ⟨hok₀, hgrows⟩ := h hok'
  exact ⟨hok₀, hgrows.add hgrows'⟩

end Log

/-! ## What a step gives and draws -/

namespace Step

section

variable {σ α β : Type} [HasLog σ]

/-- A step changes the log only. Unless an error was found then or before, it takes no node out, and
what it gives has a property together with the numbers that it draws. -/
def Makes (s : Step σ α) (P : α → Multiset NodeId → Prop) : Prop :=
  ∀ x a x', s x = .ok a x' → x' = HasLog.set x (HasLog.get x') ∧
    ((HasLog.get x').failed = false → (HasLog.get x).failed = false ∧
      ∃ d, (HasLog.get x).Grows (HasLog.get x') 0 d ∧ P a d)

/-- The tree has the property, and all of its nodes were drawn for it. -/
def Whole (R : Tree → Prop) (t : Tree) (d : Multiset NodeId) : Prop := R t ∧ d = t.bag

variable {s : Step σ α} {f : α → Step σ β} {P P' : α → Multiset NodeId → Prop}
  {Q : β → Multiset NodeId → Prop}

/-- What a step does to the log if it ends without an error. -/
theorem Makes.clean {made : α → Multiset NodeId} {R : α → Prop} {x x' : σ} {a : α}
    (h : Makes s fun a d => R a ∧ d = made a) (hx : s x = .ok a x') :
    x' = HasLog.set x (HasLog.get x') ∧ (HasLog.get x).Clean (HasLog.get x') (made a) ∧
      ((HasLog.get x').failed = false → R a) := by
  obtain ⟨hset, hrest⟩ := h x a x' hx
  refine ⟨hset, fun hok => ?_, fun hok => ?_⟩
  · obtain ⟨hok', d, hgrows, -, rfl⟩ := hrest hok
    exact ⟨hok', hgrows⟩
  · obtain ⟨-, d, -, ha, -⟩ := hrest hok
    exact ha

theorem Makes.throw {e : Fault} : Makes (throw e : Step σ α) P := by
  intro x b x' hx
  cases hx

/-- A weaker property. -/
theorem Makes.weaken (h : Makes s P) (hP : ∀ a d, P a d → P' a d) : Makes s P' := by
  intro x a x' hx
  obtain ⟨hset, hrest⟩ := h x a x' hx
  refine ⟨hset, fun hok => ?_⟩
  obtain ⟨hok', d, hgrows, ha⟩ := hrest hok
  exact ⟨hok', d, hgrows, hP a d ha⟩

theorem Makes.ite {c : Prop} [Decidable c] {s' : Step σ α} (h : c → Makes s P)
    (h' : ¬ c → Makes s' P) : Makes (if c then s else s') P := by
  split
  · next hc => exact h hc
  · next hc => exact h' hc

variable [LawfulLog σ]

theorem Makes.pure {a : α} (h : P a 0) : Makes (Pure.pure a : Step σ α) P := by
  intro x b x' hx
  cases hx
  exact ⟨(LawfulLog.set_get x).symm, fun hok => ⟨hok, 0, .refl _ _, h⟩⟩

/-- One step behind another. The second is taken whether the first found an error or not, so what
the first gives is known at the end only. -/
theorem Makes.bind (h : Makes s P) (hf : ∀ a, Makes (f a) fun b d' => ∀ d, P a d → Q b (d + d')) :
    Makes (s >>= f) Q := by
  intro x b x' hx
  obtain ⟨a, x₁, hs, hfa⟩ := Step.bind_inv hx
  obtain ⟨hset', hrest'⟩ := hf a x₁ b x' hfa
  obtain ⟨hset, hrest⟩ := h x a x₁ hs
  refine ⟨?_, fun hok => ?_⟩
  · rwa [hset, LawfulLog.set_set] at hset'
  · obtain ⟨hok₁, d', hgrows', hb⟩ := hrest' hok
    obtain ⟨hok₀, d, hgrows, ha⟩ := hrest hok₁
    exact ⟨hok₀, d + d', hgrows.add hgrows', hb d ha⟩

/-- A computation without a log makes no nodes. -/
theorem Makes.lift {e : Except Fault α} (h : ∀ a, e = .ok a → P a 0) :
    Makes (liftM e : Step σ α) P := by
  intro x a x' hx
  obtain ⟨he, rfl⟩ := Step.lift_inv hx
  exact ⟨(LawfulLog.set_get _).symm, fun hok => ⟨hok, 0, .refl _ _, h a he⟩⟩

/-- A step for each member of a list. -/
theorem Makes.mapM {as : List α} {R : α → β → Prop} {m : β → Multiset NodeId}
    (h : ∀ a ∈ as, Makes (f a) fun b d => R a b ∧ d = m b) :
    Makes (as.mapM f) fun bs d => List.Forall₂ R as bs ∧ d = (bs.map m).sum := by
  induction as with
  | nil =>
    rw [List.mapM_nil]
    exact .pure ⟨.nil, rfl⟩
  | cons a as ih =>
    obtain ⟨ha, has⟩ := List.forall_mem_cons.mp h
    rw [List.mapM_cons]
    refine ha.bind fun b => (ih has).bind fun bs => .pure ?_
    rintro _ ⟨hbs, rfl⟩ _ ⟨hb, rfl⟩
    exact ⟨.cons hb hbs, by simp⟩

theorem Makes.mapM_all {as : List α} {R : β → Prop} {m : β → Multiset NodeId}
    (h : ∀ a ∈ as, Makes (f a) fun b d => R b ∧ d = m b) :
    Makes (as.mapM f) fun bs d => (∀ b ∈ bs, R b) ∧ d = (bs.map m).sum := by
  refine (mapM (R := fun _ => R) h).weaken fun bs d hbs => ⟨?_, hbs.2⟩
  obtain ⟨hbs, -⟩ := hbs
  clear h
  induction hbs with
  | nil => nofun
  | cons hb _ ih => exact List.forall_mem_cons.mpr ⟨hb, ih⟩

theorem Makes.mapM_children {as : List α} {f : α → Step σ (Role × Tree)} {R : Role × Tree → Prop}
    (h : ∀ a ∈ as, Makes (f a) fun q d => R q ∧ d = q.2.bag) :
    Makes (as.mapM f) fun cs d => (∀ q ∈ cs, R q) ∧ d = Tree.under cs :=
  (mapM_all (m := fun q => q.2.bag) h).weaken fun cs _ hcs =>
    ⟨hcs.1, hcs.2.trans (Tree.under_eq_sum cs).symm⟩

end

/-! ## Single steps -/

section

variable {σ α : Type} [HasLog σ] [LawfulLog σ]

/-- A new node is blank, and its number is drawn. -/
theorem newNode_makes (k : Kind) (o : Origin) :
    Makes (newNode k o : Step σ Node) fun n d => (∃ id, n = .blank id k o) ∧ d = {n.id} := by
  intro x a x' hx
  cases hx
  rw [LawfulLog.get_set]
  exact ⟨rfl, fun hok => ⟨hok, _, (Log.Clean.next _ hok).2, ⟨_, rfl⟩, rfl⟩⟩

/-- An error is remembered in the log. -/
theorem reportError_inv {o : Origin} {text : String} {x x' : σ} {u : Unit}
    (h : (reportError o text : Step σ Unit) x = .ok u x') :
    x' = HasLog.set x (HasLog.get x') ∧ (HasLog.get x').failed = true := by
  cases ho : o.location? with
  | none =>
    rw [reportError, ho] at h
    cases h
  | some place =>
    simp only [reportError, ho] at h
    cases h
    simp [LawfulLog.get_set, LawfulLog.set_set, Log.fail, Log.print]

theorem Makes.after_error {o : Origin} {text : String} {s : Step σ α}
    {P Q : α → Multiset NodeId → Prop} (h : Makes s Q) : Makes (do reportError o text; s) P := by
  have hreport : Makes (reportError o text : Step σ Unit) fun _ _ => False := by
    intro x a x' hx
    obtain ⟨hset, hfailed⟩ := reportError_inv hx
    refine ⟨hset, fun hok => ?_⟩
    rw [hfailed] at hok
    cases hok
  exact hreport.bind fun _ => h.weaken fun _ _ _ _ h => h.elim

theorem Makes.reported {p : Prop} [Decidable p] {o : Origin} {text : String} {s : Step σ α}
    {P : α → Multiset NodeId → Prop} (h : Makes s P) :
    Makes (if p then do reportError o text; s else s) P :=
  .ite (fun _ => .after_error h) fun _ => h

omit [LawfulLog σ] in
/-- A stage that ends well had no error. -/
theorem checkStage_inv {name : String} {x x' : σ} {u : Unit}
    (h : (checkStage name : Step σ Unit) x = .ok u x') :
    x' = x ∧ (HasLog.get x).failed = false := by
  change (if (HasLog.get x).failed = true then _ else pure () : Step σ Unit) x = _ at h
  split at h
  · cases h
  · next hf =>
    cases h
    exact ⟨rfl, Bool.eq_false_iff.mpr hf⟩

end

end Step

end Resumable
