import Resumable.Proofs.Given
import Resumable.Proofs.Lookup

/-!
# What resolution puts into its tables

Resolution notes types, implicit casts and pointer types; the casts and the pointer types are the
nodes that it makes. A run of resolution is taken apart into the acts that change these tables.

A cast stands around an argument of a call or an operator, or around the value of an assignment,
and the type of this call, operator or assignment is set right behind it. A type is set once. So no
expression is cast twice, however often declarations are visited.

* `Resolve.Acts`: a run of resolution, as the list of what it puts into its tables.
* `Resolve.Balances`: a step whose acts are balanced, so that each cast is followed by the type of
  its user.
* `Resolve.insertCast_acts`, `Resolve.pointerTo_acts`, `Resolve.setType_acts`: the steps that put
  something in.
* `Resolve.balances_rule`: the step of each kind of node.
* `Resolve.balances_visitLater`: a whole visit.
-/

namespace Resumable

open List Resumable.Tree

variable {r r' : Resolution} {t : Tree} {id : NodeId} {u : Unit}

/-- The expressions around which resolution may put casts when it visits a node. -/
def Tree.castable (t : Tree) : List Tree :=
  ((t.child? .argumentList).map (·.inRole .arguments)).getD [] ++ (t.child? .right).toList

namespace Resolve

instance : LawfulLog Resolution := ⟨fun _ _ => rfl, fun _ => rfl, fun _ _ _ => rfl⟩

/-! ## Acts -/

/-- A change of a table that matters for the nodes of the program. -/
inductive Act where
  | type (id : NodeId)
  | cast (id node : NodeId)
  | pointer (type : NodeId) (tree : Tree)

variable {as : List Act}

namespace Act

/-- The node that gets a type. -/
def typed? : Act → Option NodeId
  | type id => some id
  | _ => none

/-- The expression that is cast, with the node of the cast. -/
def cast? : Act → Option (NodeId × NodeId)
  | cast id node => some (id, node)
  | _ => none

/-- The type that gets a pointer type, and the pointer type. -/
def pointer? : Act → Option (NodeId × Tree)
  | .pointer t p => some (t, p)
  | _ => none

end Act

def typed (as : List Act) : List NodeId := as.filterMap Act.typed?

def casts (as : List Act) : List (NodeId × NodeId) := as.filterMap Act.cast?

def pointers (as : List Act) : List (NodeId × Tree) := as.filterMap Act.pointer?

@[simp] theorem typed_append (as bs : List Act) : typed (as ++ bs) = typed as ++ typed bs :=
  filterMap_append

@[simp] theorem casts_append (as bs : List Act) : casts (as ++ bs) = casts as ++ casts bs :=
  filterMap_append

@[simp] theorem pointers_append (as bs : List Act) :
    pointers (as ++ bs) = pointers as ++ pointers bs :=
  filterMap_append

@[simp] theorem typed_nil : typed [] = [] := rfl

@[simp] theorem casts_nil : casts [] = [] := rfl

@[simp] theorem pointers_nil : pointers [] = [] := rfl

@[simp] theorem typed_type (i : NodeId) : typed [.type i] = [i] := rfl

@[simp] theorem casts_type (i : NodeId) : casts [.type i] = [] := rfl

@[simp] theorem pointers_type (i : NodeId) : pointers [.type i] = [] := rfl

@[simp] theorem typed_cast (i j : NodeId) : typed [.cast i j] = [] := rfl

@[simp] theorem casts_cast (i j : NodeId) : casts [.cast i j] = [(i, j)] := rfl

@[simp] theorem pointers_cast (i j : NodeId) : pointers [.cast i j] = [] := rfl

@[simp] theorem typed_pointer (i : NodeId) (p : Tree) : typed [.pointer i p] = [] := rfl

@[simp] theorem casts_pointer (i : NodeId) (p : Tree) : casts [.pointer i p] = [] := rfl

@[simp] theorem pointers_pointer (i : NodeId) (p : Tree) : pointers [.pointer i p] = [(i, p)] := rfl

/-- The tables with nodes are the same, and no number was drawn. -/
structure Same (r r' : Resolution) : Prop where
  types : r'.types = r.types
  casts : r'.casts = r.casts
  pointers : r'.pointers = r.pointers
  index : r'.index = r.index
  nextId : r'.log.nextId = r.log.nextId
  removed : r'.log.removed = r.log.removed

/-- A pointer type is made for a type that is known and has none yet. -/
structure MakesPointer (r r' : Resolution) (type : NodeId) (p : Tree) : Prop where
  known : ∃ t, r.index.get? type = some t ∧ t.kind.isA .addressableDecl = true ∧
    t.child? .pointer = none
  new : ∀ q ∈ r.pointers, q.1 ≠ type
  part : Signature.Part .pointerDecl p
  grows : r.log.Grows r'.log 0 p.bag
  types : r'.types = r.types
  casts : r'.casts = r.casts
  pointers : r'.pointers = r.pointers ++ [(type, p)]
  index : r'.index = r.index.addTree p

/-- Acts lead from one state to another. -/
inductive Acts : Resolution → List Act → Resolution → Prop where
  | quiet {r r' : Resolution} (h : Same r r') : Acts r [] r'
  | type {r : Resolution} {id type : NodeId} (h : r.types.get? id = none) :
    Acts r [.type id] { r with types := r.types.insert id type }
  | cast {r : Resolution} {id type : NodeId} :
    Acts r [.cast id r.log.nextId]
      { r with
        casts := r.casts.insert id ⟨r.log.nextId, type⟩
        log := { r.log with nextId := r.log.nextId + 1 } }
  | pointer {r r' : Resolution} {type : NodeId} {p : Tree} (h : MakesPointer r r' type p) :
    Acts r [.pointer type p] r'
  | trans {r r' r'' : Resolution} {as bs : List Act} (h : Acts r as r') (h' : Acts r' bs r'') :
    Acts r (as ++ bs) r''

theorem Same.refl (r : Resolution) : Same r r := ⟨rfl, rfl, rfl, rfl, rfl, rfl⟩

theorem Acts.refl (r : Resolution) : Acts r [] r := .quiet (Same.refl r)

/-- What is found in an index after a tree was added to it. -/
theorem get?_addTree {m : IdMap Tree} {s : Tree} (h : (m.addTree t).get? id = some s) :
    m.get? id = some s ∨ (s ∈ t.subtrees ∧ s.id = id) := by
  have hfold : ∀ (ts : List Tree) (m : IdMap Tree),
      (ts.foldl (fun m s => m.insert s.id s) m).get? id = some s →
      m.get? id = some s ∨ (s ∈ ts ∧ s.id = id) := by
    intro ts
    induction ts with
    | nil => exact fun m hm => .inl hm
    | cons u ts ih =>
      intro m hm
      rcases ih _ hm with hm | ⟨hs, hid⟩
      · rw [IdMap.get?_insert] at hm
        split at hm
        · next hid =>
          obtain rfl := Option.some.inj hm
          exact .inr ⟨mem_cons_self, hid⟩
        · exact .inl hm
      · exact .inr ⟨mem_cons_of_mem _ hs, hid⟩
  exact hfold t.subtrees m h

/-! ## Balanced acts -/

section

variable (Uses : NodeId → NodeId → Prop)

/-- What the expressions of a tree may have cast is different expressions, used by them. -/
def Obeys (t : Tree) : Prop :=
  ∀ s ∈ t.subtrees, s.kind.isA .expression = true →
    (s.castable.map (·.id)).Nodup ∧ ∀ e ∈ s.castable, Uses s.id e.id

/-- The trees that can be looked up have the numbers that they are looked up with, and obey. -/
def Indexed (r : Resolution) : Prop :=
  ∀ id t, r.index.get? id = some t → t.id = id ∧ Obeys Uses t

/-- No expression is cast more often than the type of its user is set, and only expressions with a
user are cast. -/
structure Balanced (as : List Act) : Prop where
  count : ∀ t e, Uses t e → ((casts as).map (·.1)).count e ≤ (typed as).count t
  used : ∀ c ∈ casts as, ∃ t, Uses t c.1

end

variable {Uses : NodeId → NodeId → Prop}

theorem obeys_of_part {p : Tree} (h : Signature.Part .pointerDecl p) : Obeys Uses p := by
  intro s hs hk
  have hkind := h.2 s hs
  exfalso
  revert hk
  simp only [Signature.operatorKinds, mem_cons, not_mem_nil, or_false] at hkind
  rcases hkind with hk | hk | hk | hk | hk | hk <;> rw [hk] <;> decide

theorem Acts.indexed (h : Acts r as r') (hr : Indexed Uses r) : Indexed Uses r' := by
  induction h with
  | quiet h => exact fun id t ht => hr id t (h.index ▸ ht)
  | type h => exact hr
  | cast => exact hr
  | pointer h =>
    intro id t ht
    rw [h.index] at ht
    rcases get?_addTree ht with ht | ⟨hmem, hid⟩
    · exact hr id t ht
    · exact ⟨hid, fun s hs => obeys_of_part h.part s (mem_subtrees_trans hs hmem)⟩
  | trans _ _ ih ih' => exact ih' (ih hr)

theorem Balanced.nil : Balanced Uses [] := ⟨fun _ _ _ => Nat.zero_le _, nofun⟩

/-- Balanced acts one after the other. -/
theorem Balanced.append {bs : List Act} (ha : Balanced Uses as) (hb : Balanced Uses bs) :
    Balanced Uses (as ++ bs) where
  count t e h := by
    have h₁ := ha.count t e h
    have h₂ := hb.count t e h
    simp only [casts_append, typed_append, map_append, count_append]
    omega
  used c hc := by
    rw [casts_append] at hc
    rcases mem_append.mp hc with hc | hc
    · exact ha.used c hc
    · exact hb.used c hc

theorem Balanced.of_casts (h : casts as = []) : Balanced Uses as where
  count t e _ := by simp [h]
  used c hc := by simp [h] at hc

/-! ## Balanced steps -/

section

variable {α β : Type} {pre : Prop} {s : Resolve α} {f : α → Resolve β} {P : α → Prop}
  {Q : β → Prop}

variable (Uses) in
/-- A step that ends well without an error, under a condition, has balanced acts, and what it gives
has a property. Errors that were noted stay noted in any case. -/
def Balances (pre : Prop) (s : Resolve α) (P : α → Prop) : Prop :=
  ∀ r a r', s r = .ok a r' → (r.log.failed = true → r'.log.failed = true) ∧
    (r'.log.failed = false → Indexed Uses r → pre →
      (∃ as, Acts r as r' ∧ Balanced Uses as) ∧ P a)

/-- Balanced steps one after the other. -/
theorem Balances.bind (hs : Balances Uses pre s P) (hf : ∀ a, Balances Uses (pre ∧ P a) (f a) Q) :
    Balances Uses pre (s >>= f) Q := by
  intro r b r' h
  obtain ⟨a, r₁, hsa, hfa⟩ := Step.bind_inv h
  obtain ⟨hfail, hacts⟩ := hs r a r₁ hsa
  obtain ⟨hfail', hacts'⟩ := hf a r₁ b r' hfa
  refine ⟨fun h => hfail' (hfail h), fun hok hr hpre => ?_⟩
  have hmid : r₁.log.failed = false := by
    by_contra hne
    rw [hfail' (by simpa using hne)] at hok
    cases hok
  obtain ⟨⟨as, has, hbal⟩, hp⟩ := hacts hmid hr hpre
  obtain ⟨⟨bs, hbs, hbal'⟩, hq⟩ := hacts' hok (has.indexed hr) ⟨hpre, hp⟩
  exact ⟨⟨as ++ bs, has.trans hbs, hbal.append hbal'⟩, hq⟩

theorem Balances.weaken {pre' : Prop} {P' : α → Prop} (hs : Balances Uses pre s P)
    (hpre : pre' → pre) (hP : ∀ a, P a → P' a) : Balances Uses pre' s P' := by
  intro r a r' h
  obtain ⟨hfail, hacts⟩ := hs r a r' h
  refine ⟨hfail, fun hok hr hp => ?_⟩
  obtain ⟨has, ha⟩ := hacts hok hr (hpre hp)
  exact ⟨has, hP a ha⟩

theorem Balances.under {q : Prop} (hs : Balances Uses pre s P) : Balances Uses (pre ∧ q) s P :=
  hs.weaken (·.1) fun _ h => h

/-- A step that leaves the tables alone. -/
theorem balances_of_same
    (h : ∀ r a r', s r = .ok a r' → (r.log.failed = true → r'.log.failed = true) ∧ Same r r' ∧
      (pre → P a)) : Balances Uses pre s P := by
  intro r a r' hs
  obtain ⟨hfail, hsame, hp⟩ := h r a r' hs
  exact ⟨hfail, fun _ _ hpre => ⟨⟨[], .quiet hsame, .nil⟩, hp hpre⟩⟩

theorem Reads.balances (h : Reads s) : Balances Uses pre s fun _ => True :=
  balances_of_same fun r a r' hs => by
    obtain rfl := h r a r' hs
    exact ⟨fun h => h, Same.refl _, fun _ => trivial⟩

theorem Fails.balances (h : Fails s) : Balances Uses pre s P := fun r a r' hs =>
  (h r a r' hs).elim

theorem balances_pure {a : α} (h : pre → P a) : Balances Uses pre (pure a : Resolve α) P :=
  balances_of_same fun r b r' hs => by
    cases hs
    exact ⟨fun h => h, Same.refl _, h⟩

theorem Balances.ite {c : Prop} [Decidable c] {s' : Resolve α} (h : Balances Uses pre s P)
    (h' : Balances Uses pre s' P) : Balances Uses pre (if c then s else s') P := by
  split
  · exact h
  · exact h'

theorem Reads.bind_balances (hs : Reads s) (hf : ∀ a, Balances Uses pre (f a) Q) :
    Balances Uses pre (s >>= f) Q :=
  hs.balances.bind fun a => (hf a).under

theorem balances_modify {g : Resolution → Resolution} (h : ∀ r, Same r (g r))
    (hfail : ∀ r, (g r).log.failed = r.log.failed) :
    Balances Uses pre (modify g : Resolve Unit) fun _ => True :=
  balances_of_same fun r a r' hs => by
    cases hs
    exact ⟨fun hf => (hfail r).trans hf, h r, fun _ => trivial⟩

theorem balances_reportError (o : Origin) (text : String) :
    Balances Uses pre (reportError o text : Resolve Unit) fun _ => True := by
  intro r a r' hs
  have hfailed : r'.log.failed = true := (Step.reportError_inv hs).2
  exact ⟨fun _ => hfailed, fun hok => by rw [hfailed] at hok; cases hok⟩

end

/-! ## Single steps -/

section

variable {pre : Prop} {type : NodeId}

theorem balances_setStatus (id : NodeId) (st : Status) :
    Balances Uses pre (setStatus id st) fun _ => True :=
  balances_modify (fun _ => ⟨rfl, rfl, rfl, rfl, rfl, rfl⟩) fun _ => rfl

theorem balances_setLink (id target : NodeId) :
    Balances Uses pre (setLink id target) fun _ => True :=
  balances_modify (fun _ => ⟨rfl, rfl, rfl, rfl, rfl, rfl⟩) fun _ => rfl

theorem balances_setScope (owner : NodeId) (sc : Scope) :
    Balances Uses pre (setScope owner sc) fun _ => True :=
  balances_modify (fun _ => ⟨rfl, rfl, rfl, rfl, rfl, rfl⟩) fun _ => rfl

theorem balances_begin (id : NodeId) : Balances Uses pre (begin id) fun _ => True := by
  refine (reads_statusOf id).bind_balances fun st => ?_
  split
  · exact (balances_setStatus id _).bind fun _ => balances_pure fun _ => trivial
  · exact balances_pure fun _ => trivial

theorem balances_finish (id type : NodeId) : Balances Uses pre (finish id type) fun _ => True := by
  refine (reads_statusOf id).bind_balances fun st => ?_
  split
  · exact balances_setStatus id _
  · exact (fails_throw _).balances

theorem balances_setReference (n : Node) (type : NodeId) :
    Balances Uses pre (setReference n type) fun _ => True := by
  refine reads_get.bind_balances fun r => ?_
  exact Balances.ite ((fails_throw _).bind _).balances (balances_setLink _ _)

theorem balances_declare (owner : NodeId) (table : Table) (name : Option String) (n : Node) :
    Balances Uses pre (declare owner table name n) fun _ => True := by
  refine (reads_scope owner).bind_balances fun sc => ?_
  dsimp only
  refine Balances.ite ?_ ?_
  · exact (fails_bind _ fun _ => (fails_throw _).bind _).balances
  · refine (balances_setScope owner _).bind fun _ => ?_
    split
    · refine (balances_reportError _ _).bind fun _ => ?_
      exact (reads_tree _).bind_balances fun t => balances_reportError _ _
    · exact balances_setScope _ _

/-- A type is set only where there was none. -/
theorem setType_acts (h : setType id type r = .ok u r') :
    r.types.get? id = none ∧ r' = { r with types := r.types.insert id type } := by
  unfold setType at h
  obtain ⟨r₀, r₁, hget, h⟩ := Step.bind_inv h
  cases hget
  cases hid : r.types.get? id with
  | none =>
    simp only [hid, Option.isSome_none, Bool.false_eq_true, if_false] at h
    cases h
    exact ⟨rfl, rfl⟩
  | some t =>
    simp only [hid, Option.isSome_some, if_true] at h
    cases h

theorem balances_setType (id type : NodeId) :
    Balances Uses pre (setType id type) fun _ => True := by
  intro r a r' h
  obtain ⟨hnone, rfl⟩ := setType_acts h
  refine ⟨fun h => h, fun _ _ _ => ⟨⟨_, .type hnone, .of_casts rfl⟩, trivial⟩⟩

theorem tree_inv (h : tree id r = .ok t r') : r.index.get? id = some t ∧ r' = r := by
  unfold tree at h
  obtain ⟨r₀, r₁, hget, h⟩ := Step.bind_inv h
  cases hget
  cases hid : r.index.get? id with
  | none =>
    rw [hid] at h
    cases h
  | some s =>
    rw [hid] at h
    cases h
    exact ⟨rfl, rfl⟩

theorem pointerOf?_none (h : pointerOf? t r = .ok none r') :
    r.pointers.find? (·.1 == t.id) = none ∧ t.child? .pointer = none := by
  unfold pointerOf? at h
  obtain ⟨r₀, r₁, hget, hfound⟩ := Step.bind_inv h
  cases hget
  cases hfind : r.pointers.find? (·.1 == t.id) with
  | some q =>
    rw [hfind] at hfound
    cases hfound
  | none =>
    rw [hfind] at hfound
    cases hchild : t.child? .pointer with
    | none => exact ⟨rfl, rfl⟩
    | some q =>
      rw [hchild] at hfound
      cases hfound

/-- A pointer type is made only if there is none yet. -/
theorem pointerTo_acts (h : pointerTo type r = .ok id r') :
    (r.log.failed = true → r'.log.failed = true) ∧
      (r'.log.failed = false → (∀ t, r.index.get? type = some t → t.id = type) →
        r' = r ∨ ∃ p, MakesPointer r r' type p ∧ p.id = id) := by
  unfold pointerTo at h
  obtain ⟨t, r₁, htree, hrest⟩ := Step.bind_inv h
  obtain ⟨hindex, rfl⟩ := tree_inv htree
  dsimp only at hrest
  split at hrest
  · next hkind =>
    obtain ⟨found, r₂, hfound, hmake⟩ := Step.bind_inv hrest
    obtain rfl := reads_pointerOf? _ _ _ _ hfound
    cases found with
    | some p =>
      cases hmake
      exact ⟨fun h => h, fun _ _ => .inl rfl⟩
    | none =>
      cases hname : t.node.name? with
      | none =>
        rw [hname] at hmake
        cases hmake
      | some name =>
        rw [hname] at hmake
        obtain ⟨p, r₃, hp, hadd⟩ := Step.bind_inv hmake
        -- There was no pointer type, neither noted nor in the tree, so a new one is made.
        obtain ⟨hset, hclean, hpart⟩ := (Builtins.pointerTo_makes type name).clean hp
        cases hadd
        refine ⟨hclean.failed, fun hok hid => .inr ⟨p, ?_, rfl⟩⟩
        obtain ⟨hfind, hchild⟩ := pointerOf?_none hfound
        rw [hset]
        refine ⟨⟨t, hindex, hkind, hchild⟩, fun q hq heq => ?_, hpart hok, (hclean hok).2, rfl, rfl,
          rfl, rfl⟩
        have hne := find?_eq_none.mp hfind q hq
        rw [hid t hindex] at hne
        simp [heq] at hne
  · cases hrest

theorem balances_pointerTo (type : NodeId) :
    Balances Uses pre (pointerTo type) fun _ => True := by
  intro r a r' h
  obtain ⟨hfail, hacts⟩ := pointerTo_acts h
  refine ⟨hfail, fun hok hr _ => ⟨?_, trivial⟩⟩
  rcases hacts hok fun t ht => (hr _ t ht).1 with rfl | ⟨p, hp, _⟩
  · exact ⟨[], .refl _, .nil⟩
  · exact ⟨_, .pointer hp, .of_casts rfl⟩

theorem balances_tree (id : NodeId) :
    Balances Uses pre (tree id) fun t => t.id = id ∧ Obeys Uses t := by
  intro r t r' h
  obtain ⟨hindex, rfl⟩ := tree_inv h
  exact ⟨fun h => h, fun _ hr _ => ⟨⟨[], .refl _, .nil⟩, hr id t hindex⟩⟩

/-! ## Casts -/

/-- A cast is put around one expression. -/
theorem insertCast_acts {target source : NodeId} {e : Tree}
    (h : insertCast target source e r = .ok u r') :
    (r.log.failed = true → r'.log.failed = true) ∧ Acts r [.cast e.id r.log.nextId] r' := by
  unfold insertCast at h
  obtain ⟨t, r₁, htree, hcast⟩ := Step.bind_inv h
  obtain ⟨_, rfl⟩ := tree_inv htree
  split at hcast
  · obtain ⟨found, r₂, hfound, hrule⟩ := Step.bind_inv hcast
    obtain rfl := reads_castRule? _ _ _ _ _ hfound
    cases found with
    | none => cases hrule
    | some rule =>
      obtain ⟨type, r₃, htype, hmake⟩ := Step.bind_inv hrule
      obtain rfl := reads_typeIn _ _ _ _ _ htype
      cases hmake
      exact ⟨fun h => h, .cast⟩
  · split at hcast
    · cases hcast
    · cases hcast

/-- The arguments of a call are cast from left to right, each at most once. -/
theorem castArguments_acts (o : Origin) (i : Nat) (args : List (NodeId × Tree)) (params : List Tree)
    (h : castArguments o i args params r = .ok u r') :
    (r.log.failed = true → r'.log.failed = true) ∧
      ∃ as, Acts r as r' ∧ typed as = [] ∧
        ((casts as).map (·.1)).Sublist (args.map (·.2.id)) := by
  induction args generalizing i params r with
  | nil =>
    cases h
    exact ⟨fun h => h, [], .refl _, rfl, by simp⟩
  | cons a args ih =>
    obtain ⟨source, e⟩ := a
    cases params with
    | nil =>
      cases h
      exact ⟨fun h => h, [], .refl _, rfl, by simp⟩
    | cons p params =>
      unfold castArguments at h
      obtain ⟨target, r₁, htarget, h₁⟩ := Step.bind_inv h
      obtain rfl := reads_typeOf _ _ _ _ htarget
      dsimp only at h₁
      split at h₁
      · obtain ⟨hfail, as, has, htyped, hsub⟩ := ih _ _ h₁
        exact ⟨hfail, as, has, htyped, hsub.trans (sublist_cons_self _ _)⟩
      · obtain ⟨b, r₂, hb, h₂⟩ := Step.bind_inv h₁
        obtain rfl := reads_canCast _ _ _ _ _ hb
        split at h₂
        · -- The types differ and there is a rule, so this argument is cast.
          obtain ⟨_, r₃, hcast, hrest⟩ := Step.bind_inv h₂
          obtain ⟨hfail, hact⟩ := insertCast_acts hcast
          obtain ⟨hfail', as, has, htyped, hsub⟩ := ih _ _ hrest
          refine ⟨fun h => hfail' (hfail h), _, hact.trans has, ?_, ?_⟩
          · rw [typed_append, htyped]
            rfl
          · rw [casts_append]
            exact hsub.cons_cons _
        · obtain ⟨_, r₃, _, hrest⟩ := Step.bind_inv h₂
          exact (fails_reject.bind _ _ _ _ hrest).elim

theorem matchArguments_acts {callable : NodeId} {o : Origin} {args : List NodeId} {es : List Tree}
    (h : matchArguments callable o args es r = .ok u r') :
    (r.log.failed = true → r'.log.failed = true) ∧
      ∃ as, Acts r as r' ∧ typed as = [] ∧ ((casts as).map (·.1)).Sublist (es.map (·.id)) := by
  unfold matchArguments at h
  obtain ⟨c, r₁, htree, h₁⟩ := Step.bind_inv h
  obtain ⟨_, rfl⟩ := tree_inv htree
  dsimp only at h₁
  split at h₁
  · exact ((fails_throw _).bind _ _ _ _ h₁).elim
  · obtain ⟨params, r₂, hparams, h₂⟩ := Step.bind_inv h₁
    obtain rfl := reads_parametersOf _ _ _ _ hparams
    split at h₂
    · exact ((fails_throw _).bind _ _ _ _ h₂).elim
    · next hlength =>
      split at h₂
      · obtain ⟨_, r₃, _, hrest⟩ := Step.bind_inv h₂
        exact (fails_reject.bind _ _ _ _ hrest).elim
      · obtain ⟨hfail, as, has, htyped, hsub⟩ := castArguments_acts _ _ _ _ h₂
        refine ⟨hfail, as, has, htyped, ?_⟩
        -- Every argument has its type, so none is lost when they are paired.
        have hzip : (args.zip es).map (·.2.id) = es.map (·.id) := by
          have hsnd : (args.zip es).map Prod.snd = es := map_snd_zip (by omega)
          conv_rhs => rw [← hsnd]
          rw [map_map]
          rfl
        rwa [hzip] at hsub

/-- The casts of a node, and then its type. -/
theorem Balanced.user (hone : ∀ t t' e, Uses t e → Uses t' e → t = t') {t : NodeId} {bs : List Act}
    (hcasts : ((casts as).map (·.1)).Nodup) (huses : ∀ c ∈ casts as, Uses t c.1)
    (hbs : Balanced Uses bs) :
    Balanced Uses (as ++ bs ++ [.type t]) where
  count t' e h := by
    have hb := hbs.count t' e h
    -- An expression that is cast here is used by this node, whose type is set behind it.
    have ha : ((casts as).map (·.1)).count e ≤ [t].count t' := by
      by_cases he : e ∈ (casts as).map (·.1)
      · obtain ⟨c, hc, rfl⟩ := mem_map.mp he
        rw [hone t' t c.1 h (huses c hc), count_singleton_self]
        exact nodup_iff_count_le_one.mp hcasts c.1
      · rw [count_eq_zero_of_not_mem he]
        exact Nat.zero_le _
    simp only [casts_append, typed_append, map_append, count_append, casts_type,
      typed_type, map_nil, count_nil]
    omega
  used c hc := by
    simp only [casts_append, casts_type, append_nil, mem_append] at hc
    rcases hc with hc | hc
    · exact ⟨t, huses c hc⟩
    · exact hbs.used c hc

/-! ## Declarations and expressions -/

variable {onDemand : NodeId → Resolve Unit}

theorem balances_demand (hdemand : ∀ id, Balances Uses True (onDemand id) fun _ => True)
    (id : NodeId) : Balances Uses pre (demand onDemand id) fun _ => True := by
  refine (reads_tree id).bind_balances fun t => ?_
  have hrest : Balances Uses pre (do onDemand id; typeOf t.node : Resolve NodeId) fun _ => True :=
    ((hdemand id).weaken (fun _ => trivial) fun _ h => h).bind fun _ => (reads_typeOf _).balances
  dsimp only
  exact Balances.ite hrest ((fails_throw _).bind _).balances

theorem balances_forM {vs : List Visitable}
    (h : ∀ v ∈ vs, Balances Uses pre v.visit fun _ => True) :
    Balances Uses pre (visitAll vs) fun _ => True := by
  unfold visitAll
  induction vs with
  | nil => exact balances_pure fun _ => trivial
  | cons v vs ih =>
    change Balances Uses pre (v.visit >>= fun _ => vs.forM (·.visit)) _
    refine (h v mem_cons_self).bind fun _ => ?_
    exact (ih fun w hw => h w (mem_cons_of_mem _ hw)).under

/-- The visits of the parts are balanced. -/
def Ready (Uses : NodeId → NodeId → Prop) (pre : Prop) (parts : List Visitable) : Prop :=
  ∀ v ∈ parts, Balances Uses pre v.visit fun _ => True

variable {parts : List Visitable}

theorem Ready.all (h : Ready Uses pre parts) : Balances Uses pre (visitAll parts) fun _ => True :=
  balances_forM h

theorem Ready.role (h : Ready Uses pre parts) (r : Role) :
    Balances Uses pre (visitRole parts r) fun _ => True :=
  balances_forM fun v hv => h v (mem_of_mem_filter hv)

theorem balances_declaration (hparts : Ready Uses pre parts) (n : Node) {enter : Resolve Unit}
    (henter : Balances Uses pre enter fun _ => True) {type : Resolve NodeId}
    (htype : Reads type) : Balances Uses pre (declaration n enter parts type) fun _ => True := by
  refine (balances_begin n.id).bind fun b => ?_
  refine Balances.under ?_
  refine Balances.ite ?_ (balances_pure fun _ => trivial)
  refine henter.bind fun _ => ?_
  refine Balances.under ?_
  refine hparts.all.bind fun _ => ?_
  exact htype.bind_balances fun t => balances_finish n.id t

theorem argumentTypes_inv {types : List NodeId} {args : List Tree}
    (h : argumentTypes t r = .ok (types, args) r') :
    r' = r ∧ ∃ l, t.child? .argumentList = some l ∧ args = l.inRole .arguments := by
  refine ⟨reads_argumentTypes t _ _ _ h, ?_⟩
  unfold argumentTypes at h
  obtain ⟨l, r₁, hl, hrest⟩ := Step.bind_inv h
  obtain ⟨hchild, rfl⟩ := Step.lift_inv hl
  obtain ⟨types', r₂, _, hret⟩ := Step.bind_inv hrest
  cases hret
  refine ⟨l, ?_, rfl⟩
  unfold child at hchild
  split at hchild
  · next c hc =>
    cases hchild
    exact hc
  · cases hchild

/-- A call or an operator casts its arguments and gets its type. -/
theorem balances_overloaded (hone : ∀ t t' e, Uses t e → Uses t' e → t = t')
    (hdemand : ∀ id, Balances Uses True (onDemand id) fun _ => True)
    (hpre : pre → (t.castable.map (·.id)).Nodup ∧ ∀ e ∈ t.castable, Uses t.id e.id)
    (candidates : List NodeId) (unknown : String) :
    Balances Uses pre (overloaded onDemand t candidates unknown) fun _ => True := by
  unfold overloaded
  dsimp only
  refine Balances.ite (fails_bind _ fun _ => fails_reject.bind _).balances ?_
  intro r u r' h
  obtain ⟨⟨types, args⟩, r₁, hargs, h₁⟩ := Step.bind_inv h
  obtain ⟨rfl, l, hl, rfl⟩ := argumentTypes_inv hargs
  obtain ⟨d, r₂, hd, h₂⟩ := Step.bind_inv h₁
  obtain rfl := reads_choose _ _ _ _ _ _ hd
  obtain ⟨_, r₃, hmatch, h₃⟩ := Step.bind_inv h₂
  obtain ⟨hfail, as, has, htyped, hsub⟩ := matchArguments_acts hmatch
  obtain ⟨_, r₄, hlink, h₄⟩ := Step.bind_inv h₃
  have hlinked := (balances_setLink t.id d : Balances Uses True _ _) _ _ _ hlink
  obtain ⟨type, r₅, htype, h₅⟩ := Step.bind_inv h₄
  have hdemanded := (balances_demand hdemand d : Balances Uses True _ _) _ _ _ htype
  obtain ⟨hnone, rfl⟩ := setType_acts h₅
  refine ⟨fun hf => hdemanded.1 (hlinked.1 (hfail hf)), fun hok hr hp => ⟨?_, trivial⟩⟩
  have hok₄ : r₄.log.failed = false := by
    by_contra hne
    have hbad := hdemanded.1 (by simpa using hne)
    exact Bool.false_ne_true (hok.symm.trans hbad)
  obtain ⟨⟨bs, hbs, hbal⟩, _⟩ := hlinked.2 hok₄ (has.indexed hr) trivial
  obtain ⟨⟨cs, hcs, hbal'⟩, _⟩ := hdemanded.2 hok (hbs.indexed (has.indexed hr)) trivial
  obtain ⟨hnd, huses⟩ := hpre hp
  -- the arguments come first among the expressions that may be cast
  have hsub' : ((casts as).map (·.1)).Sublist (t.castable.map (·.id)) := by
    refine hsub.trans ?_
    rw [castable, hl]
    exact (sublist_append_left _ _).map _
  refine ⟨as ++ (bs ++ cs) ++ [.type t.id], ?_, ?_⟩
  · exact (has.trans (hbs.trans hcs)).trans (.type hnone)
  · refine Balanced.user hone (hnd.sublist hsub') (fun c hc => ?_) (hbal.append hbal')
    obtain ⟨e, he, hid⟩ := mem_map.mp (hsub'.subset (mem_map_of_mem hc))
    exact hid ▸ huses e he

/-- An assignment casts its value and gets its type. -/
theorem balances_assignment (hone : ∀ t t' e, Uses t e → Uses t' e → t = t')
    (hpre : pre → (t.castable.map (·.id)).Nodup ∧ ∀ e ∈ t.castable, Uses t.id e.id)
    (hparts : Ready Uses pre parts) : Balances Uses pre (assignment t parts) fun _ => True := by
  unfold assignment
  refine hparts.all.bind fun _ => ?_
  refine (reads_typeIn t .left).bind_balances fun left => ?_
  refine (reads_typeIn t .right).bind_balances fun right => ?_
  dsimp only
  refine Balances.ite (balances_setType _ _) ?_
  refine (reads_canCast left right).bind_balances fun b => ?_
  refine Balances.ite ?_ ((balances_reportError _ _).bind fun _ => balances_setType _ _)
  -- The one branch in which something is cast.
  intro r u r' h
  obtain ⟨e, r₁, he, h₁⟩ := Step.bind_inv h
  obtain ⟨hchild, rfl⟩ := Step.lift_inv he
  obtain ⟨_, r₂, hcast, h₂⟩ := Step.bind_inv h₁
  obtain ⟨hfail, hact⟩ := insertCast_acts hcast
  obtain ⟨hnone, rfl⟩ := setType_acts h₂
  refine ⟨hfail, fun hok hr hp => ⟨?_, trivial⟩⟩
  obtain ⟨_, huses⟩ := hpre hp.1
  have hmem : e ∈ t.castable := by
    unfold child at hchild
    split at hchild
    · next c hc =>
      cases hchild
      simp [castable, hc]
    · cases hchild
  refine ⟨[.cast e.id r₁.log.nextId] ++ [] ++ [.type t.id], ?_, ?_⟩
  · exact (hact.trans (.refl _)).trans (.type hnone)
  · refine Balanced.user hone (nodup_singleton _) (fun c hc => ?_) .nil
    obtain rfl : c = (e.id, r₁.log.nextId) := by simpa using hc
    exact huses e hmem

theorem balances_memberAccess
    (hdemand : ∀ id, Balances Uses True (onDemand id) fun _ => True) (t : Tree)
    (hparts : Ready Uses pre parts) :
    Balances Uses pre (memberAccess onDemand t parts) fun _ => True := by
  unfold memberAccess
  refine hparts.all.bind fun _ => ?_
  refine (reads_typeIn t .expression).bind_balances fun left => ?_
  dsimp only
  split <;> refine Reads.bind_balances ?_ fun left => ?_
  case isTrue.refine_1 => exact reads_pointedBy _ _
  case isFalse.refine_1 => exact reads_pure _
  all_goals
    refine (reads_typeScope left).bind_balances fun sc => ?_
    split
    · refine (balances_setLink _ _).bind fun _ => ?_
      exact (balances_demand hdemand _).bind fun type => balances_setType _ _
    · exact (fails_bind _ fun _ => fails_bind _ fun _ => fails_reject).balances

theorem balances_pointerType (hdemand : ∀ id, Balances Uses True (onDemand id) fun _ => True)
    (t : Tree) (hparts : Ready Uses pre parts) :
    Balances Uses pre (pointerType onDemand t parts) fun _ => True := by
  refine hparts.all.bind fun _ => ?_
  refine (reads_typeIn t .pointedType).bind_balances fun type => ?_
  refine (balances_pointerTo type).bind fun p => ?_
  exact (balances_demand hdemand p).bind fun _ => balances_setReference _ _

theorem balances_simpleType (env : Surroundings) (n : Node) :
    Balances Uses pre (simpleType env n) fun _ => True := by
  refine (reads_lookupType env n.name?).bind_balances fun t => ?_
  split
  · exact balances_setReference _ _
  · exact (fails_bind _ fun _ => fails_reject).balances

theorem balances_enterTypedef (env : Surroundings) (n : Node) :
    Balances Uses pre (enterTypedef env n) fun _ => True := by
  unfold enterTypedef
  split
  · exact balances_declare _ _ _ _
  · exact (reads_owner env _).bind_balances fun _ => balances_declare _ _ _ _

theorem balances_enterParameter (env : Surroundings) (n : Node) :
    Balances Uses pre (enterParameter env n) fun _ => True := by
  unfold enterParameter
  split
  · exact balances_declare _ _ _ _
  · exact balances_pure fun _ => trivial

/-! ## All nodes -/

theorem fails_unsupportedKind {α : Type} (visitor : String) (k : Kind) :
    Fails (unsupportedKind visitor k : Resolve α) :=
  fails_bind _ fun _ => fails_bind _ fun _ => fails_throw _

/-- The visit of a node, from those of its parts. -/
theorem balances_rule (hone : ∀ t t' e, Uses t e → Uses t' e → t = t')
    (hdemand : ∀ id, Balances Uses True (onDemand id) fun _ => True) (env : Surroundings)
    (hobeys : pre → Obeys Uses t) (hparts : Ready Uses pre parts) :
    Balances Uses pre (rule onDemand env t parts) fun _ => True := by
  have huser : t.kind.isA .expression = true → pre →
      (t.castable.map (·.id)).Nodup ∧ ∀ e ∈ t.castable, Uses t.id e.id :=
    fun hk hp => hobeys hp t (mem_subtrees_self t) hk
  have hdeclare : ∀ k table name, Balances Uses pre
      (do declare (← owner env k) table name t.node : Resolve Unit) fun _ => True :=
    fun k table name => (reads_owner env k).bind_balances fun _ => balances_declare _ _ _ _
  have hinternal : ∀ name, Balances Uses pre
      (do setType t.node.id (← internalType env name) : Resolve Unit) fun _ => True :=
    fun name => (reads_internalType env name).bind_balances fun _ => balances_setType _ _
  have htyped : ∀ {s : Resolve NodeId}, Reads s → Balances Uses pre (do
      visitAll parts
      setType t.node.id (← s) : Resolve Unit) fun _ => True :=
    fun hs => hparts.all.bind fun _ => hs.bind_balances fun _ => balances_setType _ _
  unfold rule
  dsimp only
  split
  case h_1 =>
    -- the whole program
    refine (hparts.role _).bind fun _ => ?_
    refine Balances.under ?_
    refine (hparts.role _).bind fun _ => ?_
    refine Balances.under ?_
    refine (hparts.role _).bind fun _ => ?_
    exact (hparts.role _).under
  case h_2 | h_3 | h_4 | h_5 | h_6 | h_7 | h_8 =>
    -- types
    refine balances_declaration hparts _ ?_ (reads_pure _)
    refine (reads_typeOrRoot env).bind_balances fun _ => ?_
    refine (balances_declare _ _ _ _).bind fun _ => ?_
    exact balances_modify (fun _ => ⟨rfl, rfl, rfl, rfl, rfl, rfl⟩) fun _ => rfl
  case h_9 =>
    -- operators
    refine balances_declaration hparts _ ?_ (reads_typeIn _ _)
    exact (reads_typeOrRoot env).bind_balances fun _ => balances_declare _ _ _ _
  case h_10 | h_11 | h_12 | h_14 | h_15 =>
    -- functions, constants, variables and members
    exact balances_declaration hparts _ (hdeclare _ _ _) (reads_typeIn _ _)
  case h_13 =>
    exact balances_declaration hparts _ (balances_enterParameter env _) (reads_typeIn _ _)
  case h_16 =>
    exact balances_declaration hparts _ (balances_enterTypedef env _) (reads_typeIn _ _)
  case h_17 =>
    exact hparts.all.bind fun _ => (reads_statementList_go _ _).balances
  case h_18 | h_19 | h_20 | h_21 | h_22 | h_23 | h_24 | h_25 | h_26 | h_27 | h_28 | h_29 |
      h_30 | h_31 | h_32 | h_33 | h_34 =>
    exact hparts.all
  case h_35 | h_36 | h_37 => exact balances_pure fun _ => trivial
  case h_38 | h_39 => exact (fails_throw _).balances
  case h_40 => exact (reads_typeOf? _).bind_balances fun _ => balances_pure fun _ => trivial
  case h_41 => exact balances_simpleType env _
  case h_42 => exact balances_pointerType hdemand t hparts
  case h_43 hk =>
    -- a call
    refine hparts.all.bind fun _ => ?_
    refine (reads_owner env _).bind_balances fun root => ?_
    refine (reads_scope root).bind_balances fun sc => ?_
    exact balances_overloaded hone hdemand (fun hp => huser (by rw [kind, hk]; rfl) hp.1) _ _
  case h_44 | h_45 => exact hinternal _
  case h_46 =>
    -- the use of a variable
    refine (reads_variableDeclaration env _).bind_balances fun d => ?_
    refine (balances_setLink _ _).bind fun _ => ?_
    exact (balances_demand hdemand d).bind fun _ => balances_setType _ _
  case h_47 hk =>
    exact balances_assignment hone (huser (by rw [kind, hk]; rfl)) hparts
  case h_48 =>
    -- a conditional is an error
    refine hparts.all.bind fun _ => (balances_reportError _ _).bind fun _ => ?_
    exact (hinternal _).weaken (·.1.1) fun _ h => h
  case h_49 hk | h_50 hk =>
    -- operators outside of types
    refine hparts.all.bind fun _ => ?_
    refine (reads_owner env _).bind_balances fun root => ?_
    refine (reads_scope root).bind_balances fun sc => ?_
    exact balances_overloaded hone hdemand (fun hp => huser (by rw [kind, hk]; rfl) hp.1) _ _
  case h_51 hk | h_52 hk | h_53 hk | h_54 hk | h_55 hk =>
    -- operators of types
    refine hparts.all.bind fun _ => ?_
    refine (reads_typeIn t _).bind_balances fun type => ?_
    refine (reads_typeScope type).bind_balances fun sc => ?_
    exact balances_overloaded hone hdemand (fun hp => huser (by rw [kind, hk]; rfl) hp.1) _ _
  case h_56 =>
    refine hparts.all.bind fun _ => (reads_typeIn t _).bind_balances fun type => ?_
    exact (reads_pointedBy _ type).bind_balances fun _ => balances_setType _ _
  case h_57 =>
    refine hparts.all.bind fun _ => (reads_typeIn t _).bind_balances fun type => ?_
    exact (balances_pointerTo type).bind fun _ => balances_setType _ _
  case h_58 => exact balances_memberAccess hdemand t hparts
  case h_59 => exact htyped (reads_typeIn t _)
  case h_60 | h_61 | h_62 | h_63 | h_64 | h_65 | h_66 | h_67 | h_68 | h_69 | h_70 | h_71 |
      h_72 | h_73 | h_74 | h_75 | h_76 | h_77 | h_78 | h_79 | h_80 | h_81 | h_82 =>
    exact (fails_unsupportedKind _ _).balances

mutual

/-- The visit of a tree. -/
theorem balances_visit (hone : ∀ t t' e, Uses t e → Uses t' e → t = t')
    (hdemand : ∀ id, Balances Uses True (onDemand id) fun _ => True) :
    (t : Tree) → (env : Surroundings) →
      Balances Uses (Obeys Uses t) (visit onDemand env t) fun _ => True
  | .mk n cs, env => by
    rw [visit]
    refine balances_rule hone hdemand env (fun h => h) fun v hv => ?_
    refine (balances_visit_go hone hdemand cs (env.enter n) v hv).weaken (fun h p hp => ?_)
      fun _ h => h
    exact fun s hs => h s (mem_subtrees_mk.mpr (.inr ⟨p, hp, hs⟩))

theorem balances_visit_go (hone : ∀ t t' e, Uses t e → Uses t' e → t = t')
    (hdemand : ∀ id, Balances Uses True (onDemand id) fun _ => True) :
    (cs : Children) → (env : Surroundings) → ∀ v ∈ visit.go onDemand env cs,
      Balances Uses (∀ p ∈ cs, Obeys Uses p.2) v.visit fun _ => True
  | [], _ => by simp [visit.go]
  | (r, t) :: rest, env => by
    intro v hv
    rw [visit.go] at hv
    rcases mem_cons.mp hv with rfl | hv
    · exact (balances_visit hone hdemand t env).weaken
        (fun h => h (r, t) mem_cons_self) fun _ h => h
    · exact (balances_visit_go hone hdemand rest env v hv).weaken
        (fun h p hp => h p (mem_cons_of_mem _ hp)) fun _ h => h

end

theorem balances_visitLater (hone : ∀ t t' e, Uses t e → Uses t' e → t = t') (steps : Nat)
    (id : NodeId) : Balances Uses True (visitLater steps id) fun _ => True := by
  induction steps generalizing id with
  | zero => exact (fails_throw _).balances
  | succ steps ih =>
    refine reads_get.bind_balances fun r => ?_
    refine (balances_tree id).bind fun t => ?_
    exact (balances_visit hone ih t _).weaken (·.2.2) fun _ h => h

theorem balances_all (hone : ∀ t t' e, Uses t e → Uses t' e → t = t') (env : Surroundings)
    (t : Tree) : Balances Uses (Obeys Uses t) (all env t) fun _ => True :=
  reads_get.bind_balances fun _ => balances_visit hone (balances_visitLater hone _) t env

end

end Resolve

end Resumable
