import Resumable.Proofs.Resolving

/-!
# The nodes of a resolved program

Resolution makes nodes for implicit casts and for pointer types, and puts all of them into the
tree: a cast around its expression, a pointer type below its type, where a pointer to a pointer
stands below a pointer type that was made before.

* `Resolve.casts_of_acts`, `Resolve.pointers_of_acts`: what the tables hold after a run.
* `Resolution.bag_apply`: what is put into the tree.
* `Resolve.sum_castBag`, `Resolve.sum_pointerBag`: it is all that was made.
* `Resolve.run_grows`: resolution hands on every node.
-/

namespace Resumable

open List Resumable.Tree

variable {t t' s : Tree} {r' r : Resolution} {l : Log} {u e : NodeId} {known : Multiset NodeId}
  {env : Surroundings}

namespace Resolve

variable {r r' : Resolution} {as : List Act}

theorem mem_of_lookup {α β : Type} [DecidableEq α] {l : List (α × β)} {a : α} {b : β}
    (h : l.lookup a = some b) : (a, b) ∈ l := by
  obtain ⟨l₁, l₂, rfl, _⟩ := lookup_eq_some_iff.mp h
  exact mem_append_right _ mem_cons_self

/-! ## What acts have made -/

/-- A type that was set stays, and none is set twice. -/
theorem types_of_acts (h : Acts r as r') :
    (∀ i, (r.types.get? i).isSome = true → (r'.types.get? i).isSome = true) ∧
      (∀ i ∈ typed as, r.types.get? i = none ∧ (r'.types.get? i).isSome = true) ∧
        (typed as).Nodup := by
  induction h with
  | quiet h | pointer h =>
    rw [h.types]
    exact ⟨fun _ h => h, by simp, by simp⟩
  | @type r id ty h =>
    refine ⟨fun i hi => ?_, fun i hi => ?_, by simp⟩
    · dsimp only
      rw [IdMap.get?_insert]
      split
      · rfl
      · exact hi
    · obtain rfl : i = id := by simpa using hi
      exact ⟨h, by simp [IdMap.get?_insert]⟩
  | cast => exact ⟨fun _ h => h, by simp, by simp⟩
  | trans _ _ ih ih' =>
    obtain ⟨hmono, hset, hnd⟩ := ih
    obtain ⟨hmono', hset', hnd'⟩ := ih'
    refine ⟨fun i hi => hmono' i (hmono i hi), fun i hi => ?_, ?_⟩
    · rw [typed_append] at hi
      rcases mem_append.mp hi with hi | hi
      · exact ⟨(hset i hi).1, hmono' i (hset i hi).2⟩
      · refine ⟨?_, (hset' i hi).2⟩
        -- A type that the first acts had set could not be set again.
        by_contra hne
        have hsome := hmono i (Option.isSome_iff_ne_none.mpr hne)
        rw [(hset' i hi).1] at hsome
        cases hsome
    · rw [typed_append]
      refine nodup_append.mpr ⟨hnd, hnd', fun i hi j hj heq => ?_⟩
      subst heq
      have hsome := (hset i hi).2
      rw [(hset' i hj).1] at hsome
      cases hsome

/-- No expression is cast twice. -/
theorem nodup_casts {Uses : NodeId → NodeId → Prop} (h : Acts r as r')
    (hbal : Balanced Uses as) : ((casts as).map (·.1)).Nodup := by
  refine nodup_iff_count_le_one.mpr fun e => ?_
  by_cases he : e ∈ (casts as).map (·.1)
  · obtain ⟨c, hc, rfl⟩ := mem_map.mp he
    obtain ⟨t, ht⟩ := hbal.used c hc
    have hone := nodup_iff_count_le_one.mp (types_of_acts h).2.2 t
    exact (hbal.count t c.1 ht).trans hone
  · rw [count_eq_zero_of_not_mem he]
    exact Nat.zero_le _

theorem pointers_of_acts (h : Acts r as r') :
    r'.pointers = r.pointers ++ pointers as ∧
      ((r.pointers.map (·.1)).Nodup → (r'.pointers.map (·.1)).Nodup) := by
  induction h with
  | quiet h =>
    rw [h.pointers]
    exact ⟨by simp, fun h => h⟩
  | type h => exact ⟨by simp, fun h => h⟩
  | cast => exact ⟨by simp, fun h => h⟩
  | pointer h =>
    rw [h.pointers]
    refine ⟨by simp, fun hnd => ?_⟩
    rw [map_append]
    refine nodup_append.mpr ⟨hnd, nodup_singleton _, fun i hi j hj heq => ?_⟩
    obtain ⟨q, hq, rfl⟩ := mem_map.mp hi
    exact h.new q hq (by simpa [heq] using hj)
  | trans _ _ ih ih' =>
    obtain ⟨heq, hnd⟩ := ih
    obtain ⟨heq', hnd'⟩ := ih'
    exact ⟨by rw [heq', heq, pointers_append, append_assoc], fun h => hnd' (hnd h)⟩

/-- The nodes that the acts have made. -/
def made (as : List Act) : Multiset NodeId :=
  ((casts as).map (·.2) : List NodeId) + bags ((pointers as).map (·.2))

@[simp] theorem made_append (as bs : List Act) : made (as ++ bs) = made as + made bs := by
  simp only [made, casts_append, pointers_append, map_append, bags_append,
    ← Multiset.coe_add]
  abel

/-- What was drawn are the nodes that were made. -/
theorem grows_of_acts (h : Acts r as r') : r.log.Grows r'.log 0 (made as) := by
  induction h with
  | quiet h =>
    refine ⟨h.removed, h.nextId.ge, ?_⟩
    simp [made, Log.drawn, h.nextId]
  | type h => simpa [made] using Log.Grows.refl _ _
  | @cast r id ty =>
    refine ⟨rfl, Nat.le_succ _, ?_⟩
    simp [made, Log.drawn]
  | pointer h => simpa [made] using h.grows
  | trans _ _ ih ih' =>
    refine ⟨ih'.removed.trans ih.removed, ih.le.trans ih'.le, ?_⟩
    rw [made_append, ih.has, ih'.has, zero_add, zero_add, zero_add, Log.drawn_add ih.le ih'.le]

/-- The casts in the table are those of the acts. -/
theorem casts_of_acts (h : Acts r as r') (hnd : ((casts as).map (·.1)).Nodup) (e : NodeId) :
    (r'.casts.get? e).map (·.id) = ((casts as).lookup e).or ((r.casts.get? e).map (·.id)) := by
  induction h with
  | quiet h => simp [h.casts]
  | type h => simp
  | @cast r id ty =>
    by_cases he : id = e
    · subst he
      simp [IdMap.get?_insert]
    · have hne : (e == id) = false := by simpa using Ne.symm he
      simp [IdMap.get?_insert, he, hne]
  | pointer h => simp [h.casts]
  | @trans r₁ r₂ r₃ as bs _ _ ih ih' =>
    rw [casts_append, map_append] at hnd
    obtain ⟨hnd₁, hnd₂, hdisj⟩ := nodup_append.mp hnd
    rw [ih' hnd₂, ih hnd₁, casts_append, lookup_append]
    cases ha : (casts as).lookup e with
    | none => simp
    | some i =>
      -- what is cast by the first acts is not cast by the later ones
      have hmem : e ∈ (casts as).map (·.1) :=
        mem_map_of_mem (f := Prod.fst) (mem_of_lookup ha)
      have hb : (casts bs).lookup e = none := by
        cases hb : (casts bs).lookup e with
        | none => rfl
        | some j =>
          exact absurd rfl (hdisj e hmem e
            (mem_map_of_mem (f := Prod.fst) (mem_of_lookup hb)))
      simp [hb]

/-! ## Chains of pointer types -/

/-- Each pointer type belongs to a type among the given ones or among the pointer types made
before. -/
def Chain : Multiset NodeId → List (NodeId × Tree) → Prop
  | _, [] => True
  | known, (type, p) :: rest => type ∈ known ∧ Chain (known + p.bag) rest

theorem chain_append {ps qs : List (NodeId × Tree)} :
    Chain known (ps ++ qs) ↔ Chain known ps ∧ Chain (known + bags (ps.map (·.2))) qs := by
  induction ps generalizing known with
  | nil => simp [Chain]
  | cons p ps ih => simp [Chain, ih, and_assoc, add_assoc]

/-- A pointer type belongs to a type that was known before it. -/
theorem chain_of_acts (h : Acts r as r') (known : Multiset NodeId)
    (hr : ∀ id t, r.index.get? id = some t → id ∈ known) :
    Chain known (pointers as) ∧
      ∀ id t, r'.index.get? id = some t → id ∈ known + bags ((pointers as).map (·.2)) := by
  induction h generalizing known with
  | quiet h =>
    refine ⟨trivial, fun id t ht => ?_⟩
    simpa using hr id t (h.index ▸ ht)
  | type h => exact ⟨trivial, by simpa using hr⟩
  | cast => exact ⟨trivial, by simpa using hr⟩
  | pointer h =>
    -- A pointer type is made for a type that can be looked up.
    obtain ⟨t, ht, _⟩ := h.known
    refine ⟨⟨hr _ t ht, trivial⟩, fun id s hs => ?_⟩
    rw [h.index] at hs
    rcases get?_addTree hs with hs | ⟨hmem, rfl⟩
    · exact Multiset.mem_add.mpr (.inl (hr id s hs))
    · refine Multiset.mem_add.mpr (.inr ?_)
      simpa [bag] using id_mem_ids hmem
  | trans _ _ ih ih' =>
    obtain ⟨hchain, hindex⟩ := ih known hr
    obtain ⟨hchain', hindex'⟩ := ih' _ hindex
    rw [pointers_append]
    refine ⟨chain_append.mpr ⟨hchain, hchain'⟩, fun id t ht => ?_⟩
    rw [map_append, bags_append, ← add_assoc]
    exact hindex' id t ht

end Resolve

/-! ## Putting nodes into a tree -/

namespace Resolution

/-- What belongs to the entry of a number, if there is one. -/
def found {α : Type} (f : α → Multiset NodeId) (l : List (NodeId × α)) (i : NodeId) :
    Multiset NodeId :=
  ((l.lookup i).map f).getD 0

/-- The node of the cast around an expression. -/
def castBag (r : Resolution) (e : NodeId) : Multiset NodeId :=
  ((r.casts.get? e).map fun c => {c.id}).getD 0

/-- The nodes of the pointer type below a type. -/
def pointerBag (ps : List (NodeId × Tree)) (type : NodeId) : Multiset NodeId := found bag ps type

variable (r : Resolution)

theorem id_apply (ps : List (NodeId × Tree)) (t : Tree) : (r.apply ps t).id = t.id := by
  obtain ⟨n, cs⟩ := t
  rw [apply]
  change (r.linked n).id = n.id
  unfold linked
  split
  · rfl
  · rfl

theorem bag_wrapped (t : Tree) : (r.wrapped t).bag = t.bag + r.castBag t.id := by
  unfold wrapped castBag
  cases hc : r.casts.get? t.id with
  | none => simp
  | some c =>
    simp only [bag_mk, under_cons, under_nil, Node.setLink_id, Node.blank_id, add_zero,
      Option.map_some, Option.getD_some]
    abel

theorem bag_pointer (ps : List (NodeId × Tree)) (i : NodeId) :
    under (((ps.lookup i).map (Role.pointer, ·)).toList) = pointerBag ps i := by
  unfold pointerBag found
  cases ps.lookup i with
  | none => rfl
  | some p => simp

mutual

/-- A tree with its casts and pointer types put in. -/
theorem bag_apply (ps : List (NodeId × Tree)) : (t : Tree) →
    (r.apply ps t).bag =
      t.bag + (t.bag.map (pointerBag ps)).sum + ((under t.children).map r.castBag).sum
  | .mk n cs => by
    have hlinked : (r.linked n).id = n.id := r.id_apply ps (.mk n cs)
    rw [apply, bag_mk, under_append, bag_pointer, bag_apply_go ps cs, hlinked, bag_mk]
    simp only [Multiset.map_add, Multiset.sum_add, Multiset.map_singleton, Multiset.sum_singleton,
      children]
    abel

theorem bag_apply_go (ps : List (NodeId × Tree)) : (cs : Children) →
    under (apply.go r ps cs) =
      under cs + ((under cs).map (pointerBag ps)).sum + ((under cs).map r.castBag).sum
  | [] => rfl
  | (role, t) :: rest => by
    have hbelow : t.bag = {t.id} + under t.children := by
      obtain ⟨n, cs⟩ := t
      exact bag_mk n cs
    rw [apply.go, under_cons, bag_wrapped, id_apply, bag_apply ps t, bag_apply_go ps rest,
      under_cons]
    simp only [Multiset.map_add, Multiset.sum_add]
    conv_rhs => enter [2]; rw [hbelow]
    simp only [Multiset.map_add, Multiset.sum_add, Multiset.map_singleton, Multiset.sum_singleton]
    abel

end

/-! ## Sums -/

section

variable {α : Type} {f : α → Multiset NodeId} {l : List (NodeId × α)} {X : Multiset NodeId}

theorem found_of_not_mem {i : NodeId} (h : i ∉ l.map (·.1)) : found f l i = 0 := by
  unfold found
  cases hl : l.lookup i with
  | none => rfl
  | some a => exact absurd (mem_map_of_mem (f := Prod.fst) (Resolve.mem_of_lookup hl)) h

variable (f X) in
theorem sum_found_nil : (X.map (found f [])).sum = 0 := by
  have hzero : found f [] = fun _ => 0 := rfl
  rw [hzero, Multiset.sum_map_zero]

theorem sum_found_cons {k : NodeId} {a : α} (hX : X.Nodup) (hk : k ∈ X)
    (hnew : k ∉ l.map (·.1)) :
    (X.map (found f ((k, a) :: l))).sum = f a + (X.map (found f l)).sum := by
  obtain ⟨Y, rfl⟩ := Multiset.exists_cons_of_mem hk
  have hkY : k ∉ Y := (Multiset.nodup_cons.mp hX).1
  have hhere : found f ((k, a) :: l) k = f a := by simp [found]
  have hrest : Y.map (found f ((k, a) :: l)) = Y.map (found f l) := by
    refine Multiset.map_congr rfl fun i hi => ?_
    have hne : (i == k) = false := by
      rw [beq_eq_false_iff_ne]
      rintro rfl
      exact hkY hi
    simp [found, lookup_cons, hne]
  rw [Multiset.map_cons, Multiset.map_cons, Multiset.sum_cons, Multiset.sum_cons, hhere, hrest,
    found_of_not_mem hnew, zero_add]

/-- To look up every number finds every entry once. -/
theorem sum_found (hX : X.Nodup) (hmem : ∀ p ∈ l, p.1 ∈ X) (hnd : (l.map (·.1)).Nodup) :
    (X.map (found f l)).sum = (l.map fun p => f p.2).sum := by
  induction l with
  | nil => exact sum_found_nil f X
  | cons p l ih =>
    obtain ⟨k, a⟩ := p
    rw [map_cons, nodup_cons] at hnd
    rw [sum_found_cons hX (hmem _ mem_cons_self) hnd.1,
      ih (fun q hq => hmem q (mem_cons_of_mem _ hq)) hnd.2, map_cons, sum_cons]

end

/-- The pointer types, each with those of its own parts. -/
def finished (r : Resolution) (ps : List (NodeId × Tree)) : List (NodeId × Tree) :=
  ps.foldr (fun (type, p) done => (type, r.apply done p) :: done) []

theorem map_fst_finished (ps : List (NodeId × Tree)) :
    (r.finished ps).map (·.1) = ps.map (·.1) := by
  induction ps with
  | nil => rfl
  | cons p ps ih => rw [finished, foldr_cons, map_cons, ← finished, ih, map_cons]

/-- A chain of pointer types comes in with all its nodes, if none of them is cast. The induction is
on the pointer types in the order in which they were made: each one hangs below what is there, and
what hangs below it is found in it. -/
theorem sum_finished {ps : List (NodeId × Tree)} (hchain : Resolve.Chain known ps)
    (hnd : (ps.map (·.1)).Nodup) (hdiff : (known + bags (ps.map (·.2))).Nodup)
    (hcast : ∀ p ∈ ps, ∀ i ∈ p.2.bag, r.castBag i = 0) :
    (known.map (pointerBag (r.finished ps))).sum = bags (ps.map (·.2)) := by
  induction ps generalizing known with
  | nil => exact sum_found_nil bag known
  | cons p ps ih =>
    obtain ⟨type, p⟩ := p
    obtain ⟨hknown, hrest⟩ := hchain
    rw [map_cons, nodup_cons] at hnd
    rw [map_cons, bags_cons, ← add_assoc] at hdiff
    have hknownNodup : known.Nodup :=
      Multiset.nodup_of_le (Multiset.le_add_right known p.bag)
        (Multiset.nodup_of_le (Multiset.le_add_right _ _) hdiff)
    have hnew : type ∉ (r.finished ps).map (·.1) := by
      rw [map_fst_finished]
      exact hnd.1
    -- No cast stands in a pointer type, but later pointer types may.
    have hbag : (r.apply (r.finished ps) p).bag =
        p.bag + (p.bag.map (pointerBag (r.finished ps))).sum := by
      have hzero : ((under p.children).map r.castBag).sum = 0 := by
        refine Multiset.sum_eq_zero fun x hx => ?_
        obtain ⟨i, hi, rfl⟩ := Multiset.mem_map.mp hx
        refine hcast _ mem_cons_self i ?_
        obtain ⟨n, cs⟩ := p
        rw [bag_mk]
        exact Multiset.mem_add.mpr (.inr hi)
      rw [bag_apply, hzero, add_zero]
    have hih := ih hrest hnd.2 hdiff fun q hq => hcast q (mem_cons_of_mem _ hq)
    rw [Multiset.map_add, Multiset.sum_add] at hih
    calc (known.map (pointerBag (r.finished ((type, p) :: ps)))).sum
        = (r.apply (r.finished ps) p).bag + (known.map (pointerBag (r.finished ps))).sum :=
          sum_found_cons hknownNodup hknown hnew
      _ = p.bag + ((known.map (pointerBag (r.finished ps))).sum +
            (p.bag.map (pointerBag (r.finished ps))).sum) := by rw [hbag]; abel
      _ = bags (((type, p) :: ps).map (·.2)) := by rw [hih, map_cons, bags_cons]

end Resolution

/-! ## The last check -/

namespace Resolve

/-- A step that leaves the state as it was, whether it ends well or not. -/
def Still {α : Type} (s : Resolve α) : Prop :=
  ∀ r, (∀ a r', s r = .ok a r' → r' = r) ∧ ∀ e r', s r = .error e r' → r' = r

section

variable {α β : Type}

theorem still_pure (a : α) : Still (pure a : Resolve α) := by
  intro r
  refine ⟨fun b r' h => ?_, fun e r' h => ?_⟩
  · cases h
    rfl
  · cases h

theorem still_throw (e : Fault) : Still (throw e : Resolve α) := by
  intro r
  refine ⟨fun b r' h => ?_, fun e' r' h => ?_⟩
  · cases h
  · cases h
    rfl

theorem still_get : Still (get : Resolve Resolution) := by
  intro r
  refine ⟨fun b r' h => ?_, fun e r' h => ?_⟩
  · cases h
    rfl
  · cases h

theorem Still.bind {s : Resolve α} {f : α → Resolve β} (hs : Still s) (hf : ∀ a, Still (f a)) :
    Still (s >>= f) := by
  intro r
  cases h : s r with
  | ok a r₁ =>
    obtain rfl := (hs r).1 a r₁ h
    have hrun : (s >>= f) r₁ = f a r₁ := by simp only [Bind.bind, EStateM.bind, h]
    rw [hrun]
    exact hf a r₁
  | error e r₁ =>
    obtain rfl := (hs r).2 e r₁ h
    have hrun : (s >>= f) r₁ = .error e r₁ := by simp only [Bind.bind, EStateM.bind, h]
    rw [hrun]
    refine ⟨nofun, fun e' r' h => ?_⟩
    cases h
    rfl

theorem Still.ite {c : Prop} [Decidable c] {s s' : Resolve α} (hs : Still s) (hs' : Still s') :
    Still (if c then s else s') := by
  split
  · exact hs
  · exact hs'

end

theorem still_typeOf? (n : Node) : Still (typeOf? n) := by
  have hstatus : Still (statusOf n.id) := still_get.bind fun _ => still_pure _
  refine Still.ite (hstatus.bind fun st => ?_) (Still.ite (still_get.bind fun r => ?_)
    (Still.ite (still_get.bind fun r => ?_) (still_throw _)))
  · split
    · exact still_throw _
    · exact still_throw _
    · exact still_pure _
    · exact still_throw _
    · exact still_throw _
  · split
    · exact still_pure _
    · exact still_throw _
  · split
    · exact still_pure _
    · exact still_throw _

theorem checkNode_inv {n : Node} {u : Unit} (h : checkNode n r = .ok u r') :
    r'.log.nextId = r.log.nextId ∧ r'.log.removed = r.log.removed ∧
      r'.log.failed = r.log.failed := by
  obtain ⟨hok, herror⟩ := still_typeOf? n r
  unfold checkNode at h
  cases htype : typeOf? n r with
  | ok t r₁ =>
    obtain rfl := hok t r₁ htype
    cases t with
    | some t =>
      simp only [tryCatch, tryCatchThe, MonadExceptOf.tryCatch, EStateM.tryCatch, bind,
        EStateM.bind, htype] at h
      cases h
      exact ⟨rfl, rfl, rfl⟩
    | none =>
      simp only [tryCatch, tryCatchThe, MonadExceptOf.tryCatch, EStateM.tryCatch, bind,
        EStateM.bind, htype] at h
      cases h
  | error e r₁ =>
    obtain rfl := herror e r₁ htype
    simp only [tryCatch, tryCatchThe, MonadExceptOf.tryCatch, EStateM.tryCatch, bind,
      EStateM.bind, htype] at h
    split at h
    case h_5 => cases h
    all_goals
      cases h
      exact ⟨rfl, rfl, rfl⟩

/-- The last check makes no nodes. -/
theorem check_inv {u : Unit} (h : check t r = .ok u r') :
    r'.log.nextId = r.log.nextId ∧ r'.log.removed = r.log.removed ∧
      r'.log.failed = r.log.failed := by
  have hforM : ∀ (ts : List Tree) (r : Resolution),
      (ts.forM fun s => checkNode s.node) r = .ok u r' →
      r'.log.nextId = r.log.nextId ∧ r'.log.removed = r.log.removed ∧
        r'.log.failed = r.log.failed := by
    intro ts
    induction ts with
    | nil =>
      intro r h
      cases h
      exact ⟨rfl, rfl, rfl⟩
    | cons s ts ih =>
      intro r h
      obtain ⟨_, r₁, hs, hts⟩ := Step.bind_inv h
      obtain ⟨hnext, hremoved, hfailed⟩ := checkNode_inv hs
      obtain ⟨hnext', hremoved', hfailed'⟩ := ih r₁ hts
      exact ⟨hnext'.trans hnext, hremoved'.trans hremoved, hfailed'.trans hfailed⟩
  exact hforM t.subtrees r h

/-! ## A whole resolution -/

/-- The expression is an argument or the value of the node in the tree. -/
def UsesIn (t : Tree) (user e : NodeId) : Prop :=
  ∃ s ∈ t.subtrees, s.id = user ∧ ∃ x ∈ s.castable, x.id = e

theorem mem_castable {x : Tree} (h : x ∈ s.castable) :
    (Role.right, x) ∈ s.children ∨
      ∃ l, (Role.argumentList, l) ∈ s.children ∧ (Role.arguments, x) ∈ l.children := by
  rw [castable, mem_append] at h
  rcases h with h | h
  · cases hl : s.child? .argumentList with
    | none => simp [hl] at h
    | some l =>
      rw [hl, Option.map_some, Option.getD_some, mem_inRole] at h
      exact .inr ⟨l, mem_of_lookup hl, h⟩
  · exact .inl (mem_of_lookup (Option.mem_toList.mp h))

/-- An expression is used by one node. -/
theorem usesIn_unique (hnd : t.ids.Nodup) {u' : NodeId} (h : UsesIn t u e) (h' : UsesIn t u' e) :
    u = u' := by
  obtain ⟨s, hs, rfl, x, hx, rfl⟩ := h
  obtain ⟨s', hs', rfl, x', hx', hid⟩ := h'
  rcases mem_castable hx with hx | ⟨l, hl, hx⟩ <;>
    rcases mem_castable hx' with hx' | ⟨l', hl', hx'⟩
  · rw [(held_once hnd hs hs' hx hx' hid.symm).1]
  · -- a value is no argument
    have hl'' := mem_subtrees_trans (mem_subtrees_child hl') hs'
    cases (held_once hnd hs hl'' hx hx' hid.symm).2
  · have hl'' := mem_subtrees_trans (mem_subtrees_child hl) hs
    cases (held_once hnd hl'' hs' hx hx' hid.symm).2
  · have hl₁ := mem_subtrees_trans (mem_subtrees_child hl) hs
    have hl₂ := mem_subtrees_trans (mem_subtrees_child hl') hs'
    obtain rfl := (held_once hnd hl₁ hl₂ hx hx' hid.symm).1
    rw [(held_once hnd hs hs' hl hl' rfl).1]

/-- The expressions that a node may cast are different. -/
theorem nodup_castable (hnd : t.ids.Nodup) (hs : s ∈ t.subtrees) :
    (s.castable.map (·.id)).Nodup := by
  rw [castable, map_append]
  refine nodup_append.mpr ⟨?_, ?_, fun i hi j hj heq => ?_⟩
  · cases hl : s.child? .argumentList with
    | none => simp
    | some l =>
      have hl' := mem_subtrees_trans (mem_subtrees_child (mem_of_lookup hl)) hs
      exact nodup_inRole (nodup_subtree hnd hl') .arguments
  · cases s.child? .right <;> simp
  · -- an argument is no value
    obtain ⟨x, hx, rfl⟩ := mem_map.mp hi
    obtain ⟨y, hy, rfl⟩ := mem_map.mp hj
    have hright : (Role.right, y) ∈ s.children := mem_of_lookup (Option.mem_toList.mp hy)
    cases hl : s.child? .argumentList with
    | none => simp [hl] at hx
    | some l =>
      rw [hl, Option.map_some, Option.getD_some, mem_inRole] at hx
      have hl' := mem_subtrees_trans (mem_subtrees_child (mem_of_lookup hl)) hs
      cases (held_once hnd hl' hs hx hright heq).2

theorem obeys_usesIn (hnd : t.ids.Nodup) : Obeys (UsesIn t) t := fun s hs _ =>
  ⟨nodup_castable hnd hs, fun e he => ⟨s, hs, rfl, e, he, rfl⟩⟩

theorem mem_under_of_usesIn (h : UsesIn t u e) : e ∈ under t.children := by
  obtain ⟨s, hs, rfl, x, hx, rfl⟩ := h
  have hbelow : ∀ p ∈ s.children, ∀ y ∈ p.2.subtrees, y.id ∈ under t.children := by
    intro p hp y hy
    have hmem : ∃ q ∈ t.children, y ∈ q.2.subtrees := by
      obtain ⟨n, cs⟩ := t
      rcases mem_subtrees_mk.mp hs with rfl | ⟨q, hq, hs⟩
      · exact ⟨p, hp, hy⟩
      · refine ⟨q, hq, mem_subtrees_trans (mem_subtrees_trans hy ?_) hs⟩
        exact mem_subtrees_child hp
    obtain ⟨q, hq, hy⟩ := hmem
    rw [← coe_ids_go, Multiset.mem_coe, ids_go_eq_flatMap, mem_flatMap]
    exact ⟨q, hq, id_mem_ids hy⟩
  rcases mem_castable hx with hx | ⟨l, hl, hx⟩
  · exact hbelow _ hx x (mem_subtrees_self x)
  · exact hbelow _ hl x (mem_subtrees_child hx)

/-- A resolution that begins. -/
def begun (t : Tree) (l : Log) : Resolution := { log := l, index := IdMap.empty.addTree t }

theorem get?_empty {α : Type} (i : NodeId) : (IdMap.empty : IdMap α).get? i = none := by
  simp [IdMap.empty, IdMap.get?]

theorem get?_begun {id : NodeId} (h : (begun t l).index.get? id = some s) :
    s ∈ t.subtrees ∧ s.id = id := by
  rcases get?_addTree h with h | h
  · rw [get?_empty] at h
    cases h
  · exact h

/-- A resolution that ends well, taken apart. -/
theorem run_inv (h : run env t { log := l } = .ok t' r') (hnd : t.ids.Nodup) :
    ∃ r as, Acts (begun t l) as r ∧ Balanced (UsesIn t) as ∧ t' = r.settle t ∧
      r'.log.nextId = r.log.nextId ∧ r'.log.removed = r.log.removed ∧ r'.log.failed = false := by
  unfold run at h
  obtain ⟨_, r₁, hmodify, h₁⟩ := Step.bind_inv h
  cases hmodify
  obtain ⟨_, r₂, hall, h₂⟩ := Step.bind_inv h₁
  obtain ⟨_, r₃, hstage, h₃⟩ := Step.bind_inv h₂
  obtain ⟨rfl, hok⟩ := Step.checkStage_inv hstage
  obtain ⟨r₄, r₅, hget, h₄⟩ := Step.bind_inv h₃
  cases hget
  obtain ⟨_, r₆, hcheck, h₅⟩ := Step.bind_inv h₄
  cases h₅
  obtain ⟨hnext, hremoved, hfailed⟩ := check_inv hcheck
  have hindexed : Indexed (UsesIn t) (begun t l) := by
    intro id s hs
    obtain ⟨hmem, hid⟩ := get?_begun hs
    exact ⟨hid, fun u hu => obeys_usesIn hnd u (mem_subtrees_trans hu hmem)⟩
  have hone : ∀ u u' e, UsesIn t u e → UsesIn t u' e → u = u' := fun u u' e =>
    usesIn_unique hnd
  obtain ⟨⟨as, has, hbal⟩, _⟩ :=
    (balances_all hone env t (begun t l) _ _ hall).2 hok hindexed (obeys_usesIn hnd)
  exact ⟨r₃, as, has, hbal, rfl, hnext, hremoved, hfailed.trans hok⟩

theorem used_of_cast {as : List Act} (h : Acts (begun t l) as r) (hbal : Balanced (UsesIn t) as)
    {c : Cast} (hc : r.casts.get? e = some c) : ∃ u, UsesIn t u e := by
  have hcasts := casts_of_acts h (nodup_casts h hbal) e
  rw [hc, begun, get?_empty, Option.map_some, Option.map_none, Option.or_none] at hcasts
  exact hbal.used (e, c.id) (mem_of_lookup hcasts.symm)

section

variable {t : Tree} {l : Log} {r : Resolution} {as : List Act}

/-- All nodes that were made are new. -/
theorem nodup_made (hacts : Acts (begun t l) as r) (hnd : t.ids.Nodup)
    (hlt : ∀ i ∈ t.ids, i < l.nextId) : (t.bag + made as).Nodup := by
  have hdrawn : made as = l.drawn r.log := by
    rw [(grows_of_acts hacts).has, zero_add]
    rfl
  rw [hdrawn]
  refine Multiset.nodup_add.mpr ⟨Multiset.coe_nodup.mpr hnd, ?_, ?_⟩
  · exact Multiset.coe_nodup.mpr (nodup_range' ..)
  · rw [Multiset.disjoint_left]
    intro i hi hi'
    have hge := (mem_range'_1.mp (Multiset.mem_coe.mp hi')).1
    exact absurd (hlt i (Multiset.mem_coe.mp hi)) (Nat.not_lt.mpr hge)

/-- Every cast is put into the tree once. -/
theorem sum_castBag (hacts : Acts (begun t l) as r) (hbal : Balanced (UsesIn t) as)
    (hnd : t.ids.Nodup) :
    ((under t.children).map r.castBag).sum = ((casts as).map (·.2) : List NodeId) := by
  have hnodup := nodup_casts hacts hbal
  have hcastBag : r.castBag = Resolution.found (fun i => {i}) (casts as) := by
    funext e
    have he := casts_of_acts hacts hnodup e
    rw [begun, get?_empty, Option.map_none, Option.or_none] at he
    rw [Resolution.found, ← he, Resolution.castBag, Option.map_map]
    rfl
  have hunder : (under t.children).Nodup := by
    obtain ⟨n, cs⟩ := t
    have hbag : (mk n cs).bag.Nodup := Multiset.coe_nodup.mpr hnd
    rw [bag_mk] at hbag
    exact Multiset.nodup_of_le (Multiset.le_add_left _ _) hbag
  have hmem : ∀ c ∈ casts as, c.1 ∈ under t.children := fun c hc =>
    mem_under_of_usesIn (hbal.used c hc).choose_spec
  rw [hcastBag, Resolution.sum_found hunder hmem hnodup,
    ← Multiset.sum_map_singleton (((casts as).map (·.2) : List NodeId) : Multiset NodeId),
    Multiset.map_coe, Multiset.sum_coe, map_map]
  rfl

/-- Every pointer type is put into the tree once. -/
theorem sum_pointerBag (hacts : Acts (begun t l) as r) (hbal : Balanced (UsesIn t) as)
    (hnd : t.ids.Nodup) (hlt : ∀ i ∈ t.ids, i < l.nextId) :
    (t.bag.map (Resolution.pointerBag (r.finished r.pointers))).sum =
      bags ((pointers as).map (·.2)) := by
  have hall := nodup_made hacts hnd hlt
  obtain ⟨hpointers, hkeys⟩ := pointers_of_acts hacts
  have hplain : r.pointers = pointers as := by simpa [begun] using hpointers
  obtain ⟨hchain, _⟩ := chain_of_acts hacts t.bag fun id s hs => by
    obtain ⟨hmem, rfl⟩ := get?_begun hs
    exact Multiset.mem_coe.mpr (id_mem_ids hmem)
  have hle : bags ((pointers as).map (·.2)) ≤ made as := Multiset.le_add_left _ _
  rw [hplain]
  refine r.sum_finished hchain ?_ ?_ fun p hp i hi => ?_
  · rw [← hplain]
    exact hkeys nodup_nil
  · exact Multiset.nodup_of_le (add_le_add_right hle _) hall
  · -- casts are around expressions of the tree, and these are no pointer types
    cases hc : r.casts.get? i with
    | none => simp [Resolution.castBag, hc]
    | some c =>
      obtain ⟨u, hu⟩ := used_of_cast hacts hbal hc
      have htree : i ∈ t.bag := by
        obtain ⟨n, cs⟩ := t
        rw [bag_mk]
        exact Multiset.mem_add.mpr (.inr (mem_under_of_usesIn hu))
      have hmade : i ∈ made as := by
        refine Multiset.mem_of_le hle (Multiset.mem_of_le ?_ hi)
        obtain ⟨qs, rs, hqs⟩ := append_of_mem hp
        rw [hqs, map_append, bags_append, map_cons, bags_cons]
        exact (Multiset.le_add_right _ _).trans (Multiset.le_add_left _ _)
      exact absurd hmade (Multiset.disjoint_left.mp (Multiset.nodup_add.mp hall).2.2 htree)

end

theorem run_grows (h : run env t { log := l } = .ok t' r') (hnd : t.ids.Nodup)
    (hlt : ∀ i ∈ t.ids, i < l.nextId) : r'.log.failed = false ∧ l.Grows r'.log t.bag t'.bag := by
  obtain ⟨r, as, hacts, hbal, rfl, hnext, hremoved, hfailed⟩ := run_inv h hnd
  have hgrows := grows_of_acts hacts
  have hdrawn : l.drawn r'.log = l.drawn r.log := by rw [Log.drawn, Log.drawn, hnext]
  refine ⟨hfailed, ⟨hremoved.trans hgrows.removed, hgrows.le.trans hnext.ge, ?_⟩⟩
  calc (r.settle t).bag
      = t.bag + bags ((pointers as).map (·.2)) + ((casts as).map (·.2) : List NodeId) := by
        rw [← sum_pointerBag hacts hbal hnd hlt, ← sum_castBag hacts hbal hnd]
        exact r.bag_apply _ t
    _ = t.bag + made as := by
        rw [made]
        abel
    _ = t.bag + l.drawn r'.log := by
        rw [hgrows.has, zero_add, hdrawn]
        rfl

end Resolve

end Resumable
