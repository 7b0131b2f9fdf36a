import Resumable.Proofs.Steps
import Resumable.Resolution.Settle

/-!
# Steps of resolution that only look things up

Most steps of a resolution read its tables and change nothing, as long as they end well: where
they print or report something, they give up.

* `Resolve.Reads`: a step that ends well and changes nothing.
* `Resolve.reads_choose`: the choice of an overload only reads.
* `Resolve.fails_reportOverload`: if there is none, resolution does not go on.
-/

namespace Resumable.Resolve

variable {α β ι : Type} {s : Resolve α}

/-- The step changes nothing if it ends well. -/
def Reads (s : Resolve α) : Prop := ∀ r a r', s r = .ok a r' → r' = r

/-- The step does not end well. -/
def Fails (s : Resolve α) : Prop := ∀ r a r', s r ≠ .ok a r'

theorem Fails.reads (h : Fails s) : Reads s := fun r a r' hs => (h r a r' hs).elim

theorem fails_throw (e : Fault) : Fails (throw e : Resolve α) := nofun

theorem fails_reject : Fails (reject : Resolve α) := nofun

theorem Fails.bind (h : Fails s) (f : α → Resolve β) : Fails (s >>= f) := by
  intro r b r' hb
  obtain ⟨a, r₁, hs, _⟩ := Step.bind_inv hb
  exact h r a r₁ hs

theorem fails_bind (s : Resolve α) {f : α → Resolve β} (h : ∀ a, Fails (f a)) :
    Fails (s >>= f) := by
  intro r b r' hb
  obtain ⟨a, r₁, _, hf⟩ := Step.bind_inv hb
  exact h a r₁ b r' hf

theorem reads_pure (a : α) : Reads (pure a : Resolve α) := by
  intro r b r' h
  cases h
  rfl

theorem reads_get : Reads (get : Resolve Resolution) := by
  intro r b r' h
  cases h
  rfl

theorem reads_throw (e : Fault) : Reads (throw e : Resolve α) := (fails_throw e).reads

theorem reads_lift (x : Except Fault α) : Reads (liftM x : Resolve α) := fun _ _ _ h =>
  (Step.lift_inv h).2

/-- Steps that only read, one after the other. -/
theorem Reads.bind {f : α → Resolve β} (hs : Reads s) (hf : ∀ a, Reads (f a)) :
    Reads (s >>= f) := by
  intro r b r' h
  obtain ⟨a, r₁, hsa, hfa⟩ := Step.bind_inv h
  rw [hf a r₁ b r' hfa, hs r a r₁ hsa]

theorem Reads.ite {c : Prop} [Decidable c] {s' : Resolve α} (hs : Reads s) (hs' : Reads s') :
    Reads (if c then s else s') := by
  split
  · exact hs
  · exact hs'

theorem reads_mapM {f : ι → Resolve α} (h : ∀ i, Reads (f i)) (xs : List ι) :
    Reads (xs.mapM f) := by
  induction xs with
  | nil =>
    rw [List.mapM_nil]
    exact reads_pure _
  | cons x xs ih =>
    rw [List.mapM_cons]
    exact (h x).bind fun _ => ih.bind fun _ => reads_pure _

theorem reads_findSomeM? {f : ι → Resolve (Option α)} (h : ∀ i, Reads (f i)) (xs : List ι) :
    Reads (xs.findSomeM? f) := by
  induction xs with
  | nil => exact reads_pure _
  | cons x xs ih =>
    rw [List.findSomeM?_cons]
    refine (h x).bind fun a => ?_
    cases a with
    | none => exact ih
    | some a => exact reads_pure _

theorem reads_findM? {f : ι → Resolve Bool} (h : ∀ i, Reads (f i)) (xs : List ι) :
    Reads (xs.findM? f) := by
  induction xs with
  | nil => exact reads_pure _
  | cons x xs ih =>
    rw [List.findM?]
    refine (h x).bind fun b => ?_
    cases b with
    | false => exact ih
    | true => exact reads_pure _

/-! ## Types and names -/

theorem reads_tree (id : NodeId) : Reads (tree id) := by
  refine reads_get.bind fun r => ?_
  split
  · exact reads_pure _
  · exact reads_throw _

theorem reads_statusOf (id : NodeId) : Reads (statusOf id) := reads_get.bind fun _ => reads_pure _

theorem reads_declaredType? (id : NodeId) : Reads (declaredType? id) := by
  refine (reads_statusOf id).bind fun s => ?_
  split
  · exact reads_throw _
  · exact reads_throw _
  · exact reads_pure _
  · exact reads_throw _
  · exact reads_throw _

/-- To look up the type of a node. -/
theorem reads_typeOf? (n : Node) : Reads (typeOf? n) := by
  refine Reads.ite (reads_declaredType? _) (Reads.ite ?_ (Reads.ite ?_ (reads_throw _)))
  · refine reads_get.bind fun r => ?_
    split
    · exact reads_pure _
    · exact reads_throw _
  · refine reads_get.bind fun r => ?_
    split
    · exact reads_pure _
    · exact reads_throw _

theorem reads_typeOf (n : Node) : Reads (typeOf n) := by
  refine (reads_typeOf? n).bind fun t => ?_
  split
  · exact reads_pure _
  · exact reads_throw _

theorem reads_typeIn (t : Tree) (r : Role) : Reads (typeIn t r) :=
  (reads_lift _).bind fun c => reads_typeOf c.node

theorem reads_scope (owner : NodeId) : Reads (scope owner) :=
  reads_get.bind fun _ => reads_pure _

theorem reads_lookup (owner : NodeId) (table : Table) (name : Option String) :
    Reads (lookup owner table name) := (reads_scope owner).bind fun _ => reads_pure _

theorem reads_lookupVariable (blocks : List NodeId) (name : Option String) :
    Reads (lookupVariable blocks name) := by
  unfold lookupVariable
  split
  · exact reads_throw _
  · exact reads_findSomeM? (fun b => reads_lookup b .locals name) _

theorem reads_lookupType (env : Surroundings) (name : Option String) :
    Reads (lookupType env name) := by
  refine (reads_findSomeM? (fun b => reads_lookup b .typedefs name) _).bind fun d => ?_
  split
  · exact (reads_tree _).bind fun t => reads_typeOf? t.node
  · split
    · exact reads_throw _
    · refine (reads_lookup _ _ _).bind fun d => ?_
      split
      · exact (reads_tree _).bind fun t => reads_typeOf? t.node
      · exact reads_lookup _ _ _

theorem reads_internalType (env : Surroundings) (name : String) :
    Reads (internalType env name) := by
  unfold internalType
  split
  · exact reads_throw _
  · refine (reads_lookup _ _ _).bind fun t => ?_
    split
    · exact reads_pure _
    · exact reads_throw _

theorem reads_pointerOf? (type : Tree) : Reads (pointerOf? type) := by
  refine reads_get.bind fun r => ?_
  split
  · exact reads_pure _
  · exact reads_pure _

theorem reads_pointedBy (o : Origin) (type : NodeId) : Reads (pointedBy o type) := by
  refine (reads_tree type).bind fun t => Reads.ite ?_ ?_
  · split
    · exact reads_pure _
    · exact reads_throw _
  · dsimp only
    refine Reads.ite ?_ ((fails_throw _).bind _).reads
    exact (fails_bind _ fun _ => fails_reject).reads

theorem reads_owner (env : Surroundings) (k : ScopeKind) : Reads (owner env k) := by
  unfold owner
  split
  · exact reads_pure _
  · exact reads_throw _

theorem reads_typeOrRoot (env : Surroundings) : Reads (typeOrRoot env) := by
  unfold typeOrRoot
  split
  · exact reads_pure _
  · exact reads_throw _

theorem reads_typeScope (type : NodeId) : Reads (typeScope type) :=
  (reads_tree type).bind fun _ => Reads.ite (reads_scope type) (reads_throw _)

/-! ## Casts and overloads -/

theorem reads_castRule? (target : Tree) (source : NodeId) : Reads (castRule? target source) := by
  refine (reads_lift _).bind fun rules => reads_findM? (fun rule => ?_) _
  have hrule : Reads (do return source == (← typeIn rule .sourceType) : Resolve Bool) :=
    (reads_typeIn rule .sourceType).bind fun _ => reads_pure _
  exact Reads.ite ((reads_throw _).bind fun _ => hrule) hrule

theorem reads_canCast (target source : NodeId) : Reads (canCast target source) := by
  refine (reads_tree target).bind fun t => Reads.ite ?_ (Reads.ite (reads_pure _) (reads_throw _))
  exact (reads_castRule? t source).bind fun _ => reads_pure _

theorem reads_parametersOf (callable : Tree) : Reads (parametersOf callable) := by
  refine Reads.ite ?_ (reads_throw _)
  exact (reads_lift _).bind fun _ => reads_pure _

/-- To count the casts that a call needs. -/
theorem reads_castCount (args : List NodeId) (params : List Tree) :
    Reads (castCount args params) := by
  induction args generalizing params with
  | nil =>
    cases params with
    | nil => exact reads_pure _
    | cons p ps => exact reads_pure _
  | cons source args ih =>
    cases params with
    | nil => exact reads_pure _
    | cons p params =>
      rw [castCount]
      refine (reads_typeOf p.node).bind fun target => ?_
      refine (reads_canCast target source).bind fun b => ?_
      -- Whatever is found out about this argument, the rest is only looked at.
      repeat' split
      all_goals
        refine (reads_pure _).bind fun here => ?_
        cases here with
        | none => exact reads_pure _
        | some n => exact (ih params).bind fun _ => reads_pure _

theorem reads_score (candidate : Tree) (args : List NodeId) : Reads (score candidate args) := by
  refine Reads.ite (reads_pure _) ?_
  refine (reads_parametersOf candidate).bind fun params => ?_
  exact Reads.ite (reads_pure _) (reads_castCount _ _)

theorem fails_reportOverload (o : Origin) (failure : Overload.Failure) (args : List NodeId)
    (candidates : List Tree) : Fails (reportOverload o failure args candidates : Resolve α) := by
  unfold reportOverload
  split
  · exact fails_throw _
  · refine fails_bind _ fun _ => fails_bind _ fun _ => fails_bind _ fun _ => ?_
    refine fails_bind _ fun _ => fails_bind _ fun _ => fails_bind _ fun _ => ?_
    exact fails_bind _ fun _ => fails_reject

theorem reads_choose (o : Origin) (args candidates : List NodeId) :
    Reads (choose o args candidates) := by
  refine (reads_mapM reads_tree _).bind fun trees => ?_
  refine (reads_mapM (fun c => reads_score c args) _).bind fun scores => ?_
  split
  · split
    · exact reads_pure _
    · exact reads_throw _
  · exact (fails_reportOverload _ _ _ _).reads

theorem reads_argumentTypes (t : Tree) : Reads (argumentTypes t) := by
  refine (reads_lift _).bind fun l => ?_
  exact (reads_mapM (fun a : Tree => reads_typeOf a.node) _).bind fun _ => reads_pure _

/-- The type of a variable is looked up. -/
theorem reads_variableDeclaration (env : Surroundings) (n : Node) :
    Reads (variableDeclaration env n) := by
  refine (reads_lookupVariable _ _).bind fun d => ?_
  split
  · exact reads_pure _
  · refine (reads_owner env _).bind fun f => (reads_lookup f _ _).bind fun d => ?_
    split
    · exact reads_pure _
    · refine (reads_owner env _).bind fun f => (reads_lookup f _ _).bind fun d => ?_
      split
      · exact reads_pure _
      · exact (fails_bind _ fun _ => fails_reject).reads

theorem reads_statementList_go (stopped : Bool) (ts : List Tree) :
    Reads (statementList.go stopped ts) := by
  induction ts generalizing stopped with
  | nil => exact reads_pure _
  | cons t ts ih =>
    rw [statementList.go]
    have hrest : Reads (do statementList.go (stopped || (← t.closed)) ts : Resolve Unit) :=
      (reads_lift _).bind fun _ => ih _
    exact Reads.ite ((reads_throw _).bind fun _ => hrest) hrest

end Resumable.Resolve
