import Resumable.Proofs.Definitions
import Resumable.Proofs.Repetition
import Resumable.Proofs.Resetting
import Resumable.Proofs.Runs

/-!
# What a function finds when it is called again

The parameters of a function and the variables of its prologue are not kept in the structure of its
machine. They are passed and computed again whenever the function is called, so an assignment to
one of them is good until the function is left and no longer.

* `Program.Begins.reaches`: every state of a run lies between a call of the function and the next.
* `Program.Stays.cells`: in between a variable that is not set keeps its value.
* `Program.HasEntrance.opens`: a call carries out the prologue before it goes anywhere else.
* `Cutting.definition_passes_again`: parameters and prologue of a function that is called again.
-/

namespace Resumable

open List hiding iterate

open Job

variable {L : Language} {v : NodeId} {f t body : Tree} {cs rest : Children} {c c' c₁ : Cutter}
  {w : List Job} {b : Node} {ms : Machines} {skip n : Nat} {vs : List NodeId} {s s' : Store L}
  {g : Node → Node} {main splitAll : Bool}

namespace Program

variable {p : Program} {env : Environment L}

/-! ## Between two returns -/

/-- A function goes from one state to another without being left, and sets some variables on the
way, the last ones first. -/
inductive Stays (p : Program) (env : Environment L) (c : Config L) :
    List NodeId → Config L → Prop
  | refl : Stays p env c [] c
  | step {vs : List NodeId} {d e : Config L} {j : Job} {w : List Job} (h : Stays p env c vs d)
      (hw : d.work = j :: w) (hs : p.step env d = some (.goes e)) (he : e.entries = d.entries) :
      Stays p env c (p.sets j ++ vs) e

/-- A step that does not begin a new call does one job. -/
theorem store_of_step {c d : Config L} {j : Job} (hw : c.work = j :: w)
    (hs : p.step env c = some (.goes d)) (he : d.entries = c.entries) :
    ∃ x, p.act j c.store = some (x, d.store) := by
  obtain ⟨j', w', x, s, hw', hact, ⟨rfl, -⟩ | ⟨c₁, k, -, hc₁, rfl⟩⟩ := step_inv hs
  · cases hw.symm.trans hw'
    exact ⟨x, hact⟩
  · -- A function that is called again counts one call more.
    have hmore : c₁.entries + 1 = c.entries := he
    omega

theorem Stays.cells {c d : Config L} (h : p.Stays env c vs d) (hv : v ∉ vs) :
    d.store.cells v = c.store.cells v := by
  induction h with
  | refl => rfl
  | @step vs d e j w h hw hs he ih =>
    rw [mem_append, not_or] at hv
    obtain ⟨x, hact⟩ := store_of_step hw hs he
    exact ((built_act j).frame hact hv.1).trans (ih hv.2)

/-- What `Stays` says of a number of steps, computed. -/
def stay (p : Program) (env : Environment L) (c : Config L) :
    Nat → Option (List NodeId × Config L)
  | 0 => some ([], c)
  | n + 1 => do
    let (vs, d) ← stay p env c n
    match d.work, p.step env d with
    | j :: _, some (.goes e) => if e.entries = d.entries then some (p.sets j ++ vs, e) else none
    | _, _ => none

theorem stays_of_stay {c d : Config L} (h : p.stay env c n = some (vs, d)) :
    p.Stays env c vs d := by
  induction n generalizing vs d with
  | zero =>
    cases h
    exact .refl
  | succ n ih =>
    obtain ⟨⟨us, d₁⟩, hstay, hstep⟩ := Option.bind_eq_some_iff.mp h
    simp only at hstep
    split at hstep
    · next j w e hw hs =>
      split at hstep
      · next he =>
        cases hstep
        exact .step (ih hstay) hw hs he
      · cases hstep
    · cases hstep

/-! ## Calls of a function -/

/-- A state in which a function begins: it was called for the first time, or again. -/
inductive Begins (p : Program) (env : Environment L) (w : L.World) : Config L → Prop
  | first : Begins p env w (p.start env w)
  | again {n : Nat} {c e : Config L} (h : p.Steps env n (p.start env w) c)
      (hs : p.step env c = some (.goes e)) (he : e.entries ≠ c.entries) : Begins p env w e

/-- A call begins with the body, and with the variables as they are found. -/
theorem Begins.opened {w : L.World} {e : Config L} (h : p.Begins env w e) :
    e.work = [run p.body] ∧
      ∀ v, v ∉ p.moved → e.store.cells v = p.found env e.entries v := by
  cases h with
  | first => exact ⟨rfl, fun v _ => by simp [start, Program.opened]⟩
  | again _ hs he =>
    obtain ⟨j, w', x, s, -, -, ⟨-, hsame⟩ | ⟨c₁, k, -, -, rfl⟩⟩ := step_inv hs
    · exact absurd hsame he
    · exact ⟨rfl, fun v hv => if_neg hv⟩

/-- A run can be made longer at its end. -/
theorem Steps.tail {c d e : Config L} (h : p.Steps env n c d) (hs : p.step env d = some (.goes e)) :
    p.Steps env (n + 1) c e := by
  have := h.trans (.one hs)
  rwa [Nat.add_comm] at this

theorem Begins.reaches {w : L.World} {d : Config L} (h : p.Steps env n (p.start env w) d) :
    ∃ e vs, p.Begins env w e ∧ p.Stays env e vs d := by
  -- The run goes on from a state that belongs to a call.
  have hgo : ∀ {m n : Nat} {c d : Config L}, p.Steps env n c d →
      p.Steps env m (p.start env w) c → (∃ e vs, p.Begins env w e ∧ p.Stays env e vs c) →
      ∃ e vs, p.Begins env w e ∧ p.Stays env e vs d := by
    intro m n c d hs
    induction hs generalizing m with
    | refl c => exact fun _ h => h
    | @step n c c₁ d hs _ ih =>
      rintro hm ⟨e, vs, he, hvs⟩
      refine ih (hm.tail hs) ?_
      by_cases hentries : c₁.entries = c.entries
      · obtain ⟨j, w', x, s, hw, -⟩ := step_inv hs
        exact ⟨e, _, he, .step hvs hw hs hentries⟩
      · exact ⟨c₁, [], .again hm hs hentries, .refl⟩
  exact hgo h (.refl _) ⟨_, [], .first, .refl⟩

/-! ## The prologue -/

/-- The statements of a prologue, carried out one after the other. -/
def bindAll (p : Program) : List Tree → Eval L Unit
  | [] => pure ()
  | t :: ts => do
    let _ ← p.act (run t)
    bindAll p ts

theorem bindAll_cons {ts : List Tree} :
    p.bindAll (t :: ts) s = some ((), s') ↔
      ∃ x s₁, p.act (run t) s = some (x, s₁) ∧ p.bindAll ts s₁ = some ((), s') := by
  constructor
  · intro h
    obtain ⟨⟨x, s₁⟩, hact, hrest⟩ := Option.bind_eq_some_iff.mp h
    exact ⟨x, s₁, hact, hrest⟩
  · rintro ⟨x, s₁, hact, hrest⟩
    exact Option.bind_eq_some_iff.mpr ⟨⟨x, s₁⟩, hact, hrest⟩

/-- A prologue can be carried out in two parts. -/
theorem bindAll_append {ts us : List Tree} :
    p.bindAll (ts ++ us) s = some ((), s') ↔
      ∃ s₁, p.bindAll ts s = some ((), s₁) ∧ p.bindAll us s₁ = some ((), s') := by
  induction ts generalizing s with
  | nil =>
    constructor
    · exact fun h => ⟨s, rfl, h⟩
    · rintro ⟨s₁, hs, h⟩
      cases hs
      exact h
  | cons t ts ih =>
    simp only [cons_append, bindAll_cons, ih]
    constructor
    · rintro ⟨x, s₁, hact, s₂, hts, hus⟩
      exact ⟨s₂, ⟨x, s₁, hact, hts⟩, hus⟩
    · rintro ⟨s₂, ⟨x, s₁, hact, hts⟩, hus⟩
      exact ⟨x, s₁, hact, s₂, hts, hus⟩

theorem bindAll_map (hg : Renames g) (ts : List Tree) :
    p.bindAll (L := L) (ts.map (Tree.mapNodes g)) = p.bindAll ts := by
  induction ts with
  | nil => rfl
  | cons t ts ih =>
    have hact : p.act (L := L) (run (t.mapNodes g)) = p.act (run t) := act_map hg (run t)
    rw [map_cons, bindAll, bindAll, hact, ih]

/-- The body of a function with states begins with its set-up, the prologue and the dispatch. -/
structure HasEntrance (p : Program) (prologue : List Tree) (dispatch : Tree)
    (tail : Children) : Prop where
  kind : p.body.kind = .statementList
  statements : ∃ first before, p.body.children = (.statements, first) :: before ++
    (.statements, dispatch) :: tail ∧ before.map (·.2) = prologue ∧
      (first.kind = .mainFirst ∨ first.kind = .subFirst)
  prologue : ∀ t ∈ prologue, t.kind = .variableDeclaration
  dispatch : dispatch.kind = .machine

theorem step_declaration {c : Config L} {x : Option L.Value} {s : Store L}
    (hk : t.kind = .variableDeclaration) (hw : c.work = run t :: w)
    (hact : p.act (run t) c.store = some (x, s)) :
    p.step env c = some (.goes { c with work := w, store := s }) := by
  rw [step_of_act hw hact]
  simp [Job.flow, hk, follow]

theorem step_list {c : Config L} (hk : t.kind = .statementList) (hw : c.work = run t :: w) :
    p.step env c = some (.goes { c with work := runAll t.children ++ w }) := by
  rw [step_of_act hw (act_idle (by rw [hk]; rfl) _)]
  simp [Job.flow, hk, follow]

theorem step_setUp {c : Config L} (hk : t.kind = .mainFirst ∨ t.kind = .subFirst)
    (hw : c.work = run t :: w) : p.step env c = some (.goes { c with work := w }) := by
  rw [step_of_act hw (act_idle (by rcases hk with hk | hk <;> rw [hk] <;> rfl) _)]
  rcases hk with hk | hk <;> simp [Job.flow, hk, follow]

/-- The state of a function that was called, when a part of its prologue is still to be carried
out. -/
def inside (e : Config L) (s : Store L) (todo : List Tree) (dispatch : Tree)
    (tail : Children) : Config L :=
  { e with work := todo.map run ++ run dispatch :: runAll tail, store := s }

/-- The states of a function that was called, up to its dispatch. -/
inductive Enters (p : Program) (e : Config L) (prologue : List Tree) (dispatch : Tree)
    (tail : Children) : Config L → Prop
  | call : Enters p e prologue dispatch tail e
  | setUp (first : Tree) (hfirst : first.kind = .mainFirst ∨ first.kind = .subFirst) :
      Enters p e prologue dispatch tail { e with
        work := run first :: (prologue.map run ++ run dispatch :: runAll tail) }
  | prologue (done todo : List Tree) (s : Store L) (hall : prologue = done ++ todo)
      (hs : p.bindAll done e.store = some ((), s)) :
      Enters p e prologue dispatch tail (inside e s todo dispatch tail)

section HasEntrance

variable {prologue : List Tree} {dispatch : Tree} {tail : Children} {e d : Config L}

/-- On its way to the dispatch, a function has carried out a part of its prologue and nothing
else. -/
theorem Enters.bound (h : p.Enters e prologue dispatch tail d) :
    ∃ done, done <+: prologue ∧ p.bindAll done e.store = some ((), d.store) := by
  cases h with
  | call => exact ⟨[], nil_prefix, rfl⟩
  | setUp => exact ⟨[], nil_prefix, rfl⟩
  | prologue done todo s hall hs => exact ⟨done, ⟨todo, hall.symm⟩, hs⟩

/-- A step in the entrance stays there or comes to the dispatch, with all of the prologue done. -/
theorem HasEntrance.step (h : p.HasEntrance prologue dispatch tail) (he : e.work = [run p.body])
    (hd : p.Enters e prologue dispatch tail d) {d' : Config L}
    (hs : p.step env d = some (.goes d')) :
    p.Enters e prologue dispatch tail d' ∨
      ∃ s, p.bindAll prologue e.store = some ((), s) ∧ d = inside e s [] dispatch tail := by
  cases hd with
  | call =>
    obtain ⟨first, before, hchildren, hbefore, hfirst⟩ := h.statements
    -- The list opens, with the set-up of the machine in front.
    rw [step_list h.kind he, hchildren] at hs
    cases hs
    left
    have hwork : runAll ((Role.statements, first) :: before ++
        (.statements, dispatch) :: tail) ++ [] =
        run first :: (prologue.map run ++ run dispatch :: runAll tail) := by
      simp [runAll, ← hbefore]
    rw [hwork]
    exact .setUp first hfirst
  | setUp first hfirst =>
    rw [step_setUp hfirst rfl] at hs
    cases hs
    left
    exact .prologue [] _ _ rfl rfl
  | prologue done todo s hall hdone =>
    cases todo with
    | nil =>
      rw [append_nil] at hall
      -- Nothing of the prologue is left, so this step is the one of the dispatch.
      exact Or.inr ⟨s, hall ▸ hdone, rfl⟩
    | cons t todo =>
      left
      have hk := h.prologue t (hall ▸ mem_append_right _ mem_cons_self)
      obtain ⟨j, w, x, s₁, hw, hact, -⟩ := step_inv hs
      cases hw
      rw [step_declaration hk rfl hact] at hs
      cases hs
      exact .prologue (done ++ [t]) _ _ (by simp [hall])
        (bindAll_append.mpr ⟨s, hdone, bindAll_cons.mpr ⟨x, s₁, hact, rfl⟩⟩)

/-- A function that was called carries out its prologue first. Until it is left, it is on this way
or has come through it. -/
theorem HasEntrance.opens (h : p.HasEntrance prologue dispatch tail) (he : e.work = [run p.body])
    (hd : p.Stays env e vs d) :
    p.Enters e prologue dispatch tail d ∨
      ∃ s us, p.bindAll prologue e.store = some ((), s) ∧
        p.Stays env (inside e s [] dispatch tail) us d := by
  induction hd with
  | refl => exact Or.inl .call
  | @step vs d d' j w _ hw hs hentries ih =>
    rcases ih with hin | ⟨s, us, hs', hus⟩
    · rcases h.step he hin hs with hin' | ⟨s, hs', rfl⟩
      · exact Or.inl hin'
      · exact Or.inr ⟨s, _, hs', .step .refl hw hs hentries⟩
    · exact Or.inr ⟨s, _, hs', .step hus hw hs hentries⟩

end HasEntrance

end Program

/-! ## Functions with states -/

namespace Cutting

open Resumable.Tree

variable {d : Tree} {p : Program}

/-- The parameters of a function. -/
def parametersOf (f : Tree) : List NodeId := ((parameters f).toOption.getD []).map (·.id)

/-- The statements of a function that are carried out in every state. -/
def prologueOf (f : Tree) : List Tree :=
  match f.child? .body with
  | some b => (b.children.take ((prologue (b.children.map (·.2))).toOption.getD 0)).map (·.2)
  | none => []

/-- The variables in the structure of the machine of a function. -/
def keptOf (f : Tree) (ms : Machines) : List NodeId :=
  (ms.list.filter fun m => (f.child? .declaration).map Tree.id = some m.function).flatMap (·.kept)

/-- A function as it is written, carried out. -/
def sourceOf (f : Tree) (c : Cutter) : Program where
  index := c.index
  parameters := parametersOf f
  body := (f.child? .body).getD default
  moved := []

/-- The same function as it is cut, with the variables that it keeps in its machine. -/
def programOf (f : Tree) (c : Cutter) : Program where
  index := c.index
  parameters := parametersOf f
  body := bodyOf f c
  moved := keptOf f (definition f c).2.machines

/-! ### What is kept -/

theorem mem_declared :
    v ∈ t.declared ↔ ∃ s ∈ t.subtrees,
      (s.kind = .variableDeclaration ∨ s.kind = .callSub) ∧ s.id = v := by
  simp [declared, and_assoc]

theorem mem_endings {n : Node} {e : Event} (h : e ∈ endings ms splitAll n cs) :
    e = .cut ∨ e = .exit := by
  have hcut : ∀ {b : Bool}, e ∈ (if b = true then [Event.cut] else []) → e = .cut := by
    intro b he
    split at he
    · exact mem_singleton.mp he
    · cases he
  unfold endings at h
  split at h
  case h_1 | h_2 | h_3 => exact Or.inl (hcut h)
  case h_4 =>
    split at h
    · cases h
    · split at h
      · cases h
      · exact Or.inl (hcut h)
  case h_5 | h_6 | h_7 | h_8 => exact Or.inr (mem_singleton.mp h)
  case h_9 => cases h

/-- What is declared in the course of a tree is declared in the tree. -/
theorem declare_mem_declared (h : Event.declare v ∈ t.events ms splitAll) : v ∈ t.declared := by
  induction t using ofChildren with
  | step n cs ih =>
    rw [mem_declared]
    unfold events at h
    split at h
    · cases h
    split at h
    · obtain ⟨u, -, hu⟩ := mem_map.mp h
      cases hu
    rcases mem_append.mp h with h | h
    · -- The variable of the node itself.
      unfold beginnings at h
      split at h
      case h_1 hk =>
        cases mem_singleton.mp h
        exact ⟨mk n cs, mem_subtrees_self _, Or.inl hk, rfl⟩
      case h_6 => cases h
      all_goals cases mem_singleton.mp h
    rcases mem_append.mp h with h | h
    · obtain ⟨q, hq, h⟩ := gathers_events.mem.mp h
      obtain ⟨s, hs, hk⟩ := mem_declared.mp (ih q hq h)
      exact ⟨s, mem_subtrees_mk.mpr (Or.inr ⟨q, hq, hs⟩), hk⟩
    · rcases mem_endings h with h | h <;> cases h

theorem BecomesAll.kept_iff
    (h : BecomesAll { c.fresh with states := 0, persistence := {} } cs rest c₁)
    (hu : ∀ p ∈ cs, p.2.uncut = true) :
    v ∈ c₁.persistence.kept ↔ Outlives (events.go c.machines c.splitAll cs) v := by
  obtain ⟨c₂, hcuts, rfl⟩ := h.cuts
  exact mem_kept_iff (balanced_go _ _ _) (hcuts.run hu)

theorem declared_of_kept (h : BecomesAll { c.fresh with states := 0, persistence := {} } cs rest c₁)
    (hu : ∀ p ∈ cs, p.2.uncut = true) (hv : v ∈ c₁.persistence.kept) :
    ∃ p ∈ cs, v ∈ p.2.declared := by
  obtain ⟨before, behind, hes, hdeclare, -⟩ := (h.kept_iff hu).mp hv
  have hmem : Event.declare v ∈ events.go c.machines c.splitAll cs :=
    hes ▸ mem_append_left _ hdeclare
  obtain ⟨p, hp, hev⟩ := gathers_events.mem.mp hmem
  exact ⟨p, hp, declare_mem_declared hev⟩

/-- The variables that are kept are those that were given to the machine. -/
theorem keptOf_add {ms' : Machines} {name : Option String} {dispatch : NodeId} {kept : List NodeId}
    (hd : f.child? .declaration = some d) (h : ms.add d.id name dispatch main kept = .ok ms') :
    keptOf f ms' = kept := by
  obtain ⟨struct, hnew, rfl⟩ := add_inv h
  have hold : ∀ m ∈ ms.list, d.id ≠ m.function := by
    intro m hm heq
    have hstates : ms.hasStates (some d.id) = true :=
      any_eq_true.mpr ⟨m, hm, by simp [heq]⟩
    rw [hnew] at hstates
    cases hstates
  simpa [keptOf, hd] using fun m hm heq => absurd heq (hold m hm)

/-! ### Where the variables are declared -/

theorem id_mem_of_declared (h : v ∈ t.declared) : v ∈ t.ids := by
  obtain ⟨s, hs, -, rfl⟩ := mem_declared.mp h
  exact id_mem_ids hs

/-- The parameters are part of the declaration. -/
theorem mem_parametersOf (hd : f.child? .declaration = some d) (hv : v ∈ parametersOf f) :
    v ∈ d.ids := by
  unfold parametersOf parameters at hv
  simp only [Tree.child, hd, bind, Except.bind] at hv
  cases hl : d.child? .parameters with
  | none =>
    simp only [hl] at hv
    cases hv
  | some l =>
    simp only [hl] at hv
    obtain ⟨t, ht, rfl⟩ := mem_map.mp hv
    obtain ⟨n, cs⟩ := d
    have hlist : l ∈ (mk n cs).subtrees := mem_subtrees_child (t := mk n cs) (mem_of_lookup hl)
    exact id_mem_ids (mem_subtrees_trans (mem_subtrees_child (mem_inRole.mp ht)) hlist)

theorem prologueOf_eq (hf : f.child? .body = some (.mk b cs))
    (hskip : prologue (cs.map (·.2)) = .ok skip) : prologueOf f = (cs.take skip).map (·.2) := by
  rw [prologueOf, hf]
  simp only [Tree.children, hskip]
  rfl

/-- A variable that is declared behind the prologue is neither a parameter nor one of the
prologue. -/
theorem behind_prologue (hids : f.ids.Nodup) (hf : f.child? .body = some (.mk b cs))
    (hd : f.child? .declaration = some d) {q : Role × Tree} (hq : q ∈ cs.drop skip)
    (hv : v ∈ q.2.ids) : v ∉ parametersOf f ∧ v ∉ (cs.take skip).map (·.2.id) := by
  obtain ⟨n, fs⟩ := f
  have hbody : (Role.body, mk b cs) ∈ fs := mem_of_lookup hf
  constructor
  · -- The declaration of the function and its body share no node.
    intro hp
    have hvb : v ∈ (mk b cs).ids :=
      ids_subset (mem_subtrees_child (t := mk b cs) (mem_of_mem_drop hq)) hv
    cases child_eq_of_mem hids (mem_of_lookup hd) hbody (mem_parametersOf hd hp) hvb
  · intro hpro
    obtain ⟨p, hp, rfl⟩ := mem_map.mp hpro
    have hnodup : (ids.go cs).Nodup :=
      (nodup_subtree hids (mem_subtrees_child (t := mk n fs) hbody)).of_cons
    rw [ids_go_eq_flatMap, ← take_append_drop skip cs, flatMap_append] at hnodup
    exact (nodup_append'.mp hnodup).2.2
      (mem_flatMap.mpr ⟨p, hp, id_mem_ids (mem_subtrees_self _)⟩)
      (mem_flatMap.mpr ⟨q, hq, hv⟩)

/-- The body that is made for a function has an entrance. -/
theorem hasEntrance_body {first : Node} {tail : Children} {m : Node}
    (hf : f.child? .body = some (.mk b cs)) (hb : b.kind = .statementList)
    (hu : (Tree.mk b cs).uncut = true) (hskip : prologue (cs.map (·.2)) = .ok skip)
    (hfirst : FirstNode f main first) (hdispatch : m.kind = .machine) (hg : Renames g)
    (hp : p.body = .mk (g b) (mapNodes.go g (entrance first m skip cs) ++ tail)) :
    p.HasEntrance ((prologueOf f).map (mapNodes g)) ((mk m []).mapNodes g) tail := by
  refine ⟨?_, ⟨(mk first []).mapNodes g, mapNodes.go g (cs.take skip), ?_, ?_, ?_⟩, ?_, ?_⟩
  · rw [hp]
    exact (hg.kind b).trans hb
  · rw [hp, Tree.children]
    simp [entrance, mapNodes.go]
  · rw [prologueOf_eq hf hskip, mapNodes_go_eq_map, map_map, map_map]
    rfl
  · rw [hg.kind_mapNodes]
    cases hfirst with
    | handler | few => exact Or.inl rfl
    | sub => exact Or.inr rfl
  · intro t ht
    rw [prologueOf_eq hf hskip] at ht
    obtain ⟨s, hs, rfl⟩ := mem_map.mp ht
    obtain ⟨q, hq, rfl⟩ := mem_map.mp hs
    rw [hg.kind_mapNodes]
    -- A prologue consists of declarations.
    exact (namesCast_of_prologue hu hskip q hq).1
  · rw [hg.kind_mapNodes]
    exact hdispatch

/-- The body of a function with states has an entrance, with the prologue of the function that was
cut. -/
theorem CutsBody.hasEntrance (h : CutsBody c f body c') (hcut : body.isCut = true)
    (hp : p.body = body) :
    ∃ g dispatch tail, Renames g ∧
      p.HasEntrance ((prologueOf f).map (mapNodes g)) dispatch tail := by
  cases h with
  | uncut h =>
    rw [not_isCut_of_marks h] at hcut
    cases hcut
  | @machine c₁ _ main b first d cs rest last skip o g hf hd hb hu hskip h hfirst hg hm hlast =>
    refine ⟨g, _, mapNodes.go g rest ++ last, hg, hasEntrance_body hf hb hu hskip hfirst
      (m := dispatchNode c₁.log.nextId o c₁.states main) rfl hg ?_⟩
    rw [hp, mapNodes_go_append, append_assoc]

/-- Neither parameters nor variables of the prologue are kept. -/
theorem CutsBody.not_kept (h : CutsBody c f body c') (hcut : body.isCut = true) (hids : f.ids.Nodup)
    (hv : v ∈ parametersOf f ∨ v ∈ (prologueOf f).map (·.id)) : v ∉ keptOf f c'.machines := by
  cases h with
  | uncut h =>
    rw [not_isCut_of_marks h] at hcut
    cases hcut
  | @machine c₁ _ main b first d cs rest last skip o g hf hd hb hu hskip h hfirst hg hm hlast =>
    rw [keptOf_add hd hm]
    intro hkept
    have huncut : ∀ p ∈ cs.drop skip, p.2.uncut = true := fun p hp =>
      uncut_child hu (mem_of_mem_drop hp)
    obtain ⟨q, hq, hdecl⟩ := declared_of_kept h huncut hkept
    obtain ⟨hparam, hpro⟩ := behind_prologue hids hf hd hq (id_mem_of_declared hdecl)
    rw [prologueOf_eq hf hskip, map_map] at hv
    exact hv.elim hparam hpro

/-- A function with states keeps neither its parameters nor the variables of its prologue. In every
state of every run, a parameter that was not set since the function was called last has the value
that was passed with this call. Behind the prologue, a variable of the prologue that was not set
since then has the value that the prologue computed in this call. What was set keeps its value until
the function is left, and no longer. -/
theorem definition_passes_again {f body : Tree} {c : Cutter} (hu : f.uncut = true)
    (hk : f.kind = .functionDefinition) (hids : f.ids.Nodup)
    (hf : (definition f c).2.fault = none)
    (hb : (definition f c).1.child? .body = some body) (hcut : body.isCut = true) :
    (∀ v, v ∈ parametersOf f ∨ v ∈ (prologueOf f).map (·.id) → v ∉ (programOf f c).moved) ∧
      ∀ (L : Language) (env : Environment L) (w : L.World),
        (∀ c₁ d vs, (programOf f c).Stays env c₁ vs d →
          ∀ v, v ∉ vs → d.store.cells v = c₁.store.cells v) ∧
        (∀ n d, (programOf f c).Steps env n ((programOf f c).start env w) d →
          ∃ e us, (programOf f c).Begins env w e ∧ (programOf f c).Stays env e us d) ∧
        ∀ e us d, (programOf f c).Begins env w e → (programOf f c).Stays env e us d →
          (∀ v ∈ parametersOf f, v ∉ us → d.store.cells v = env.outside v) ∧
            ((∃ done, done <+: prologueOf f ∧
                (programOf f c).bindAll done e.store = some ((), d.store)) ∨
              ∃ g vs, (programOf f c).bindAll (prologueOf f) e.store = some ((), g.store) ∧
                (programOf f c).Stays env g vs d) := by
  have hbody : (programOf f c).body = body := by
    rw [programOf, bodyOf, hb]
    rfl
  have hcuts := cutsBody_of_definition hu hk hf hb
  have hkept : ∀ v, v ∈ parametersOf f ∨ v ∈ (prologueOf f).map (·.id) →
      v ∉ (programOf f c).moved := fun v hv => hcuts.not_kept hcut hids hv
  refine ⟨hkept, fun L env w => ⟨fun c₁ d vs h v hv => h.cells hv,
    fun n d hd => Program.Begins.reaches hd, fun e us d he hus => ?_⟩⟩
  obtain ⟨hwork, hfound⟩ := he.opened
  refine ⟨fun v hv hset => ?_, ?_⟩
  · -- A parameter is passed with the call, and nothing has set it since.
    rw [hus.cells hset, hfound v (hkept v (Or.inl hv))]
    exact if_pos hv
  · obtain ⟨g, dispatch, tail, hg, hent⟩ := hcuts.hasEntrance hcut hbody
    rcases hent.opens hwork hus with hin | ⟨s, vs, hs, hvs⟩
    · obtain ⟨done, hdone, hs⟩ := hin.bound
      obtain ⟨xs, hxs, rfl⟩ := List.prefix_map_iff.mp hdone
      rw [Program.bindAll_map hg] at hs
      exact Or.inl ⟨xs, hxs, hs⟩
    · rw [Program.bindAll_map hg] at hs
      exact Or.inr ⟨_, vs, hs, hvs⟩

end Cutting

namespace Sample

/-- The handler of the example, which gives its last parameter another name, sets both to zero, and
passes them to a function after it slept. -/
def assigning : Tree :=
  handler.mapRole .body fun _ =>
    .mk (node 19 .statementList) [
      (.statements, .mk ((node 20 .variableDeclaration).named "x") [(.declaredType, type 21),
        (.initializer, .mk (node 22 .cast) [(.castType, type 23),
          (.expression, used 24 17 "fb")])]),
      (.statements, assigned 25 17 "fb"),
      (.statements, assigned 29 20 "x"),
      (.statements, .mk (node 33 .callStatement) [
        (.expression, call 34 50 35 "papi_sleep" true [zero 36])]),
      (.statements, .mk (node 37 .callStatement) [
        (.expression, call 38 51 39 "get" false [used 44 17 "fb", used 45 20 "x"])]),
      (.statements, .mk (node 46 .returnStatement) [(.expression, zero 47)])]
where
  assigned (id v : NodeId) (name : String) : Tree :=
    .mk (node id .expressionStatement) [(.expression, .mk (node (id + 1) .assignment) [
      (.left, used (id + 2) v name), (.right, zero (id + 3))])]

end Sample

namespace Cutting

/-- In the example neither the parameter nor its other name is kept. When the handler is called
again after it slept, it does not set the parameter once more. It has the value that is passed when
the function got its arguments, and the prologue was carried out in this call. -/
theorem assigning_passes_again :
    let f := Sample.assigning
    let p := programOf f (Sample.cutter false)
    f.uncut = true ∧ f.ids.Nodup ∧ p.body.isCut = true ∧ 17 ∈ parametersOf f ∧
      20 ∈ (prologueOf f).map (·.id) ∧ 17 ∉ p.moved ∧ 20 ∉ p.moved ∧
      ∃ e us d, p.Begins Sample.environment () e ∧ e.entries = 1 ∧
        p.Stays Sample.environment e us d ∧ 17 ∉ us ∧ d.store.calls.length = 2 ∧
        d.store.cells 17 = (7 : Int) ∧
        ∃ g vs, p.bindAll (prologueOf f) e.store = some ((), g.store) ∧
          p.Stays Sample.environment g vs d := by
  intro f p
  have hparam : 17 ∈ parametersOf f := by decide +kernel
  have hpro : 20 ∈ (prologueOf f).map (·.id) := by decide +kernel
  obtain ⟨hkept, hruns⟩ := definition_passes_again (f := f) (c := Sample.cutter false)
    (by decide +kernel) rfl (by decide +kernel) (by decide +kernel)
    (bodyOf_eq (by decide +kernel)) (by decide +kernel)
  -- Six steps lead to the sleep, the next one into the second call, six more behind the function.
  have hrun : (p.after Sample.environment 6 (p.start Sample.environment ())).any (fun c =>
      (p.after Sample.environment 1 c).any fun e =>
        (p.stay Sample.environment e 6).any fun r =>
          c.entries == 0 && e.entries == 1 && !r.1.contains 17 && r.2.store.calls.length == 2 &&
            (prologueOf f).inits.all fun done =>
              (p.bindAll done e.store).all fun q => q.2.calls.length == 1) = true := by
    decide +kernel
  obtain ⟨c, hc, hrun⟩ := (Option.any_eq_true _ _).mp hrun
  obtain ⟨e, he, hrun⟩ := (Option.any_eq_true _ _).mp hrun
  obtain ⟨⟨us, d⟩, hd, hrun⟩ := (Option.any_eq_true _ _).mp hrun
  simp only [Bool.and_eq_true, beq_iff_eq, Bool.not_eq_true', List.contains_eq_mem,
    decide_eq_false_iff_not, List.all_eq_true, List.mem_inits] at hrun
  obtain ⟨⟨⟨⟨hfirst, hsecond⟩, hset⟩, hcalls⟩, hbefore⟩ := hrun
  have hstep : p.step Sample.environment c = some (.goes e) := by
    cases Program.steps_of_after he with
    | step hs hrest =>
      cases hrest
      exact hs
  have hbegins : p.Begins Sample.environment () e :=
    .again (Program.steps_of_after hc) hstep (by rw [hfirst, hsecond]; decide)
  have hstays := Program.stays_of_stay hd
  obtain ⟨hpassed, hentered⟩ := (hruns Sample.numbers Sample.environment ()).2.2 e us d hbegins
    hstays
  refine ⟨by decide +kernel, by decide +kernel, by decide +kernel, hparam, hpro,
    hkept 17 (Or.inl hparam), hkept 20 (Or.inr hpro), e, us, d, hbegins, hsecond, hstays, hset,
    hcalls, hpassed 17 hparam hset, ?_⟩
  rcases hentered with ⟨done, hdone, hbound⟩ | hbehind
  · -- Nothing is called in the prologue, so the function is not within it any more.
    have hone := hbefore done hdone
    rw [hbound, Option.all_some, beq_iff_eq] at hone
    exact absurd (hone.symm.trans hcalls) (by decide)
  · exact hbehind

/-- The handler passes zeros to the function if it is not cut. After it was cut, it passes what its
caller passes. -/
theorem assigned_parameter_lost :
    let f := Sample.assigning
    let c := Sample.cutter false
    f.uncut = true ∧ (definition f c).2.fault = none ∧
      (sourceOf f c).Finishes Sample.environment ((sourceOf f c).start Sample.environment ())
        ([.sleep (0 : Int), .function 51 [(0 : Int), (0 : Int)]], some (0 : Int)) ∧
      (programOf f c).Finishes Sample.environment ((programOf f c).start Sample.environment ())
        ([.sleep (0 : Int), .function 51 [(7 : Int), (7 : Int)]], some (0 : Int)) := by
  refine ⟨by decide +kernel, by decide +kernel, ?_, ?_⟩
  · exact Program.finishes_of_outcome (n := 30) (by decide +kernel)
  · exact Program.finishes_of_outcome (n := 30) (by decide +kernel)

end Cutting

end Resumable
