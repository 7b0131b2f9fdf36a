import Resumable.Proofs.Walk.Visit

/-!
# Walks through functions

A function is cut in three steps: what comes before the walk, the walk through the statements
behind the prologue, and the completion of a body in which states were found.

* `Cutting.cutsFunction_of_function`: a function is rejected, has no states, or gets a machine.
* `Cutting.cutsDefinition_of_definition`: which of the functions of a program are visited.
-/

namespace Resumable.Cutting

open List Resumable.Tree

variable {c c' : Cutter} {f t body d f' : Tree} {main : Bool} {skip : Nat} {o : Origin} {b : Node}
  {cs rest : Children} {x : Unit} {ss : List Tree} {dispatch : NodeId} {name : Option String}

instance : LawfulLog Cutter := ⟨fun _ _ => rfl, fun _ => rfl, fun _ _ _ => rfl⟩

/-! ## Before the walk -/

/-- A statement of the prologue gives a name to a cast variable. -/
def NamesCast (s : Tree) : Prop :=
  s.kind = .variableDeclaration ∧ ∃ e x, s.child? .initializer = some e ∧ e.kind = .cast ∧
    e.child? .expression = some x ∧ x.kind = .variableUse

/-- The prologue ends before a statement, or the statement is part of it. -/
theorem prologue_cons {s : Tree} {rest : List Tree} (h : prologue (s :: rest) = .ok skip) :
    skip = 0 ∨ ∃ k, skip = k + 1 ∧ prologue rest = .ok k ∧ (s.kind = .mainFirst ∨ NamesCast s) := by
  have hmore : (prologue rest >>= fun k => pure (k + 1)) = .ok skip →
      ∃ k, skip = k + 1 ∧ prologue rest = .ok k := by
    intro h
    cases hr : prologue rest with
    | error e =>
      rw [hr] at h
      cases h
    | ok k =>
      rw [hr] at h
      cases h
      exact ⟨k, rfl, rfl⟩
  have hnone : (pure 0 : Except Fault Nat) = .ok skip → skip = 0 := by
    intro h
    cases h
    rfl
  -- The statement must be a declaration, with an initializer, which is a cast of a variable.
  rw [prologue] at h
  split at h
  · next hk =>
    obtain ⟨k, hskip, hr⟩ := hmore h
    exact Or.inr ⟨k, hskip, hr, Or.inl hk⟩
  split at h
  · exact Or.inl (hnone h)
  next hk =>
  split at h
  · exact Or.inl (hnone h)
  next e he =>
  split at h
  · exact Or.inl (hnone h)
  next hc =>
  cases hx : e.child? .expression with
  | none =>
    simp only [child, hx] at h
    cases h
  | some x =>
    simp only [child, hx, bind, Except.bind] at h
    split at h
    · exact Or.inl (hnone h)
    next hu =>
    obtain ⟨k, hskip, hr⟩ := hmore h
    exact Or.inr ⟨k, hskip, hr, Or.inr ⟨not_not.mp hk, e, x, he, not_not.mp hc, hx,
      not_not.mp hu⟩⟩

theorem prologue_le (h : prologue ss = .ok skip) : skip ≤ ss.length := by
  induction ss generalizing skip with
  | nil =>
    cases h
    exact Nat.le_refl _
  | cons s rest ih =>
    rcases prologue_cons h with rfl | ⟨k, rfl, hr, -⟩
    · exact Nat.zero_le _
    · exact Nat.succ_le_succ (ih hr)

theorem prologue_mem (h : prologue ss = .ok skip) :
    ∀ s ∈ ss.take skip, s.kind = .mainFirst ∨ NamesCast s := by
  induction ss generalizing skip with
  | nil => simp
  | cons s rest ih =>
    rcases prologue_cons h with rfl | ⟨k, rfl, hr, hs⟩
    · simp
    · exact forall_mem_cons.mpr ⟨hs, ih hr⟩

/-- Before cutting, all statements of a prologue are casts that get a name. -/
theorem namesCast_of_prologue (hu : (Tree.mk b cs).uncut = true)
    (h : prologue (cs.map (·.2)) = .ok skip) : ∀ p ∈ cs.take skip, NamesCast p.2 := by
  intro p hp
  have hup : p.2.uncut = true := uncut_child hu (mem_of_mem_take hp)
  have hmem : p.2 ∈ (cs.map (·.2)).take skip := by
    rw [← map_take]
    exact mem_map_of_mem hp
  obtain ⟨r, n, ds⟩ := p
  rcases prologue_mem h _ hmem with hk | hk
  · -- The set-up is put in by cutting only.
    have hplain := uncut_inserted hup
    rw [show n.kind = .mainFirst from hk] at hplain
    cases hplain
  · exact hk

/-- A handler whose end control could come to is rejected. In all other functions the prologue is
found. -/
theorem start_inv {r : Option (Tree × Nat × Origin)} (hb : f.child? .body = some body) (h : (do
      let body ← f.child .body
      if main && !(← body.closed) then
        reportError body.origin "Missing 'return' statement"
        return none
      let skip ← prologue (body.inRole .statements)
      return some (body, skip, ← machinePlace body skip) :
        Step Cutter (Option (Tree × Nat × Origin))) c = .ok r c') :
    (r = none ∧ main = true ∧ body.closed = .ok false ∧ c'.log.failed = true) ∨
      ∃ skip o, r = some (body, skip, o) ∧ prologue (body.inRole .statements) = .ok skip ∧
        (main = true → body.closed = .ok true) ∧ c' = c := by
  simp only [child, hb] at h
  obtain ⟨body', c₁, hbody, h⟩ := Step.bind_inv h
  cases hbody
  obtain ⟨closed, c₂, hc, hrest⟩ := Step.bind_inv h
  obtain ⟨hclosed, rfl⟩ := Step.lift_inv hc
  split at hrest
  · -- Control may reach the end of the main function: an error, and nothing is cut.
    next hopen =>
    obtain ⟨x, c₃, hr, hret⟩ := Step.bind_inv hrest
    cases hret
    simp only [Bool.and_eq_true, Bool.not_eq_true'] at hopen
    exact Or.inl ⟨rfl, hopen.1, hopen.2 ▸ hclosed, (Step.reportError_inv hr).2⟩
  · next hend =>
    obtain ⟨skip, c₃, hs, hplace⟩ := Step.bind_inv hrest
    obtain ⟨hskip, rfl⟩ := Step.lift_inv hs
    obtain ⟨o, c₄, ho, hret⟩ := Step.bind_inv hplace
    obtain ⟨-, rfl⟩ := Step.lift_inv ho
    cases hret
    refine Or.inr ⟨skip, o, rfl, hskip, ?_, rfl⟩
    rintro rfl
    cases closed with
    | true => exact hclosed
    | false => exact absurd rfl hend

/-! ## Completion -/

theorem mainFirst_inv (h : mainFirst f o c = .ok t c') :
    ∃ l first, c' = { c with log := l } ∧ c.log.Clean l {first.id} ∧ FirstNode f true first ∧
      t = .mk first [] := by
  unfold mainFirst at h
  obtain ⟨n, c₁, hn, h⟩ := Step.bind_inv h
  cases hn
  obtain ⟨params, c₂, hp, hrest⟩ := Step.bind_inv h
  obtain ⟨hparams, rfl⟩ := Step.lift_inv hp
  split at hrest
  · obtain ⟨s, c₃, hs, htext⟩ := Step.bind_inv hrest
    obtain ⟨hstate, rfl⟩ := Step.lift_inv hs
    obtain ⟨w, c₄, hw, hret⟩ := Step.bind_inv htext
    obtain ⟨hwait, rfl⟩ := Step.lift_inv hw
    cases hret
    exact ⟨_, _, rfl, .next _, .handler hparams hstate hwait, rfl⟩
  · obtain ⟨x, c₃, hr, hret⟩ := Step.bind_inv hrest
    obtain ⟨hset, hfailed⟩ := Step.reportError_inv hr
    cases hret
    exact ⟨_, _, hset, .of_failed hfailed, .few, rfl⟩

theorem firstNode_inv
    (h : (if main = true then mainFirst f o else return .mk (← newNode .subFirst o) [] :
      Step Cutter Tree) c = .ok t c') :
    ∃ l first, c' = { c with log := l } ∧ c.log.Clean l {first.id} ∧ FirstNode f main first ∧
      t = .mk first [] := by
  cases main with
  | true => exact mainFirst_inv h
  | false =>
    cases h
    exact ⟨_, _, rfl, .next _, .sub, rfl⟩

theorem add_inv {ms ms' : Machines} {function : NodeId} {kept : List NodeId}
    (h : ms.add function name dispatch main kept = .ok ms') :
    ∃ struct, ms.hasStates (some function) = false ∧
      ms' = ⟨ms.names, ms.list ++ [⟨function, dispatch, kept, struct, main⟩]⟩ := by
  unfold Machines.add at h
  cases hn : ms.nextStruct name with
  | error e =>
    rw [hn] at h
    cases h
  | ok struct =>
    rw [hn] at h
    by_cases hs : ms.hasStates (some function) = true
    · simp only [hs] at h
      cases h
    · simp only [hs] at h
      cases h
      exact ⟨struct, Bool.eq_false_iff.mpr hs, rfl⟩

theorem addMachine_inv (hd : f.child? .declaration = some d)
    (h : addMachine f dispatch main c = .ok x c') :
    c.machines.add d.id d.node.name? dispatch main c.persistence.kept = .ok c'.machines ∧
      c'.log = c.log := by
  unfold addMachine at h
  simp only [child, hd] at h
  obtain ⟨d', c₁, hd', h⟩ := Step.bind_inv h
  cases hd'
  obtain ⟨c₀, c₂, hget, h⟩ := Step.bind_inv h
  cases hget
  obtain ⟨ms, c₃, hms, h⟩ := Step.bind_inv h
  obtain ⟨hadd, rfl⟩ := Step.lift_inv hms
  cases h
  exact ⟨hadd, rfl⟩

theorem checkReturnType_inv (h : checkReturnType f c = .ok x c') :
    ∃ l, c' = { c with log := l } ∧ c.log.Clean l 0 := by
  unfold checkReturnType at h
  obtain ⟨d, c₁, hd, htype⟩ := Step.bind_inv h
  obtain ⟨-, rfl⟩ := Step.lift_inv hd
  obtain ⟨type, c₂, ht, hrest⟩ := Step.bind_inv htype
  obtain ⟨-, rfl⟩ := Step.lift_inv ht
  obtain ⟨c₀, c₃, hget, hcheck⟩ := Step.bind_inv hrest
  cases hget
  dsimp only at hcheck
  split at hcheck
  · cases hcheck
    exact ⟨_, rfl, .refl _⟩
  · obtain ⟨hset, hfailed⟩ := Step.reportError_inv hcheck
    exact ⟨_, hset, .of_failed hfailed⟩

/-- A function gets a reset at its end if control can come there. -/
theorem lastNodes_inv {last : Children} (h : (do
      checkReturnType f
      if ← body.closed then return []
      let o ← endOf body.origin
      return [(Role.statements, Tree.mk (← newNode .beforeReturn o) [])] :
        Step Cutter Children) c = .ok last c') :
    c'.machines = c.machines ∧ c.log.Clean c'.log (under last) ∧
      ∀ source, LastNodes source body false last := by
  obtain ⟨x, c₁, hcheck, h⟩ := Step.bind_inv h
  obtain ⟨l, rfl, hclean⟩ := checkReturnType_inv hcheck
  obtain ⟨b, c₂, hb, hrest⟩ := Step.bind_inv h
  obtain ⟨hclosed, rfl⟩ := Step.lift_inv hb
  -- A body whose end is never reached needs no reset there.
  cases b with
  | true =>
    cases hrest
    exact ⟨rfl, hclean, fun _ => .none hclosed⟩
  | false =>
    obtain ⟨o, c₃, ho, hnode⟩ := Step.bind_inv hrest
    obtain ⟨-, rfl⟩ := Step.lift_inv ho
    cases hnode
    refine ⟨rfl, ?_, fun _ => .reset⟩
    rw [under_cons, bag_mk, under_nil, add_zero, add_zero, ← zero_add {_}]
    exact hclean.trans (.next l)

theorem insertAt_dispatch {first dispatch : Node} (hskip : (cs.take skip).length = skip) :
    ((Tree.mk b (cs.take skip ++ rest)).insertAt skip .statements (.mk dispatch [])).insertAt 0
      .statements (.mk first []) = .mk b (withDispatch first dispatch skip cs rest) := by
  simp [Tree.insertAt, withDispatch, Tree.node, Tree.children, take_append, drop_append,
    hskip]

/-- How a function with states is finished: its variables get their names, its machine is added, and
a reset is put at the end of all functions but the handler. -/
theorem finish_inv {source : Tree} {m : NodeId} (hd : f.child? .declaration = some d)
    (hc : main = true → source.closed = .ok true) (h : (do
      let (names, clash) := keptNames (← get) body
      let body := rename names body
      let added ← attempt do
        match clash with
        | some fault => throw fault
        | none => addMachine f m main
      if added.isNone || main then return body
      let last ← attempt do
        checkReturnType f
        if ← body.closed then return []
        let o ← endOf body.origin
        return [(Role.statements, Tree.mk (← newNode .beforeReturn o) [])]
      return .mk body.node (body.children ++ last.getD []) : Cutting Tree) c = (t, c'))
    (hf : c'.fault = none) :
    ∃ names last, keptNames c body = (names, none) ∧
      c.machines.add d.id d.node.name? m main c.persistence.kept = .ok c'.machines ∧
      LastNodes source (rename names body) main last ∧ c.log.Clean c'.log (under last) ∧
      t = .mk (rename names body).node ((rename names body).children ++ last) := by
  obtain ⟨c₀, c₁, hget, h⟩ := bind_inv h
  cases hget
  generalize hk : keptNames c body = kept at h
  obtain ⟨names, clash⟩ := kept
  dsimp only at h
  obtain ⟨added, c₁, ha, h⟩ := bind_inv h
  -- The machine is added only if no two names clash.
  have hadded : ∀ {x}, added = some x → clash = none ∧
      c.machines.add d.id d.node.name? m main c.persistence.kept = .ok c₁.machines ∧
        c₁.log = c.log := by
    rintro x rfl
    obtain ⟨_, -, -, ha⟩ | ⟨⟨⟩, -⟩ := attempt_cases ha
    cases clash with
    | some fault => cases ha
    | none => exact ⟨rfl, addMachine_inv hd ha⟩
  rcases ite_inv h with ⟨hend, h⟩ | ⟨hgo, h⟩
  · -- The handler ends here. It has no end that control comes to.
    cases h
    obtain ⟨x, rfl, -⟩ := fault_of_attempt ha hf
    obtain ⟨rfl, hm, hlog⟩ := hadded rfl
    obtain rfl : main = true := hend
    refine ⟨names, [], rfl, hm, .none (hc rfl), hlog ▸ .refl _, ?_⟩
    rw [append_nil]
    cases rename names body
    rfl
  · obtain ⟨last, c₂, hl, h⟩ := bind_inv h
    cases h
    obtain ⟨last, rfl, -, hl⟩ := fault_of_attempt hl hf
    obtain ⟨hm, hclean, hlast⟩ := lastNodes_inv hl
    simp only [Bool.or_eq_false_iff] at hgo
    obtain ⟨x, rfl⟩ := Option.isSome_iff_exists.mp (Option.isNone_eq_false_iff.mp hgo.1)
    obtain ⟨rfl, hadd, hlog⟩ := hadded rfl
    exact ⟨names, last, rfl, hm ▸ hadd, hgo.2 ▸ hlast source, hlog ▸ hclean, rfl⟩

/-- How the body of a function with states is completed, with all the nodes that are put in. -/
theorem complete_inv (hd : f.child? .declaration = some d) (hskip : (cs.take skip).length = skip)
    (hc : main = true → (Tree.mk b cs).closed = .ok true)
    (h : complete main f skip o (.mk b (cs.take skip ++ rest)) c = (t, c')) (hf : c'.fault = none) :
    ∃ first names last, c.fault = none ∧ FirstNode f main first ∧
      keptNames c (.mk b (withDispatch first (dispatchNode c.log.nextId o c.states main) skip cs
        rest)) = (names, none) ∧
      c.machines.add d.id d.node.name? c.log.nextId main c.persistence.kept = .ok c'.machines ∧
      LastNodes (.mk b cs) (rename names (.mk b (withDispatch first
        (dispatchNode c.log.nextId o c.states main) skip cs rest))) main last ∧
      c.log.Clean c'.log ({c.log.nextId} + {first.id} + under last) ∧
      t = .mk (rename names (.mk b [])).node ((rename names (.mk b (withDispatch first
        (dispatchNode c.log.nextId o c.states main) skip cs rest))).children ++ last) := by
  unfold complete at h
  obtain ⟨c₀, c₁, hget, h⟩ := bind_inv h
  cases hget
  obtain ⟨m, c₁, hfault, hm, h⟩ := attempted_inv h (fun _ => rfl) hf
  cases hm
  obtain ⟨first, c₂, -, hfirst, h⟩ := attempted_inv h (fun _ => rfl) hf
  obtain ⟨l, first, rfl, hclean, hnode, rfl⟩ := firstNode_inv hfirst
  obtain ⟨names, last, hk, hadd, hlast, hclean', rfl⟩ := finish_inv hd hc h hf
  rw [insertAt_dispatch hskip] at hk hlast ⊢
  exact ⟨first, names, last, hfault, hnode, hk, hadd, hlast,
    ((Log.Clean.next c.log).trans hclean).trans hclean', rfl⟩

/-! ## Functions -/

/-- A function is cut without a fault: it is rejected, it has no states, or it gets a machine. -/
theorem cutsFunction_of_function (hu : f.uncut = true) (hk : f.kind = .functionDefinition)
    (h : function main f c = (f', c')) (hf : c'.fault = none) : CutsFunction main c f f' c' := by
  obtain ⟨n, ds⟩ := f
  obtain ⟨d, b, cs, rfl, hb⟩ := uncut_function hu hk
  have hub : (Tree.mk b cs).uncut = true :=
    uncut_child hu (mem_cons_of_mem _ mem_cons_self)
  unfold function at h
  obtain ⟨start, c₁, -, hstart, hrun⟩ := attempted_inv h (fun _ => rfl) hf
  clear h
  rcases start_inv rfl hstart with ⟨rfl, hmain, hopen, hfailed⟩ |
    ⟨skip, o, rfl, hskip, hclosed, rfl⟩
  · cases hrun
    exact .rejected hmain rfl hopen hfailed
  rw [inRole_statements hub hb] at hskip
  obtain ⟨x, c₂, hset, hrun⟩ := bind_inv hrun
  cases hset
  obtain ⟨body, c₃, hbody, hrun⟩ := bind_inv hrun
  obtain ⟨rest, c₄, hrest, hbody⟩ := bind_inv hbody
  cases hbody
  -- The statements behind the prologue are visited with a new count of states.
  have hcuts : c₃.fault = none →
      CutsStatements { c₁ with states := 0, persistence := {} } (cs.drop skip) rest c₃ :=
    cutsStatements_of_statements (fun p hp => uncut_child hub (mem_of_mem_drop hp))
      (fun p hp => (uncut_block hub hb p (mem_of_mem_drop hp)).2) hrest
  obtain ⟨c₀, c₅, hget, hrun⟩ := bind_inv hrun
  cases hget
  by_cases hs : c₃.states = 0
  · simp only [if_pos hs] at hrun
    cases hrun
    exact .stateless hb hskip (hcuts hf) hs hclosed
  · simp only [if_neg hs] at hrun
    obtain ⟨body, c₆, hbody, hrun⟩ := bind_inv hrun
    cases hrun
    -- The prologue is no longer than the body.
    have hlen : (cs.take skip).length = skip := by
      have := prologue_le hskip
      rw [length_map] at this
      rw [length_take]
      omega
    obtain ⟨first, names, last, hf₃, hfirst, hnames, hadd, hlast, hclean, rfl⟩ :=
      complete_inv rfl hlen hclosed hbody hf
    exact .machine hb hskip (hcuts hf₃) hs hfirst hnames hadd hlast hclosed hclean

theorem initFirst_inv (h : initFirst f body c = .ok t c') :
    ∃ l first, c' = { c with log := l } ∧ c.log.Clean l {first.id} ∧ InitNode f first ∧
      t = .mk first [] := by
  unfold initFirst at h
  obtain ⟨o, c₁, ho, hmake⟩ := Step.bind_inv h
  obtain ⟨-, rfl⟩ := Step.lift_inv ho
  obtain ⟨n, c₂, hn, hread⟩ := Step.bind_inv hmake
  cases hn
  obtain ⟨params, c₃, hp, hrest⟩ := Step.bind_inv hread
  obtain ⟨hparams, rfl⟩ := Step.lift_inv hp
  split at hrest
  · obtain ⟨s, c₄, hs, hret⟩ := Step.bind_inv hrest
    obtain ⟨hstate, rfl⟩ := Step.lift_inv hs
    cases hret
    exact ⟨_, _, rfl, .next _, .state hparams hstate, rfl⟩
  · obtain ⟨x, c₄, hr, hret⟩ := Step.bind_inv hrest
    obtain ⟨hset, hfailed⟩ := Step.reportError_inv hr
    cases hret
    exact ⟨_, _, hset, .of_failed hfailed, .few, rfl⟩

theorem not_visits {names : PluginNames} (hmain : name ≠ some names.handler)
    (h : name = some names.execInit ∨ name = some names.handlerInit) :
    visits names name = false := by
  refine decide_eq_false ?_
  rintro (hname | ⟨hstart, hset⟩)
  · exact hmain hname
  · exact h.elim hstart hset

/-- A function is cut according to its name, if the plugin has one. -/
theorem cutsDefinition_of_definition (hu : f.uncut = true) (hk : f.kind = .functionDefinition)
    (h : definition f c = (f', c')) (hf : c'.fault = none) : CutsDefinition c f f' c' := by
  obtain ⟨n, ds⟩ := f
  obtain ⟨d, b, cs, rfl, hb⟩ := uncut_function hu hk
  unfold definition at h
  obtain ⟨d', c₁, -, hd, hrun⟩ := attempted_inv h (fun _ => rfl) hf
  cases hd
  obtain ⟨c₀, c₂, hget, hrun⟩ := bind_inv hrun
  cases hget
  cases hnames : c.machines.names with
  | none =>
    simp only [hnames] at hrun
    cases hrun
    exact .unnamed hnames
  | some names =>
  simp only [hnames] at hrun
  split at hrun
  · -- The handler is visited as the main function.
    next hmain =>
    have hcuts := cutsFunction_of_function hu hk hrun hf
    exact .function (by simpa [hmain] using hcuts) hnames rfl (by simp [visits, hmain])
  next hmain =>
  split at hrun
  · next hstart =>
    -- The function that starts the plugin gets a first statement.
    unfold starter at hrun
    obtain ⟨t, c₃, -, hfirst, hret⟩ := attempted_inv hrun (fun _ => rfl) hf
    obtain ⟨body, c₄, hbody, hinit⟩ := Step.bind_inv hfirst
    cases hbody
    obtain ⟨l, first, rfl, hclean, hnode, rfl⟩ := initFirst_inv hinit
    cases hret
    exact .starter hb hnode hnames (not_visits hmain (.inl hstart)) hclean
  next hstart =>
  split at hrun
  · next hset =>
    cases hrun
    exact .setUp hnames rfl (not_visits hmain (.inr hset))
  · next hset =>
    have hcuts := cutsFunction_of_function hu hk hrun hf
    exact .function (by simpa [hmain] using hcuts) hnames rfl (by simp [visits, hstart, hset])

/-! ## Names -/

theorem map_fst_distinct (names : List (NodeId × Option String)) (taken : List (Option String))
    (i : Nat) : (Persistence.distinct.go taken i names).1.map (·.1) = names.map (·.1) := by
  induction names generalizing taken i with
  | nil => rfl
  | cons p names ih =>
    obtain ⟨v, name⟩ := p
    unfold Persistence.distinct.go
    split
    · cases name with
      | none => rfl
      | some base => exact congrArg (v :: ·) (ih _ _)
    · exact congrArg (v :: ·) (ih _ _)

theorem mem_kept_of_keptNames {names : List (NodeId × Option String)} {fault : Option Fault}
    (h : keptNames c body = (names, fault)) : ∀ p ∈ names, p.1 ∈ c.persistence.kept := by
  intro p hp
  have hmem : p.1 ∈ names.map (·.1) := mem_map_of_mem hp
  have hfst := congrArg (·.1.map (·.1)) h
  rw [← hfst] at hmem
  have hids := map_fst_distinct (c.persistence.kept.map fun v =>
    (v, ((body.subtrees.map fun t => (t.id, t.node.name?)).lookup v).join)) [] 0
  rw [show (keptNames c body).1.map (·.1) = _ from hids, map_map] at hmem
  simpa using hmem

end Resumable.Cutting
