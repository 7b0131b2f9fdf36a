import Resumable.Proofs.Traces

/-!
# Calls that are taken out of expressions

A call of a function with states is taken out of its expression and put before the statement. There
it is made whenever the statement is reached, and once. In the expression it may have stood in a
place that is evaluated again in every round of a loop, or only if an operator decides so.

* `Cutting.CutsOperand.hoists`: an operand loses its calls, and the statements before it make them.
* `Cutting.Becomes.ran`: a steady statement and what is made of it have the same traces.
* `Cutting.CutsBody.ran`: so do the bodies of a function.
* `Cutting.definition_hoists`: each call is made as often as in the source.
* `Cutting.loop_condition_called_once`: for a condition of a loop this is wrong.
-/

namespace Resumable

open Act List Runs Resumable.Tree

variable {id : NodeId} {cs' : Children} {t' : Tree} {B A : Runs}

namespace Cutting

variable {c c₀ c₁ : Cutter} {t : Tree} {cs as : Children} {o stmt : Origin} {n a : Node}

variable {ms : Machines} {known : NodeId → Option Bool}

/-! ## Operands -/

/-- A bare node makes no calls. -/
theorem calls_of_bare (hu : t.uncut = true) (hk : t.kind.bare = true) : t.calls ms = [] := by
  induction t using ofChildren with
  | step n cs ih =>
    have hk : n.kind.bare = true := hk
    have hne : n.kind ≠ .call := by
      intro h
      rw [h] at hk
      cases hk
    rw [calls_of_kind hne, gathers_calls.eq_nil]
    exact fun p hp => ih p hp (uncut_child hu hp) (bare_child hu (Or.inl hk) p hp)

theorem calls_call {r : Role} (hk : n.kind = .call) (ha : a.kind = .argumentList) :
    (mk n [(r, .mk a as)]).calls ms =
      calls.go ms as ++ if ms.hasStates (n.link? .declaration) then [n.id] else [] := by
  rw [calls, calls.go, calls.go, append_nil, calls_of_kind (by rw [ha]; decide)]
  simp [hk]

/-- With a machine as argument the call is still the one call. -/
theorem evaluated_withMachine (hk : n.kind = .call) (ha : a.kind = .argumentList)
    (hm : ms.hasStates (n.link? .declaration) = true) (has : calls.go ms as = []) :
    (withMachine id (.mk n [(.argumentList, .mk a as)])).evaluated ms known = {[.call n.id]} := by
  obtain ⟨machine, hmachine, heq⟩ : ∃ machine : Tree, machine.calls ms = [] ∧
      withMachine id (.mk n [(.argumentList, .mk a as)]) =
        .mk n [(.argumentList, .mk a ((.arguments, machine) :: as))] := ⟨_, rfl, rfl⟩
  have hargs : calls.go ms [(Role.argumentList, mk a ((.arguments, machine) :: as))] = [] := by
    rw [calls.go, calls.go, append_nil, calls_of_kind (by rw [ha]; decide), calls.go, hmachine,
      has, append_nil]
  simp only [heq, evaluated, hk, all_of_silent hargs, hm, if_true, join_singleton, nil_append]

mutual

/-- What an operand puts before its statement makes its calls, and the operand makes none any
more. -/
theorem CutsOperand.hoists {stmt : Origin} {c c' : Cutter} {t t' : Tree}
    (h : CutsOperand stmt c t t' c') (hu : t.uncut = true) :
    t'.calls c.machines = [] ∧ ∃ bs, c'.before = c.before ++ bs ∧ ran.inList c.machines known
      (bs.map (Role.statements, ·)) = upon false {(t.calls c.machines).map .call} :=
  match h with
  | .bare hk => by
    refine ⟨calls_of_bare hu hk, [], (append_nil _).symm, ?_⟩
    rw [calls_of_bare hu hk]
    rfl
  | @CutsOperand.use _ _ n cs hk => by
    have hnone : ∀ {ms}, (mk n cs).calls ms = [] := by
      intro ms
      have hf := uncut_fills hu
      simp only [hk, Kind.slots] at hf
      obtain rfl := fills_nil hf
      rw [calls_of_kind (by rw [hk]; decide)]
      rfl
    exact ⟨hnone, [], (append_nil _).symm, by rw [hnone]; rfl⟩
  | .inner hk h => by
    have hne : ∀ {n : Node}, n.kind.inner = true → n.kind ≠ .call := by
      intro n hk h
      rw [h] at hk
      cases hk
    rw [calls_of_kind (hne hk), calls_of_kind (hne hk)]
    exact h.hoists fun p hp => uncut_child hu hp
  | .call hk ha h hm => by
    rw [h.later.machines] at hm
    rw [calls_call hk ha, calls_call hk ha, hm]
    simp only [Bool.false_eq_true, if_false, append_nil]
    exact h.hoists (uncut_arguments hu)
  | @CutsOperand.taken _ _ c₁ n a as as' hk ha h hm => by
    rw [h.later.machines] at hm
    obtain ⟨hnone, bs, hbs, hran⟩ := h.hoists (uncut_arguments hu)
    refine ⟨rfl, bs ++ [takenOut c₁.log.nextId stmt (c₁.states + 1)
      (.mk n [(.argumentList, .mk a as')])], ?_, ?_⟩
    · rw [← append_assoc, ← hbs]
      rfl
    · -- Its arguments have no calls any more, so the statement makes just this one.
      have htaken : (takenOut c₁.log.nextId stmt (c₁.states + 1)
          (.mk n [(.argumentList, .mk a as')])).ran c.machines known =
            upon false {[.call n.id]} := by
        rw [ran_of_plain rfl]
        change upon false (join ((withMachine c₁.log.nextId
          (.mk n [(.argumentList, .mk a as')])).evaluated c.machines known) {[]}) = _
        rw [join_nil, evaluated_withMachine hk ha hm hnone]
      rw [map_append, ran_inList_append, hran, map_singleton, ran_inList_single, htaken,
        upon_andThen, join_singleton, calls_call hk ha, hm, if_pos rfl, map_append]
      rfl

/-- The same for a list of operands. -/
theorem CutsOperands.hoists {stmt : Origin} {c c' : Cutter} {cs cs' : Children}
    (h : CutsOperands stmt c cs cs' c') (hu : ∀ p ∈ cs, p.2.uncut = true) :
    calls.go c.machines cs' = [] ∧ ∃ bs, c'.before = c.before ++ bs ∧ ran.inList c.machines known
      (bs.map (Role.statements, ·)) = upon false {(calls.go c.machines cs).map .call} :=
  match h with
  | .nil => ⟨rfl, [], (append_nil _).symm, rfl⟩
  | .cons h hs => by
    obtain ⟨hut, hu⟩ := forall_mem_cons.mp hu
    obtain ⟨hnone, bs, hbs, hran⟩ := h.hoists hut
    obtain ⟨hnone', bs', hbs', hran'⟩ := hs.hoists hu
    rw [h.later.machines] at hnone' hran'
    refine ⟨?_, bs ++ bs', ?_, ?_⟩
    · rw [calls.go, hnone, hnone', append_nil]
    · rw [hbs', hbs, append_assoc]
    · rw [map_append, ran_inList_append, hran, hran', upon_andThen, join_singleton, calls.go,
        map_append]

end

/-! ## Statements -/

/-- The row before a statement makes the calls of its operands, in their order. -/
theorem CutsOperands.row (hl : Later c₀ c) (h : CutsOperands stmt c cs cs' c₁) (hb : c.before = [])
    (hu : ∀ p ∈ cs, p.2.uncut = true) (known : NodeId → Option Bool) :
    calls.go c₀.machines cs' = [] ∧
      ran.inList c₀.machines known (c₁.before.map (Role.statements, ·)) =
        upon false {(calls.go c₀.machines cs).map .call} := by
  obtain ⟨hnone, bs, hbs, hran⟩ := h.hoists hu
  rw [hb, nil_append] at hbs
  rw [hl.machines] at hnone hran
  rw [hbs]
  exact ⟨hnone, hran⟩

theorem ran_pauses : ran.inList ms known ((pauses o c).map (Role.statements, ·)) = skip := by
  unfold pauses
  split
  · exact ran_inList_single _ _
  · rfl

theorem ran_resets : ran.inList ms known ((resets o c).map (Role.statements, ·)) = skip := by
  unfold resets
  split
  · rfl
  · exact ran_inList_single _ _

theorem ran_inSub :
    ran.inList ms known ((inSub o c t).map (Role.statements, ·)) = t.ran ms known := by
  change skip.andThen ((t.ran ms known).andThen (skip.andThen skip)) = _
  rw [skip_andThen, skip_andThen, andThen_skip]

/-- A plain statement and its row do what the statement did. -/
theorem ran_plain (hl : Later c₀ c) (h : CutsOperands stmt c cs cs' c₁) (hb : c.before = [])
    (hu : ∀ p ∈ cs, p.2.uncut = true)
    (ht : t.ran c₀.machines known = upon false {(calls.go c₀.machines cs).map .call})
    (ht' : calls.go c₀.machines cs' = [] → t'.ran c₀.machines known = skip) :
    ran.inList c₀.machines known ((c₁.before ++ t' :: pauses o c₁).map (Role.statements, ·)) =
      t.ran c₀.machines known := by
  obtain ⟨hnone, hran⟩ := h.row hl hb hu known
  rw [map_append, ran_inList_append, hran, map_cons, ran.inList, ran_pauses, andThen_skip,
    ht' hnone, andThen_skip, ht]

theorem ran_steady (hk : t.kind.plain = true) (h : t.steady ms = true) :
    t.ran ms known = upon false {(calls.go ms t.children).map .call} := by
  obtain ⟨n, cs⟩ := t
  rw [steady, Bool.and_eq_true] at h
  rw [ran_of_plain hk]
  exact congrArg (upon false) (all_eq fun p hp => evaluated_of_steady (steady_go_iff.mp h.2 p hp))

theorem ran_silent (hk : t.kind.plain = true) (h : calls.go ms t.children = []) :
    t.ran ms known = skip := by
  rw [ran_of_plain hk, all_of_silent h]
  rfl

/-- The operands of a compound statement do not count as its blocks. -/
theorem ran_parts (ms : Machines) (known : NodeId → Option Bool) {ops blocks : Children}
    (hops : ∀ p ∈ ops, p.2.kind ≠ .statementList)
    (hblocks : ∀ p ∈ blocks, p.2.kind = .statementList) :
    operandsIn (ops ++ blocks) = ops ∧
      ∀ r, ran.inPart ms known r (ops ++ blocks) = ran.inPart ms known r blocks := by
  constructor
  · rw [operandsIn, filter_append, filter_eq_self.mpr, filter_eq_nil_iff.mpr,
      append_nil]
    · intro p hp
      simp [hblocks p hp]
    · intro p hp
      simpa using hops p hp
  · intro r
    rw [ran_inPart_append, ran_inPart_of_operands hops, skip_andThen]

theorem CutsOperands.not_blocks {stmt : Origin} {c c' : Cutter} {cs cs' : Children}
    (h : CutsOperands stmt c cs cs' c') :
    (∀ p ∈ cs, p.2.kind ≠ .statementList) ∧ ∀ p ∈ cs', p.2.kind ≠ .statementList := by
  induction h using CutsOperands.row_induction with
  | nil => exact ⟨forall_mem_nil _, forall_mem_nil _⟩
  | cons h hs ih =>
    have hplain : ∀ {t : Tree}, t.kind.plain = true → t.kind ≠ .statementList := by
      intro t ht hk
      rw [hk] at ht
      cases ht
    obtain ⟨hcs, hcs'⟩ := ih
    exact ⟨forall_mem_cons.mpr ⟨hplain h.plain.1, hcs⟩,
      forall_mem_cons.mpr ⟨hplain h.plain.2, hcs'⟩⟩

theorem BecomesBlocks.blocks : ∀ {c c' : Cutter} {cs cs' : Children},
    BecomesBlocks c cs cs' c' → ∀ p ∈ cs', p.2.kind = .statementList
  | _, _, _, _, .nil, _, hp => by cases hp
  | _, _, _, _, .cons hk _ hs, p, hp => by
    rcases mem_cons.mp hp with rfl | hp
    · exact hk
    · exact hs.blocks p hp

theorem steady_child {p : Role × Tree} (h : (mk n cs).steady ms = true) (hp : p ∈ cs) :
    p.2.steady ms = true := by
  rw [steady, Bool.and_eq_true] at h
  exact steady_go_iff.mp h.2 p hp

/-- A statement with a call of a machine does what it did, behind the calls in its arguments. -/
theorem ran_inSub_row {m : Node} {as' : Children} (hl : Later c₀ c)
    (h : CutsOperands stmt c as as' c₁) (hb : c.before = []) (hu : ∀ p ∈ as, p.2.uncut = true)
    (hcall : m.kind = .call) (ha : a.kind = .argumentList)
    (hm : c₀.machines.hasStates (m.link? .declaration) = true) (ht : t.ran c₀.machines known =
      upon false {((mk m [(.argumentList, .mk a as)]).calls c₀.machines).map .call})
    (ht' : t'.ran c₀.machines known = upon false
      ((withMachine c₁.log.nextId (.mk m [(.argumentList, .mk a as')])).evaluated c₀.machines
        known)) :
    ran.inList c₀.machines known ((c₁.before ++ inSub o c₁ t').map (Role.statements, ·)) =
      t.ran c₀.machines known := by
  obtain ⟨hnone, hran⟩ := h.row hl hb hu known
  rw [map_append, ran_inList_append, hran, ran_inSub, ht',
    evaluated_withMachine hcall ha hm hnone, upon_andThen, join_singleton, ht,
    calls_call hcall ha, hm, if_pos rfl, map_append]
  rfl

/-- A loop whose condition makes no calls does what it did. -/
theorem ran_loop {c' d d' : Cutter} {ops blocks ops' blocks' : Children}
    (hk : n.kind.loops = true) (hu : (mk n (ops ++ blocks)).uncut = true)
    (hs : (mk n (ops ++ blocks)).steady ms = true) (h₁ : CutsOperands stmt c ops ops' c')
    (h₂ : BecomesBlocks d blocks blocks' d') (hnone : calls.go ms ops' = [])
    (hblocks : ∀ r, ran.inPart ms known r blocks' = ran.inPart ms known r blocks) :
    (upon false {(calls.go ms ops).map .call}).andThen
      ((mk n (ops' ++ blocks')).ran ms known) = (mk n (ops ++ blocks)).ran ms known := by
  obtain ⟨hops, hpart⟩ := ran_parts ms known h₁.not_blocks.1 h₂.kind
  obtain ⟨hops', hpart'⟩ := ran_parts ms known h₁.not_blocks.2 h₂.blocks
  have hhere : steadyHere ms n (ops ++ blocks) = true := by
    rw [steady, Bool.and_eq_true] at hs
    exact hs.1
  have hsilent : ∀ r, evaluated.inRole ms known r ops' = {[]} := fun r =>
    inRole_of_silent fun p hp _ => gathers_calls.eq_nil.mp hnone p hp
  -- the condition of `while` and `do` makes no call
  have hall : (operandsIn (ops ++ blocks)).all (fun p => (p.2.calls ms).isEmpty) = true →
      calls.go ms ops = [] := by
    intro h
    rw [hops] at h
    exact gathers_calls.eq_nil.mpr fun p hp => by simpa using all_eq_true.mp h p hp
  have hkinds : n.kind = .whileLoop ∨ n.kind = .doWhileLoop ∨ n.kind = .forLoop ∨
      n.kind = .loop := by
    revert hk
    cases n.kind <;> decide
  rcases hkinds with hkind | hkind | hkind | hkind
  iterate 2
    rw [steadyHere, hkind] at hhere
    simp only [Tree.ran, hkind, hops, hops', hpart, hpart', hblocks, all_of_silent (hall hhere),
      all_of_silent hnone, hall hhere, map_nil, upon_nil, skip_andThen]
  · rw [steadyHere, hkind, hops] at hhere
    have hstart : ∀ p ∈ ops, p.1 = .start ∨ p.2.calls ms = [] := fun p hp => by
      simpa using all_eq_true.mp hhere p hp
    have hother : ∀ r, r ≠ .start → evaluated.inRole ms known r ops = {[]} := fun r hr =>
      inRole_of_silent fun p hp heq => (hstart p hp).resolve_left (heq ▸ hr)
    have hfirst : evaluated.inRole ms known .start ops = {(calls.go ms ops).map .call} := by
      rw [inRole_eq fun p hp => evaluated_of_steady (steady_child hs (mem_append_left _ hp)),
        gathers_calls.filter fun p hp => (hstart p hp).imp_left fun h => by simpa using h]
    simp only [Tree.ran, hkind, hops, hops', hpart, hpart', hblocks, hsilent, hfirst,
      hother .condition (by decide), hother .iteration (by decide), upon_nil, skip_andThen]
  · have hf := uncut_fills hu
    simp only [hkind, Kind.slots] at hf
    obtain ⟨rfl, rfl⟩ := append_eq_nil_iff.mp (fills_nil hf)
    cases h₁
    cases h₂
    exact skip_andThen _

mutual

/-- A steady statement and the row that is made of it have the same traces. -/
theorem Becomes.ran {c₀ c c' : Cutter} {t : Tree} {ts : List Tree}
    (h : Becomes c t ts c') (hl : Later c₀ c) (hu : t.uncut = true)
    (hs : t.steady c₀.machines = true) :
    ran.inList c₀.machines known (ts.map (Role.statements, ·)) = t.ran c₀.machines known :=
  match h with
  | .nop _ => ran_inList_single _ _
  | .block hk h => by
    have hall := h.ran hl (fun p hp => uncut_child hu hp) fun p hp => steady_child hs hp
    rw [map_singleton, ran_inList_single]
    simp only [Tree.ran, hk]
    exact hall
  | .declaration hk _ _ h =>
    ran_plain (hl.entering _) h rfl (fun p hp => uncut_child hu hp)
      (ran_steady (plain_of_kind hk rfl) hs) fun hnone => ran_silent (plain_of_kind hk rfl) hnone
  | @Becomes.machineDeclaration _ _ n m a type as as' _ hk _ hcall ha hm h => by
    have hinit := uncut_arguments (uncut_child hu (mem_cons_of_mem _ mem_cons_self))
    have htype : type.calls c₀.machines = [] :=
      calls_of_bare (uncut_child hu mem_cons_self) (bare_type hu hk)
    rw [hl.machines] at hm
    refine ran_inSub_row (hl.entering _) h rfl hinit hcall ha hm ?_ ?_
    · rw [ran_steady (plain_of_kind hk rfl) hs, Tree.children, calls.go, calls.go, calls.go, htype,
        nil_append, append_nil]
    · rw [ran_of_plain (plain_of_kind hk rfl), Tree.children, evaluated.all, evaluated.all,
        evaluated.all, join_nil, evaluated_of_silent htype, nil_join]
  | .expression hk h =>
    ran_plain hl.fresh h rfl (fun p hp => uncut_child hu hp)
      (ran_steady (plain_of_kind hk rfl) hs) fun hnone => ran_silent (plain_of_kind hk rfl) hnone
  | @Becomes.call _ _ n m a as as' hk hcall ha h hm _ => by
    have huas := uncut_arguments (uncut_child hu mem_cons_self)
    rw [h.later.machines, hl.fresh.machines] at hm
    refine ran_plain hl.fresh h rfl huas ?_ fun hnone => ?_
    · rw [ran_steady (plain_of_kind hk rfl) hs, Tree.children, calls.go, calls.go,
        calls_call hcall ha, hm]
      simp
    · refine ran_silent (plain_of_kind hk rfl) ?_
      rw [Tree.children, calls.go, calls.go, calls_call hcall ha, hm, hnone]
      rfl
  | @Becomes.machineCall _ _ n m a as as' hk hcall ha h hm => by
    have huas := uncut_arguments (uncut_child hu mem_cons_self)
    rw [h.later.machines, hl.fresh.machines] at hm
    refine ran_inSub_row hl.fresh h rfl huas hcall ha hm ?_ ?_
    · rw [ran_steady (plain_of_kind hk rfl) hs, Tree.children, calls.go, calls.go, append_nil]
    · rw [ran_of_plain (plain_of_kind hk rfl), Tree.children, evaluated.all, evaluated.all,
        join_nil]
  | @Becomes.wait _ _ n m a w as as' hk hcall ha h hm hb hw => by
    have huas := uncut_arguments (uncut_child hu mem_cons_self)
    rw [h.later.machines, hl.fresh.machines] at hm
    obtain ⟨hnone, hran⟩ := h.row hl.fresh rfl huas known
    -- The function that is waited for has no states and is no call here.
    have hwait : (mk w [(.argumentList, .mk a as')]).ran c₀.machines known = skip := by
      refine ran_silent (by cases hw <;> rfl) ?_
      rw [Tree.children, calls.go, calls.go, calls_of_kind (by rw [ha]; decide), hnone]
      rfl
    rw [map_append, ran_inList_append, hran, map_singleton, ran_inList_single, hwait,
      andThen_skip, ran_steady (plain_of_kind hk rfl) hs, Tree.children, calls.go, calls.go,
      calls_call hcall ha, hm]
    simp
  | @Becomes.branch _ _ _ n ops blocks ops' blocks' hk h₁ h₂ => by
    obtain ⟨hnone, hran⟩ := h₁.row hl.fresh rfl
      (fun p hp => uncut_child hu (mem_append_left _ hp)) known
    obtain ⟨hops, hpart⟩ := ran_parts c₀.machines known h₁.not_blocks.1 h₂.kind
    obtain ⟨hops', hpart'⟩ := ran_parts c₀.machines known h₁.not_blocks.2 h₂.blocks
    have hblocks := h₂.ran (Later.trans hl.fresh h₁.later).fresh
      (fun p hp => uncut_child hu (mem_append_right _ hp))
      fun p hp => steady_child hs (mem_append_right _ hp)
    have hcalls : evaluated.all c₀.machines known ops = {(calls.go c₀.machines ops).map .call} :=
      all_eq fun p hp => evaluated_of_steady (steady_child hs (mem_append_left _ hp))
    rw [map_append, ran_inList_append, hran, map_singleton, ran_inList_single]
    simp only [Tree.ran, hk, hops, hops', hpart, hpart', hblocks, hcalls, all_of_silent hnone,
      upon_nil, skip_andThen]
  | @Becomes.loop _ _ _ n ops blocks ops' blocks' _ hk h₁ h₂ _ => by
    obtain ⟨hnone, hran⟩ := h₁.row (hl.entering _) rfl
      (fun p hp => uncut_child hu (mem_append_left _ hp)) known
    have hblocks := h₂.ran (Later.trans (hl.entering _) h₁.later).fresh
      (fun p hp => uncut_child hu (mem_append_right _ hp))
      fun p hp => steady_child hs (mem_append_right _ hp)
    rw [map_append, ran_inList_append, hran, map_singleton, ran_inList_single]
    exact ran_loop hk hu hs h₁ h₂ hnone hblocks
  | @Becomes.leave _ _ n cs cs' _ hk h => by
    obtain ⟨hnone, hran⟩ := h.row hl.fresh rfl (fun p hp => uncut_child hu hp) known
    have hleave : ∀ ds, (mk n ds).ran c₀.machines known =
        upon true (evaluated.all c₀.machines known ds) := by
      intro ds
      simp only [Tree.ran, hk]
    rw [map_append, map_append, ran_inList_append, ran_inList_append, hran, ran_resets,
      andThen_skip, map_singleton, ran_inList_single, hleave, hleave, all_of_silent hnone,
      upon_andThen, join_nil, all_eq fun p hp => evaluated_of_steady (steady_child hs hp)]

theorem BecomesAll.ran {c₀ c c' : Cutter} {cs cs' : Children}
    (h : BecomesAll c cs cs' c') (hl : Later c₀ c) (hu : ∀ p ∈ cs, p.2.uncut = true)
    (hs : ∀ p ∈ cs, p.2.steady c₀.machines = true) :
    ran.inList c₀.machines known cs' = ran.inList c₀.machines known cs :=
  match h with
  | .nil => rfl
  | .cons h hrest => by
    obtain ⟨hut, hu⟩ := forall_mem_cons.mp hu
    obtain ⟨hst, hs⟩ := forall_mem_cons.mp hs
    rw [ran_inList_append, h.ran hl hut hst, hrest.ran (hl.trans h.later) hu hs, ran.inList]

theorem BecomesBlocks.ran {c₀ : Cutter} : ∀ {c c' : Cutter} {cs cs' : Children},
    BecomesBlocks c cs cs' c' → Later c₀ c → (∀ p ∈ cs, p.2.uncut = true) →
      (∀ p ∈ cs, p.2.steady c₀.machines = true) →
        ∀ r, ran.inPart c₀.machines known r cs' = ran.inPart c₀.machines known r cs
  | _, _, _, _, .nil, _, _, _, _ => rfl
  | _, _, _, _, .cons hk h hrest, hl, hu, hs, r => by
    obtain ⟨hut, hu⟩ := forall_mem_cons.mp hu
    obtain ⟨hst, hs⟩ := forall_mem_cons.mp hs
    have hblock := h.ran hl (fun p hp => uncut_child hut hp) fun p hp => steady_child hst hp
    have hrest := hrest.ran (hl.trans h.later) hu hs r
    simp only [ran.inPart, kind, node, hk, Tree.ran, hblock, hrest]

end

/-! ## Statements without calls -/

theorem ran_straight (hk : ∀ p ∈ cs, p.2.kind.plain = true) (hc : ∀ p ∈ cs, p.2.kind ≠ .call)
    (hs : ∀ p ∈ cs, p.2.steady ms = true) :
    ran.inList ms known cs = upon false {(calls.go ms cs).map .call} := by
  induction cs with
  | nil => rfl
  | cons p cs ih =>
    obtain ⟨r, n, ds⟩ := p
    obtain ⟨hkp, hk⟩ := forall_mem_cons.mp hk
    obtain ⟨hcp, hc⟩ := forall_mem_cons.mp hc
    obtain ⟨hsp, hs⟩ := forall_mem_cons.mp hs
    have hcalls : (mk n ds).calls ms = calls.go ms ds := calls_of_kind hcp
    rw [ran.inList, ran_steady hkp hsp, ih hk hc hs, upon_andThen, join_singleton, calls.go, hcalls,
      map_append]
    rfl

/-- No call is made. -/
def Uncalled (A : Runs) : Prop := ∀ x ∈ A, ∀ id, Act.call id ∉ x.1

theorem uncalled_skip : Uncalled skip := by
  rintro x ⟨hx, -⟩ id
  rw [Set.mem_singleton_iff.mp hx]
  exact not_mem_nil

theorem uncalled_choice {yes : Bool} : Uncalled (upon false {[.choice id yes]}) := by
  rintro x ⟨hx, -⟩ id'
  rw [Set.mem_singleton_iff.mp hx]
  simp

theorem Uncalled.andThen (hA : Uncalled A) (hB : Uncalled B) : Uncalled (A.andThen B) := by
  rintro ⟨x, left⟩ (⟨hx, -⟩ | ⟨a, b, ha, hb, rfl⟩) id hmem
  · exact hA _ hx id hmem
  · rcases mem_append.mp hmem with hmem | hmem
    · exact hA _ ha id hmem
    · exact hB _ hb id hmem

theorem Uncalled.union (hA : Uncalled A) (hB : Uncalled B) : Uncalled (A ∪ B) :=
  fun x hx => hx.elim (hA x) (hB x)

theorem Uncalled.rounds {round : Runs} (h : Uncalled round) : Uncalled (rounds id {[]} round) := by
  intro x hx
  induction hx with
  | stop ha =>
    rw [Set.mem_singleton_iff.mp ha]
    simp
  | left ha hb =>
    intro id' hmem
    rw [Set.mem_singleton_iff.mp ha] at hmem
    exact h _ hb id' (by simpa using hmem)
  | @next a b x ha hb _ ih =>
    intro id' hmem
    rw [Set.mem_singleton_iff.mp ha] at hmem
    have hmem : Act.call id' ∈ b ∨ Act.call id' ∈ x.1 := by simpa using hmem
    exact hmem.elim (h _ hb id') (ih id')

/-- A tree without calls makes none. -/
theorem uncalled_ran (h : t.calls ms = []) : Uncalled (t.ran ms known) := by
  induction t using ofChildren with
  | step n cs ih =>
    rw [calls, append_eq_nil_iff] at h
    have hcs := gathers_calls.eq_nil.mp h.1
    -- Lists and parts go together, as both run through the children.
    have hlist : ∀ {ds : Children}, (∀ p ∈ ds, p ∈ cs) →
        Uncalled (ran.inList ms known ds) ∧ ∀ r, Uncalled (ran.inPart ms known r ds) := by
      intro ds hds
      induction ds with
      | nil => exact ⟨uncalled_skip, fun _ => uncalled_skip⟩
      | cons p ds ihds =>
        obtain ⟨hp, hds⟩ := forall_mem_cons.mp hds
        have hthis := ih p hp (hcs p hp)
        obtain ⟨hall, hpart⟩ := ihds hds
        refine ⟨hthis.andThen hall, fun r => ?_⟩
        rw [ran.inPart]
        split
        · exact hthis.andThen (hpart r)
        · exact hpart r
    have hops : calls.go ms (operandsIn cs) = [] :=
      gathers_calls.eq_nil.mpr fun p hp => hcs p (mem_filter.mp hp).1
    have hrole : ∀ r, evaluated.inRole ms known r (operandsIn cs) = {[]} := fun r =>
      inRole_of_silent fun p hp _ => hcs p (mem_filter.mp hp).1
    obtain ⟨hall, hpart⟩ := hlist fun p hp => hp
    rw [ran]
    simp only [all_of_silent hops, all_of_silent h.1, hrole, upon_nil]
    split
    · exact hall
    · exact uncalled_skip.andThen ((uncalled_choice.andThen (hpart _)).union
        (uncalled_choice.andThen (hpart _)))
    · exact (hpart _).rounds
    · exact (hpart _).andThen (hpart _).rounds
    · exact uncalled_skip.andThen ((hpart _).andThen uncalled_skip).rounds
    · rintro x ⟨hx, -⟩ id
      rw [Set.mem_singleton_iff.mp hx]
      exact not_mem_nil
    · exact uncalled_skip

theorem uncalled_inList (h : calls.go ms cs = []) : Uncalled (ran.inList ms known cs) := by
  induction cs with
  | nil => exact uncalled_skip
  | cons p cs ih =>
    obtain ⟨hp, hcs⟩ := append_eq_nil_iff.mp h
    exact (uncalled_ran hp).andThen (ih hcs)

/-- If all calls stand in the first statements, a trace is made of theirs and of a silent rest. -/
theorem mem_ran_of_calls_first {b : Tree} {k : Nat} {x : List Act × Bool}
    (hk : b.kind = .statementList)
    (hfirst : ∀ p ∈ b.children.take k,
      p.2.kind.plain = true ∧ p.2.kind ≠ .call ∧ p.2.steady ms = true)
    (hrest : calls.go ms (b.children.drop k) = []) (hx : x ∈ b.ran ms known) :
    ∃ y, x.1 = (calls.go ms b.children).map .call ++ y ∧ ∀ id, Act.call id ∉ y := by
  have hran : b.ran ms known = ran.inList ms known (b.children.take k ++ b.children.drop k) := by
    rw [take_append_drop]
    obtain ⟨n, cs⟩ := b
    have hk : n.kind = .statementList := hk
    simp only [Tree.ran, hk, Tree.children]
  have hcalls : calls.go ms b.children = calls.go ms (b.children.take k) := by
    have happend := @calls_go_append ms (b.children.take k) (b.children.drop k)
    rw [take_append_drop] at happend
    rw [happend, hrest, append_nil]
  rw [hran, ran_inList_append, ran_straight (fun p hp => (hfirst p hp).1)
    (fun p hp => (hfirst p hp).2.1) fun p hp => (hfirst p hp).2.2] at hx
  -- Plain statements do not leave the function.
  rcases hx with ⟨⟨-, hfalse⟩, htrue⟩ | ⟨a, y, ⟨ha, -⟩, hy, heq⟩
  · rw [hfalse] at htrue
    cases htrue
  · refine ⟨y, ?_, uncalled_inList hrest _ hy⟩
    have ha : a = _ := Set.mem_singleton_iff.mp ha
    rw [heq, hcalls, ha]

/-! ## Functions -/

/-- The body of a function and what is made of it have the same traces. -/
theorem CutsBody.ran {c c' : Cutter} {f body source : Tree} (h : CutsBody c f body c')
    (hsource : f.child? .body = some source) (hcut : body.isCut = true)
    (hs : source.steady c.machines = true) (known : NodeId → Option Bool) :
    body.ran c.machines known = source.ran c.machines known := by
  cases h with
  | uncut h =>
    rw [not_isCut_of_marks h] at hcut
    cases hcut
  | @machine c₁ _ main b first d cs rest last skip o g hf hd hb hu hskip h hfirst hg hm hlast =>
    obtain rfl : mk b cs = source := Option.some.inj (hf.symm.trans hsource)
    have hlist : ∀ (n : Node) ds, n.kind = .statementList →
        (mk n ds).ran c.machines known = ran.inList c.machines known ds := by
      intro n ds hn
      simp only [Tree.ran, hn]
    -- The body has three parts: the entrance with the prologue, the rest of the source, and a
    -- reset.
    have hrest : ran.inList c.machines known rest = ran.inList c.machines known (cs.drop skip) :=
      @BecomesAll.ran known (entered c.fresh) _ _ _ _ h (Later.refl _)
        (fun p hp => uncut_child hu (mem_of_mem_drop hp))
        fun p hp => steady_child hs (mem_of_mem_drop hp)
    have hentrance : ran.inList c.machines known
        (entrance first (dispatchNode c₁.log.nextId o c₁.states main) skip cs) =
          ran.inList c.machines known (cs.take skip) := by
      have hsilent : (mk first []).ran c.machines known = Runs.skip :=
        ran_silent (plain_first hfirst) rfl
      rw [entrance, ran.inList, hsilent, skip_andThen, ran_inList_append, ran_inList_single]
      exact andThen_skip _
    have hlast' : ran.inList c.machines known last = Runs.skip := by
      cases hlast with
      | none => rfl
      | reset => exact ran_inList_single _ _
    rw [hlist _ _ ((hg.kind b).trans hb), hlist _ _ hb, ran_inList_append, hlast', andThen_skip,
      ran_inList_mapNodes fun p _ => ran_mapNodes hg p.2, ran_inList_append, hentrance, hrest,
      ← ran_inList_append, take_append_drop]

/-- A function with states makes the calls of functions with states that it made before it was cut,
in the same order and after the same decisions, whatever is known about how the operators in its
expressions decide. This holds if no such call stands in the condition or the iteration of a loop,
or in an operand that an operator may leave out. -/
theorem definition_hoists {f body source : Tree} {c : Cutter} (hu : f.uncut = true)
    (hk : f.kind = .functionDefinition) (hf : (definition f c).2.fault = none)
    (hb : (definition f c).1.child? .body = some body) (hsource : f.child? .body = some source)
    (hcut : body.isCut = true) (hs : source.steady c.machines = true)
    (known : NodeId → Option Bool) :
    body.ran c.machines known = source.ran c.machines known :=
  (cutsBody_of_definition hu hk hf hb).ran hsource hcut hs known

/-- The call that was taken out of an assignment in the inner loop of the handler is made in every
round of the loop. -/
theorem handler_hoists :
    let c := callingCutter false
    Kind.callSub ∈ (bodyOf Sample.handler c).subtrees.map Tree.kind ∧
      (bodyOf Sample.handler c).ran c.machines (fun _ => none) =
        Sample.body.ran c.machines (fun _ => none) :=
  ⟨by decide +kernel, definition_hoists (f := Sample.handler) (c := callingCutter false) (by decide)
    rfl (by decide +kernel) (bodyOf_eq (by decide +kernel)) rfl (by decide +kernel)
    (by decide +kernel) _⟩

end Cutting

namespace Sample

/-- A loop that goes round as long as a function gives an answer. -/
def asking : Tree :=
  .mk (node 23 .whileLoop) [(.expression, call 24 51 25 "get" false []),
    (.body, .mk (node 26 .statementList) [])]

/-- A body with a call in the condition of a loop. -/
def asker : Tree :=
  .mk (node 19 .statementList) [(.statements, asking),
    (.statements, .mk (node 33 .returnStatement) [(.expression, zero 34)])]

/-- A function with this body. -/
def askingHandler : Tree := handler.mapRole .body fun _ => asker

end Sample

namespace Cutting

/-- A call in the condition of a loop is made once, before the loop. The handler that makes it twice
if it goes round once does so no more after it was cut. -/
theorem loop_condition_called_once :
    Sample.askingHandler.uncut = true ∧
      (definition Sample.askingHandler (callingCutter false)).2.fault = none ∧
      (bodyOf Sample.askingHandler (callingCutter false)).isCut = true ∧
      ∃ trace, (trace, true) ∈ Sample.asker.ran (callingCutter false).machines (fun _ => none) ∧
        (trace, true) ∉ (bodyOf Sample.askingHandler (callingCutter false)).ran
          (callingCutter false).machines (fun _ => none) := by
  refine ⟨by decide +kernel, by decide +kernel, by decide +kernel,
    [.call 24, .choice 23 true, .call 24, .choice 23 false], ?_, ?_⟩
  · -- the loop makes the call before each of its two decisions
    have hoperands : ∀ p ∈ operandsIn Sample.asking.children,
        p.2.steady (callingCutter false).machines = true := by
      decide +kernel
    have hcalls : calls.go (callingCutter false).machines (operandsIn Sample.asking.children) =
        [24] := by
      decide +kernel
    have htest : [.call 24] ∈ evaluated.all (callingCutter false).machines (fun _ => none)
        (operandsIn Sample.asking.children) := by
      rw [all_eq fun p hp => evaluated_of_steady (hoperands p hp), hcalls]
      rfl
    have hround : ([], false) ∈ ran.inPart (callingCutter false).machines (fun _ => none) .body
        Sample.asking.children := Or.inr ⟨[], [], ⟨rfl, rfl⟩, ⟨rfl, rfl⟩, rfl⟩
    have hreturn : evaluated.all (callingCutter false).machines (fun _ => none)
        [(Role.expression, Sample.zero 34)] = {[]} := all_of_silent rfl
    refine Or.inr ⟨_, [], .next htest hround (.stop htest), Or.inl ⟨⟨?_, rfl⟩, rfl⟩, rfl⟩
    exact hreturn.symm ▸ rfl
  · -- the call that was taken out is the only one, and it is made once
    have hkind : (bodyOf Sample.askingHandler (callingCutter false)).kind = .statementList := by
      decide +kernel
    have hfirst : ∀ p ∈ (bodyOf Sample.askingHandler (callingCutter false)).children.take 3,
        p.2.kind.plain = true ∧ p.2.kind ≠ .call ∧
          p.2.steady (callingCutter false).machines = true := by
      decide +kernel
    have hrest : calls.go (callingCutter false).machines
        ((bodyOf Sample.askingHandler (callingCutter false)).children.drop 3) = [] := by
      decide +kernel
    have hcalls : calls.go (callingCutter false).machines
        (bodyOf Sample.askingHandler (callingCutter false)).children = [24] := by
      decide +kernel
    generalize bodyOf Sample.askingHandler (callingCutter false) = b at *
    intro hmem
    obtain ⟨y, hy, hnone⟩ := mem_ran_of_calls_first hkind hfirst hrest hmem
    rw [hcalls] at hy
    have hrest : y = [.choice 23 true, .call 24, .choice 23 false] :=
      (List.cons.inj hy).2.symm
    exact hnone 24 (by rw [hrest]; decide)

end Cutting

end Resumable
