import Resumable.Proofs.Recalling

/-!
# What is evaluated again behind a label

Arguments that are evaluated again have to mean what they meant before, although the variables that
are not kept are lost. They do if they are careful.

* `Cutting.Becomes.repeats`: in what is made of a careful statement, all that is evaluated again is
  harmless.
* `Cutting.CutsBody.repeats`: so it is in the body of a careful function.
* `Cutting.definition_repeats`: it uses only variables that have their values, and sets none.
* `Cutting.argument_lost`: a function that is not careful passes a value that was lost.
-/

namespace Resumable

open List hiding iterate

open Job Event Resumable.Tree

variable {e : Tree} {blocks ops ys : Children} {ms : Machines} {all : Bool}

namespace Cutting

variable {c c₀ c₁ c' : Cutter} {loop : Bool} {n a m : Node} {pre es : List Event} {P : Tree → Prop}
  {cs xs as ds as' cs' : Children} {stmt o : Origin} {r : Role} {t : Tree}
  {vs : List NodeId}

/-! ## Statements -/

variable {kept : List NodeId}

/-- What is evaluated again changes nothing and uses variables that are kept. -/
def Harmless (kept : List NodeId) (es : List Event) (e : Tree) : Prop :=
  e.calm = true ∧ ∀ v ∈ e.uses, v ∈ kept ∨ Safe es v

theorem Harmless.append (h : Harmless kept es e) (fs : List Event) : Harmless kept (es ++ fs) e :=
  ⟨h.1, fun v hv => (h.2 v hv).imp_right (·.append fs)⟩

/-- What may be evaluated again: it is calm, and outside of loops its young variables are kept. -/
def Allowed (kept : List NodeId) (loop : Bool) (vs : List NodeId) (r : Tree) : Prop :=
  r.calm = true ∧ (loop = true ∨ ∀ v ∈ r.uses, v ∉ vs ∨ v ∈ kept)

/-- What is tamed by something allowed is harmless. -/
theorem harmless_of_tames {r : Tree} (hf : Flat es) (hopen : loop = true → Open pre)
    (hr : Allowed kept loop (young [] pre) r) (ht : Tames r e)
    (hu : ∀ v ∈ e.uses, ∃ xs ys, es = xs ++ Event.use v :: ys ∧ cut ∈ ys) :
    Harmless kept (pre ++ es) e := by
  refine ⟨ht.2 hr.1, fun v hv => ?_⟩
  obtain ⟨xs, ys, rfl, hcut⟩ := hu v hv
  rcases hr.2 with hloop | hall
  · exact Or.inr (safe_of_use hf hcut hopen (Or.inl hloop))
  · rcases hall v (ht.1 v hv) with hold | hkept
    · exact Or.inr (safe_of_use hf hcut hopen (Or.inr hold))
    · exact Or.inl hkept

/-- The calls that were taken out of a list of operands are harmless. -/
theorem harmless_before (h : CutsOperands stmt c cs cs' c') (hb : c.before = [])
    (hu : ∀ p ∈ cs, p.2.uncut = true) (hopen : loop = true → Open pre)
    (hr : ∀ r ∈ recalled.go c.machines cs, Allowed kept loop (young [] pre) r) :
    ∀ b ∈ c'.before, b.kind = .callSub ∧
      ∀ e ∈ b.again, Harmless kept (pre ++ events.go c.machines c.splitAll cs) e := by
  intro b hmem
  rcases h.recalls hu b hmem with hnone | ⟨hk, hrec⟩
  · rw [hb] at hnone
    cases hnone
  · refine ⟨hk, fun e he => ?_⟩
    obtain ⟨r, hrmem, ht, huse⟩ := hrec e he
    exact harmless_of_tames h.flat hopen (hr r hrmem) ht huse

theorem harmless_arguments {id : NodeId} (h : CutsOperands stmt c as as' c')
    (hu : ∀ p ∈ as, p.2.uncut = true) (hopen : loop = true → Open pre)
    (hr : Allowed kept loop (young [] pre) (.mk a as)) :
    ∀ e ∈ argumentsOf (withMachine id (.mk m [(.argumentList, .mk a as')])),
      Harmless kept (pre ++ (events.go c.machines c.splitAll as ++ [cut])) e := by
  intro e he
  have hf : Flat (events.go c.machines c.splitAll as ++ [cut]) := by
    intro x hx
    rcases mem_append.mp hx with hx | hx
    · exact h.flat x hx
    · exact Or.inl (mem_singleton.mp hx)
  have hrec : Recalls (events.go c.machines c.splitAll as ++ [cut]) [.mk a as]
      (takenOut id stmt 0 (.mk m [(.argumentList, .mk a as')])) := recalls_takenOut h hu
  obtain ⟨r, hrmem, ht, huse⟩ := hrec.2 e (by
    change e ∈ [withMachine id (.mk m [(.argumentList, .mk a as')])].flatMap argumentsOf
    rwa [flatMap_singleton])
  rw [mem_singleton.mp hrmem] at ht
  exact harmless_of_tames hf hopen hr ht huse

theorem resumes_of_kinds (h : ∀ p ∈ xs, p.2.kind ≠ .beforeSub) : resumes false xs = false := by
  induction xs with
  | nil => rfl
  | cons p xs ih =>
    obtain ⟨hp, hxs⟩ := forall_mem_cons.mp h
    rw [resumes, beq_false_of_ne hp]
    exact ih hxs

/-- All that the row evaluates again has the property, and it does not end in a call that it
resumes. -/
def Repeats (P : Tree → Prop) (ts : Children) : Prop :=
  (∀ e ∈ again.inList false ts, P e) ∧ resumes false ts = false

theorem repeats_nil : Repeats P [] :=
  ⟨fun _ h => absurd h not_mem_nil, rfl⟩

/-- Two such rows, one after the other. -/
theorem Repeats.append (hx : Repeats P xs) (hy : Repeats P ys) : Repeats P (xs ++ ys) := by
  constructor
  · intro e he
    rw [again_append, hx.2] at he
    exact (mem_append.mp he).elim (hx.1 e) (hy.1 e)
  · rw [resumes_append, hx.2, hy.2]

theorem Repeats.mono {Q : Tree → Prop} (h : Repeats P xs) (hPQ : ∀ e, P e → Q e) : Repeats Q xs :=
  ⟨fun e he => hPQ e (h.1 e he), h.2⟩

theorem repeats_single (hk : t.kind ≠ .beforeSub) (h : ∀ e ∈ t.again, P e) :
    Repeats P [(r, t)] := by
  refine ⟨fun e he => ?_, resumes_of_kinds (by simpa using hk)⟩
  rw [again.inList, again.inList, if_neg Bool.false_ne_true, nil_append, append_nil] at he
  exact h e he

theorem repeats_plain (hk : t.kind.plain = true ∨ t.kind = .returnStatement)
    (hc : t.kind.cuts = false) : Repeats P [(r, t)] := by
  refine repeats_single (fun h => ?_) fun e he => ?_
  · rw [h] at hc
    cases hc
  · rw [again_of_plain hk hc] at he
    cases he

theorem repeats_of_plain (h : ∀ p ∈ xs, p.2.kind.plain = true ∧ p.2.kind.cuts = false) :
    Repeats P xs := by
  induction xs with
  | nil => exact repeats_nil
  | cons p xs ih =>
    obtain ⟨⟨hk, hc⟩, hxs⟩ := forall_mem_cons.mp h
    exact (show Repeats P [p] from repeats_plain (Or.inl hk) hc).append (ih hxs)

theorem repeats_before {bs : List Tree} (h : ∀ b ∈ bs, b.kind = .callSub ∧ ∀ e ∈ b.again, P e) :
    Repeats P (bs.map (Role.statements, ·)) := by
  induction bs with
  | nil => exact repeats_nil
  | cons b bs ih =>
    obtain ⟨⟨hk, hb⟩, hbs⟩ := forall_mem_cons.mp h
    exact (repeats_single (by rw [hk]; decide) hb).append (ih hbs)

theorem repeats_pauses : Repeats P ((pauses o c).map (Role.statements, ·)) := by
  unfold pauses
  split
  · refine repeats_single (fun h => ?_) fun e he => ?_
    · cases h
    · cases he
  · exact repeats_nil

/-- A statement that is resumed evaluates its arguments again. -/
theorem repeats_inSub (hk : t.kind.plain = true) (hc : t.kind.cuts = false)
    (h : ∀ e ∈ (run t).operands.flatMap argumentsOf, P e) :
    Repeats P ((inSub o c t).map (Role.statements, ·)) := by
  have hnot : t.kind ≠ .beforeSub := by
    intro h
    rw [h] at hc
    cases hc
  refine ⟨fun e he => ?_, ?_⟩
  · have hrow : again.inList false ((inSub o c t).map (Role.statements, ·)) =
        (run t).operands.flatMap argumentsOf ++ (t.again ++ again.inList (t.kind == .beforeSub)
          [(.statements, .mk (.blank (c.log.nextId + 2) .afterSub o) [])]) := rfl
    rw [hrow, again_of_plain (Or.inl hk) hc, beq_false_of_ne hnot, nil_append] at he
    rcases mem_append.mp he with he | he
    · exact h e he
    · cases he
  · rfl

/-- Operands themselves evaluate nothing again. -/
theorem CutsOperands.repeats {P : Tree → Prop} {stmt : Origin} {c c' : Cutter}
    {cs cs' : Children} (h : CutsOperands stmt c cs cs' c') : Repeats P cs' := by
  induction h using CutsOperands.row_induction with
  | nil => exact repeats_nil
  | @cons _ _ _ r _ t' _ _ h hs ih =>
    refine (show Repeats P [(r, t')] from repeats_plain (Or.inl h.plain.2) ?_).append ih
    have hbare : ∀ k : Kind, k.bare = true → k.cuts = false := by
      intro k
      cases k <;> decide
    have hinner : ∀ k : Kind, k.inner = true → k.cuts = false := by
      intro k
      cases k <;> decide
    cases h with
    | bare hk => exact hbare _ hk
    | use hk => exact (congrArg Kind.cuts hk).trans rfl
    | inner hk h => exact hinner _ hk
    | call hk ha h hm => exact (congrArg Kind.cuts hk).trans rfl
    | taken hk ha h hm => rfl

/-! ### What a careful statement may do -/

/-- What a careful statement evaluates again is allowed. -/
theorem allowed_of_careful (h : (Tree.mk n cs).careful c kept loop (young [] pre) = true)
    (hk : n.kind ≠ .statementList) :
    ∀ r ∈ recalledHere c n cs,
      Allowed kept (loop || n.kind.loops) (young [] (pre ++ beginnings n)) r := by
  intro r hr
  rw [careful, Bool.and_eq_true, Bool.or_eq_true, beq_iff_eq] at h
  have hhere := all_eq_true.mp (h.1.resolve_left hk) r hr
  rw [Bool.and_eq_true] at hhere
  rw [young_append]
  refine ⟨hhere.1, ?_⟩
  rcases Bool.or_eq_true_iff.mp hhere.2 with hloop | huses
  · exact Or.inl hloop
  · refine Or.inr fun v hv => ?_
    simpa using all_eq_true.mp huses v hv

theorem open_beginnings (hopen : loop = true → Open pre) (h : (loop || n.kind.loops) = true) :
    Open (pre ++ beginnings n) := by
  cases hk : n.kind.loops with
  | true =>
    have henter : beginnings n = [enter] := by
      unfold beginnings
      cases hkind : n.kind <;> rw [hkind] at hk <;> exact absurd hk (by decide)
    rw [henter]
    exact ⟨pre, [], rfl, balanced_nil⟩
  | false =>
    rw [hk, Bool.or_false] at h
    exact (hopen h).append (balanced_of_flat fun e he => opens_beginnings hk he)

theorem harmless_row (hl : Later c₀ c) (h : CutsOperands stmt c cs cs' c₁) (hb : c.before = [])
    (hu : ∀ p ∈ cs, p.2.uncut = true) (hopen : loop = true → Open pre)
    (hr : ∀ r ∈ recalled.go c₀.machines cs, Allowed kept loop (young [] pre) r) (fs : List Event) :
    Repeats (Harmless kept (pre ++ (events.go c₀.machines c₀.splitAll cs ++ fs)))
      (c₁.before.map (Role.statements, ·)) := by
  rw [← hl.machines] at hr
  refine repeats_before fun b hmem => ?_
  obtain ⟨hk, hsafe⟩ := harmless_before h hb hu hopen hr b hmem
  refine ⟨hk, fun e he => ?_⟩
  have := (hsafe e he).append fs
  rwa [append_assoc, hl.machines, hl.splitAll] at this

theorem recalled_go_mono {r : Tree} (hr : r ∈ recalled.go ms cs) (h : ∀ p ∈ cs, p ∈ ds) :
    r ∈ recalled.go ms ds := by
  obtain ⟨p, hp, hr⟩ := gathers_recalled.mem.mp hr
  exact gathers_recalled.mem.mpr ⟨p, h p hp, hr⟩

theorem events_statement {splitAll : Bool} {k : Kind} (hk : n.kind = k)
    (h : (k.bare || k = .nop || k = .variableUse) = false) (pre : List Event) :
    pre ++ (Tree.mk n cs).events ms splitAll =
      (pre ++ beginnings n) ++ (events.go ms splitAll cs ++ endings ms splitAll n cs) := by
  rw [events_visited (by rw [hk]; exact h), append_assoc]

theorem CutsOperands.first : ∀ {stmt : Origin} {c c' : Cutter} {cs cs' : Children},
    CutsOperands stmt c cs cs' c' → ∀ (a : Node), ∀ e ∈ ((Tree.mk a cs').inRole .arguments).take 1,
      ∃ p ∈ firstArgument cs, p ∈ cs ∧ Tames p.2 e
  | _, _, _, _, _, .nil, _, _, he => by cases he
  | _, _, _, _, _, @CutsOperands.cons _ _ _ _ r t t' cs cs' h hs, a, e, he => by
    rw [firstArgument]
    by_cases heq : r = .arguments
    · subst heq
      have he : e = t' := by simpa [inRole, Tree.children] using he
      subst he
      refine ⟨(.arguments, t), ?_, mem_cons_self, h.tames⟩
      rw [filter_cons_of_pos rfl, take_succ_cons]
      exact mem_cons_self
    · have he : e ∈ ((Tree.mk a cs').inRole .arguments).take 1 := by
        simpa [inRole, Tree.children, heq] using he
      obtain ⟨p, hp, hmem, ht⟩ := hs.first a e he
      refine ⟨p, ?_, mem_cons_of_mem _ hmem, ht⟩
      rwa [filter_cons_of_neg (by simpa using heq)]

/-- A wait for a transfer evaluates its first argument again. -/
theorem harmless_wait {w : Node} (hl : Later c₀ c) (h : CutsOperands stmt c as as' c₁)
    (hu : ∀ p ∈ as, p.2.uncut = true) (hb : m.flags.lookup .blocking = some true)
    (hw : WaitNode c₁ n m w) (hopen : loop = true → Open pre)
    (hr : ∀ r ∈ awaited c₀ (.mk m [(.argumentList, .mk a as)]),
      Allowed kept loop (young [] pre) r) :
    ∀ e ∈ (Tree.mk w [(.argumentList, .mk a as')]).again,
      Harmless kept (pre ++ (events.go c₀.machines c₀.splitAll as ++ [cut])) e := by
  have hflag : m.flag .blocking = true := by
    rw [Node.flag, hb]
    rfl
  have hindex : c₁.index = c₀.index := h.later.index.trans hl.index
  have hf : Flat (events.go c₀.machines c₀.splitAll as ++ [cut]) := by
    intro x hx
    rcases mem_append.mp hx with hx | hx
    · exact h.flat x hx
    · exact Or.inl (mem_singleton.mp hx)
  intro e he
  -- A sleep is not called again: the time is over.
  cases hw with
  | sleep d hd hname => cases he
  | transfer d hd hname hft hspot =>
    rw [hindex] at hd
    obtain ⟨p, hp, hmem, ht⟩ := h.first a e he
    have hallowed : Allowed kept loop (young [] pre) p.2 := by
      refine hr p.2 ?_
      rw [awaited, if_pos (by simp [node, hflag, not_sleeps hd hname hft])]
      exact mem_flatMap.mpr ⟨_, mem_cons_self, mem_map_of_mem hp⟩
    refine harmless_of_tames hf hopen hallowed ht fun v hv => ?_
    have huse : Event.use v ∈ events.go c₀.machines c₀.splitAll as :=
      gathers_events.mem.mpr ⟨p, hmem, use_mem_events (hu p hmem) (ht.1 v hv)⟩
    obtain ⟨xs, ys, hxy⟩ := append_of_mem huse
    exact ⟨xs, ys ++ [cut], by rw [hxy]; simp, by simp⟩

theorem allowed_operands (h : CutsOperands stmt c cs cs' c₁)
    (hr : ∀ r ∈ recalledHere c₀ n ds, Allowed kept loop vs r) (hmem : ∀ p ∈ cs, p ∈ ds) :
    ∀ r ∈ recalled.go c₀.machines cs, Allowed kept loop vs r := by
  intro r hmem'
  refine hr r (mem_append_left _ (recalled_go_mono hmem' fun p hp => ?_))
  have hops : p ∈ operandsIn cs := by rwa [h.operandsIn.1]
  exact mem_filter.mpr ⟨hmem p hp, (mem_filter.mp hops).2⟩

/-- What is evaluated again in the arguments of a call that is a statement, or a first value, may be
so. -/
theorem allowed_call (hcall : m.kind = .call)
    (hr : ∀ r ∈ recalledHere c₀ n ds, Allowed kept loop vs r)
    (hmem : (r, Tree.mk m [(.argumentList, .mk a as)]) ∈ ds) :
    ∀ x ∈ (Tree.mk m [(.argumentList, .mk a as)]).recalled c₀.machines, Allowed kept loop vs x := by
  intro x hx
  refine hr x (mem_append_left _ ?_)
  have hone : x ∈ recalled.go c₀.machines [(r, Tree.mk m [(.argumentList, .mk a as)])] := by
    rw [recalled.go, recalled.go, append_nil]
    exact hx
  refine recalled_go_mono hone fun p hp => ?_
  rw [mem_singleton.mp hp]
  exact mem_filter.mpr ⟨hmem, by simp [kind, node, hcall]⟩

/-- The rest of a careful list is careful behind its first part. -/
theorem careful_go_append (h : careful.go c kept all loop vs (xs ++ ys) = true) :
    careful.go c kept all loop (young vs (events.go c.machines c.splitAll xs)) ys = true := by
  induction xs generalizing vs with
  | nil => exact h
  | cons p xs ih =>
    obtain ⟨r, t⟩ := p
    rw [cons_append, careful.go, Bool.and_eq_true] at h
    rw [events.go, young_append]
    exact ih h.2

theorem careful_go_cons (h : careful.go c kept all loop vs ((r, t) :: cs) = true)
    (hk : all = true ∨ t.kind = .statementList) :
    t.careful c kept loop vs = true ∧
      careful.go c kept all loop (young vs (t.events c.machines c.splitAll)) cs = true := by
  rw [careful.go, Bool.and_eq_true] at h
  have hvisited : (all || t.kind == .statementList) = true := by
    rw [Bool.or_eq_true, beq_iff_eq]
    exact hk
  rw [hvisited, Bool.not_true, Bool.false_or] at h
  exact h

theorem careful_list (hk : n.kind = .statementList)
    (h : (Tree.mk n cs).careful c kept loop vs = true) :
    careful.go c kept true loop vs cs = true := by
  have hbegin : beginnings n = [] := by
    unfold beginnings
    rw [hk]
  rw [careful, Bool.and_eq_true, hbegin, hk,
    show (loop || Kind.loops .statementList) = loop from Bool.or_false loop] at h
  exact h.2

theorem careful_blocks (hk : n.kind ≠ .statementList)
    (h : (Tree.mk n (ops ++ blocks)).careful c kept loop (young [] pre) = true) :
    careful.go c kept false (loop || n.kind.loops)
      (young [] (pre ++ beginnings n ++ events.go c.machines c.splitAll ops)) blocks = true := by
  rw [careful, Bool.and_eq_true, beq_false_of_ne hk] at h
  rw [young_append, young_append]
  exact careful_go_append h.2

/-- A statement with a call of a machine repeats its arguments only. -/
theorem repeats_call {vs : List Event} (hl : Later c₀ c) (h : CutsOperands stmt c as as' c₁)
    (hb : c.before = []) (hu : ∀ p ∈ as, p.2.uncut = true) (hcall : m.kind = .call)
    (hopen : loop = true → Open pre) (hm : c₀.machines.hasStates (m.link? .declaration) = true)
    (hr : ∀ r ∈ recalledHere c₀ n ds, Allowed kept loop (young [] pre) r)
    (hmem : (r, Tree.mk m [(.argumentList, .mk a as)]) ∈ ds) (hk : t.kind.plain = true)
    (hc : t.kind.cuts = false)
    (ht : (run t).operands = [withMachine c₁.log.nextId (.mk m [(.argumentList, .mk a as')])])
    (hvs : vs = pre ++ (events.go c₀.machines c₀.splitAll as ++ [cut])) :
    Repeats (Harmless kept vs) ((c₁.before ++ inSub o c₁ t).map (Role.statements, ·)) := by
  have hargs : Allowed kept loop (young [] pre) (.mk a as) := by
    refine allowed_call hcall hr hmem _ ?_
    rw [recalled_of_states hcall hm]
    exact mem_singleton_self _
  -- What the arguments recall is a part of them, and no less allowed.
  have hops : ∀ x ∈ recalled.go c₀.machines as, Allowed kept loop (young [] pre) x := by
    intro x hx
    have htame : Tames (.mk a as) x := recalled_go_tames (fun _ _ _ hr => recalled_tames hr) x hx
    exact ⟨htame.2 hargs.1, hargs.2.imp_right fun h v hv => h v (htame.1 v hv)⟩
  rw [map_append]
  refine Repeats.append ?_ (repeats_inSub hk hc fun e he => ?_)
  · rw [hvs]
    exact harmless_row hl h hb hu hopen hops [cut]
  · rw [ht, flatMap_singleton] at he
    have hsafe := harmless_arguments h hu hopen hargs e he
    rwa [hl.machines, hl.splitAll, ← hvs] at hsafe

/-- A compound statement repeats what its operands and its blocks repeat. -/
theorem repeats_compound {ops' blocks' : Children} (hk : n.kind = .ifElse ∨ n.kind.loops = true)
    (hl : Later c₀ c) (h : CutsOperands stmt c ops ops' c₁) (hb : c.before = [])
    (hu : (Tree.mk n (ops ++ blocks)).uncut = true)
    (hs : (Tree.mk n (ops ++ blocks)).careful c₀ kept loop (young [] pre) = true)
    (hopen : loop = true → Open pre) (hblocks : Repeats (Harmless kept (pre ++ beginnings n ++
      events.go c₀.machines c₀.splitAll ops ++ events.go c₀.machines c₀.splitAll blocks))
        blocks') :
    Repeats (Harmless kept (pre ++ (Tree.mk n (ops ++ blocks)).events c₀.machines c₀.splitAll))
      ((c₁.before ++ [Tree.mk n (ops' ++ blocks')]).map (Role.statements, ·)) := by
  have hlist : n.kind ≠ .statementList := by
    intro h
    simp [h, Kind.loops] at hk
  have hbefore : (Tree.mk n (ops' ++ blocks')).kind ≠ .beforeSub := by
    rw [kind, node]
    intro h
    simp [h, Kind.loops] at hk
  have hvisited : (n.kind.bare || n.kind = .nop || n.kind = .variableUse) = false := by
    cases hn : n.kind <;> simp_all [Kind.loops, Kind.bare]
  have hr := allowed_of_careful hs hlist
  rw [events_statement rfl hvisited, map_append, events_go_append,
    append_assoc (events.go _ _ ops)]
  refine (harmless_row hl h hb (fun p hp => uncut_child hu (mem_append_left _ hp))
    (open_beginnings hopen) (allowed_operands h hr fun _ hp => mem_append_left _ hp) _).append
    (repeats_single hbefore fun e he => ?_)
  -- The course ends with the label of a loop, which is no harm to what stands before it.
  have hall : Repeats (Harmless kept (pre ++ beginnings n ++
      (events.go c₀.machines c₀.splitAll ops ++ (events.go c₀.machines c₀.splitAll blocks ++
        endings c₀.machines c₀.splitAll n (ops ++ blocks))))) (ops' ++ blocks') := by
    refine h.repeats.append (hblocks.mono fun e he => ?_)
    have := he.append (endings c₀.machines c₀.splitAll n (ops ++ blocks))
    simpa only [append_assoc] using this
  exact hall.1 e (mem_again_of_blocks hk he)

mutual

/-- What a careful statement evaluates again is harmless. -/
theorem Becomes.repeats {c₀ c c' : Cutter} {t : Tree} {ts : List Tree}
    (h : Becomes c t ts c') (hl : Later c₀ c) (hu : t.uncut = true) {loop : Bool} {pre : List Event}
    (hs : t.careful c₀ kept loop (young [] pre) = true) (hopen : loop = true → Open pre) :
    Repeats (Harmless kept (pre ++ t.events c₀.machines c₀.splitAll))
      (ts.map (Role.statements, ·)) :=
  match h with
  | .nop hk =>
    repeats_plain (Or.inl (plain_of_kind hk rfl)) ((congrArg Kind.cuts hk).trans rfl)
  | .block hk h => by
    have hall := h.repeats hl (fun p hp => uncut_child hu hp) (careful_list hk hs) hopen
    rw [events_plain (.inl hk)]
    refine repeats_single (by rw [kind, node, hk]; decide) fun e he => ?_
    rw [again, hk] at he
    exact hall.1 e he
  | .declaration hk _ _ h => by
    have hr := allowed_of_careful hs (by rw [hk]; decide)
    rw [events_statement hk rfl, map_append]
    refine Repeats.append (harmless_row (hl.entering _) h rfl (fun p hp => uncut_child hu hp)
      (open_beginnings hopen) (allowed_operands h hr fun _ hp => hp) _) ?_
    exact (show Repeats _ [_] from repeats_plain (Or.inl (plain_of_kind hk rfl))
      ((congrArg Kind.cuts hk).trans rfl)).append repeats_pauses
  | @Becomes.machineDeclaration _ _ n m a type as as' _ hk _ hcall ha hm h => by
    have hr := allowed_of_careful hs (by rw [hk]; decide)
    have hinit := uncut_arguments (uncut_child hu (mem_cons_of_mem _ mem_cons_self))
    have hstates : c₀.machines.hasStates (m.link? .declaration) = true := by
      rw [← hl.machines]
      exact hm
    refine repeats_call (hl.entering _) h rfl hinit hcall (open_beginnings hopen) hstates hr
      (mem_cons_of_mem _ mem_cons_self) (plain_of_kind hk rfl)
      ((congrArg Kind.cuts hk).trans rfl) ?_ ?_
    · rw [operands, kind, node, hk]
      rfl
    · -- The variable is declared before the call is made, and nothing is declared in between.
      have hbegin : beginnings n = [.declare n.id] := by
        unfold beginnings
        rw [hk]
      rw [events_declaration hk, startsMachine_call hcall hstates, hbegin, events.go, events.go,
        events.go, events_type hu hk, events_call hcall ha, hstates]
      simp
  | .expression hk h => by
    have hr := allowed_of_careful hs (by rw [hk]; decide)
    rw [events_statement hk rfl, map_append]
    refine Repeats.append (harmless_row hl.fresh h rfl (fun p hp => uncut_child hu hp)
      (open_beginnings hopen) (allowed_operands h hr fun _ hp => hp) _) ?_
    exact (show Repeats _ [_] from repeats_plain (Or.inl (plain_of_kind hk rfl))
      ((congrArg Kind.cuts hk).trans rfl)).append repeats_pauses
  | @Becomes.call _ _ n m a as as' hk hcall ha h hm _ => by
    have hr := allowed_of_careful hs (by rw [hk]; decide)
    have huas := uncut_arguments (uncut_child hu mem_cons_self)
    rw [h.later.machines, hl.fresh.machines] at hm
    have hops := allowed_call hcall hr mem_cons_self
    rw [recalled_call ha hm] at hops
    rw [events_statement hk rfl, map_append, events.go, events.go, append_nil,
      events_call hcall ha, append_assoc (events.go _ _ as)]
    refine Repeats.append (harmless_row hl.fresh h rfl huas (open_beginnings hopen) hops _) ?_
    exact (show Repeats _ [_] from repeats_plain (Or.inl (plain_of_kind hk rfl))
      ((congrArg Kind.cuts hk).trans rfl)).append repeats_pauses
  | @Becomes.machineCall _ _ n m a as as' hk hcall ha h hm => by
    have hr := allowed_of_careful hs (by rw [hk]; decide)
    have huas := uncut_arguments (uncut_child hu mem_cons_self)
    rw [h.later.machines, hl.fresh.machines] at hm
    refine repeats_call hl.fresh h rfl huas hcall (open_beginnings hopen) hm hr mem_cons_self
      (plain_of_kind hk rfl) ((congrArg Kind.cuts hk).trans rfl) ?_ ?_
    · rw [operands, kind, node, hk]
      rfl
    · have hbegin : beginnings n = [] := by
        unfold beginnings
        rw [hk]
      rw [events_callStatement hk hcall ha, hm, hbegin]
      simp
  | @Becomes.wait _ _ n m a w as as' hk hcall ha h hm hb hw => by
    have hr := allowed_of_careful hs (by rw [hk]; decide)
    have huas := uncut_arguments (uncut_child hu mem_cons_self)
    have hflag : m.flag .blocking = true := by
      rw [Node.flag, hb]
      rfl
    have hbegin : beginnings n = [] := by
      unfold beginnings
      rw [hk]
    rw [h.later.machines, hl.fresh.machines] at hm
    have hops := allowed_call hcall hr mem_cons_self
    rw [recalled_call ha hm] at hops
    have hopen' := open_beginnings (n := n) hopen
    rw [hbegin, append_nil] at hops hopen' hr
    rw [events_callStatement hk hcall ha, hm, hflag, map_append]
    refine Repeats.append (harmless_row hl.fresh h rfl huas hopen' hops _) ?_
    refine repeats_single (fun hkind => ?_) ?_
    · cases hw <;> cases hkind
    · -- The arguments of the wait are awaited ones, which the statement answers for.
      refine harmless_wait hl.fresh h huas hb hw hopen' fun r hmem => hr r ?_
      rw [recalledHere, if_pos hk]
      exact mem_append_right _ (mem_flatMap.mpr ⟨_, mem_cons_self, hmem⟩)
  | @Becomes.branch _ _ _ n ops blocks ops' blocks' hk h₁ h₂ => by
    refine repeats_compound (Or.inl hk) hl.fresh h₁ rfl hu hs hopen ?_
    exact h₂.repeats (Later.trans hl.fresh h₁.later).fresh
      (fun p hp => uncut_child hu (mem_append_right _ hp))
      (careful_blocks (by rw [hk]; decide) hs)
      fun hloop => (open_beginnings hopen hloop).append h₁.flat.balanced
  | @Becomes.loop _ _ _ n ops blocks ops' blocks' _ hk h₁ h₂ _ => by
    have hne : n.kind ≠ .statementList := by
      intro h
      rw [h] at hk
      cases hk
    refine repeats_compound (Or.inr hk) (hl.entering _) h₁ rfl hu hs hopen ?_
    exact h₂.repeats (Later.trans (hl.entering _) h₁.later).fresh
      (fun p hp => uncut_child hu (mem_append_right _ hp)) (careful_blocks hne hs)
      fun hloop => (open_beginnings hopen hloop).append h₁.flat.balanced
  | .leave hk h => by
    have hr := allowed_of_careful hs (by rw [hk]; decide)
    rw [events_statement hk rfl, map_append, map_append]
    refine (Repeats.append (harmless_row hl.fresh h rfl (fun p hp => uncut_child hu hp)
      (open_beginnings hopen) (allowed_operands h hr fun _ hp => hp) _) ?_).append
      (repeats_plain (Or.inr hk) ((congrArg Kind.cuts hk).trans rfl))
    unfold resets
    split
    · exact repeats_nil
    · exact repeats_plain (Or.inl rfl) rfl

theorem BecomesAll.repeats {c₀ c c' : Cutter} {cs cs' : Children}
    (h : BecomesAll c cs cs' c') (hl : Later c₀ c) (hu : ∀ p ∈ cs, p.2.uncut = true) {loop : Bool}
    {pre : List Event} (hs : careful.go c₀ kept true loop (young [] pre) cs = true)
    (hopen : loop = true → Open pre) :
    Repeats (Harmless kept (pre ++ events.go c₀.machines c₀.splitAll cs)) cs' :=
  match h with
  | .nil => repeats_nil
  | .cons h hrest => by
    obtain ⟨hut, hu⟩ := forall_mem_cons.mp hu
    obtain ⟨hst, hs⟩ := careful_go_cons hs (Or.inl rfl)
    rw [← young_append] at hs
    rw [events.go, ← append_assoc]
    refine ((h.repeats hl hut hst hopen).mono fun e he => he.append _).append ?_
    exact hrest.repeats (hl.trans h.later) hu hs fun hloop =>
      (hopen hloop).append (balanced_events _)

theorem BecomesBlocks.repeats {c₀ c c' : Cutter} {cs cs' : Children}
    (h : BecomesBlocks c cs cs' c') (hl : Later c₀ c) (hu : ∀ p ∈ cs, p.2.uncut = true)
    {loop : Bool} {pre : List Event} (hs : careful.go c₀ kept false loop (young [] pre) cs = true)
    (hopen : loop = true → Open pre) :
    Repeats (Harmless kept (pre ++ events.go c₀.machines c₀.splitAll cs)) cs' :=
  match h with
  | .nil => repeats_nil
  | .cons hk h hrest => by
    obtain ⟨hut, hu⟩ := forall_mem_cons.mp hu
    obtain ⟨hst, hs⟩ := careful_go_cons hs (Or.inr hk)
    rw [← young_append] at hs
    have hblock := h.repeats hl (fun p hp => uncut_child hut hp) (careful_list hk hst) hopen
    rw [events.go, ← append_assoc]
    refine (show Repeats _ [_] from repeats_single (by rw [kind, node, hk]; decide)
      fun e he => ?_).append (hrest.repeats (hl.trans h.later) hu hs fun hloop =>
        (hopen hloop).append (balanced_events _))
    rw [again, hk] at he
    refine Harmless.append ?_ _
    rw [events_plain (.inl hk)]
    exact hblock.1 e he

end

/-! ## Names -/

section Names

variable {g : Node → Node}

theorem changes_renamed (hg : Renames g) (n : Node) : (g n).changes = n.changes := by
  unfold Node.changes Node.target?
  rw [hg.kind, hg.sign]

theorem calm_mapNodes (hg : Renames g) (t : Tree) : (t.mapNodes g).calm = t.calm := by
  induction t using ofChildren with
  | step n cs ih =>
    have hgo : calm.go (mapNodes.go g cs) = calm.go cs := go_mapNodes (congrArg₂ and) ih
    rw [mapNodes, calm, calm, changes_renamed hg, hgo]

theorem uses_mapNodes (hg : Renames g) (t : Tree) : (t.mapNodes g).uses = t.uses := by
  induction t using ofChildren with
  | step n cs ih =>
    have hgo : uses.go (mapNodes.go g cs) = uses.go cs := go_mapNodes (congrArg₂ (· ++ ·)) ih
    rw [mapNodes, uses, uses, hg.kind, hg.link?, hgo]

theorem again_go_mapNodes (hg : Renames g)
    (ih : ∀ p ∈ cs, (p.2.mapNodes g).again = p.2.again.map (mapNodes g)) (resumed : Bool) :
    again.inList resumed (mapNodes.go g cs) = (again.inList resumed cs).map (mapNodes g) := by
  induction cs generalizing resumed with
  | nil => rfl
  | cons p cs ihcs =>
    obtain ⟨r, t⟩ := p
    obtain ⟨ht, hcs⟩ := forall_mem_cons.mp ih
    have hargs : (run (t.mapNodes g)).operands.flatMap argumentsOf =
        ((run t).operands.flatMap argumentsOf).map (mapNodes g) := by
      rw [(operands_mapNodes hg t).1, flatMap_map, map_flatMap]
      exact congrArg ((run t).operands.flatMap ·) (funext argumentsOf_mapNodes)
    rw [mapNodes.go, again.inList, again.inList, ht, hg.kind_mapNodes, ihcs hcs, hargs,
      map_append, map_append]
    split <;> rfl

/-- Names do not matter for what is evaluated again. -/
theorem again_mapNodes (hg : Renames g) (t : Tree) :
    (t.mapNodes g).again = t.again.map (mapNodes g) := by
  induction t using ofChildren with
  | step n cs ih =>
    have hargs := argumentsOf_mapNodes (g := g) (Tree.mk n cs)
    have hpart := child?_mapNodes (g := g) (Tree.mk n cs) .expression
    rw [mapNodes] at hargs hpart ⊢
    rw [again, hg.kind, again]
    split
    case h_1 => rw [hargs, map_take]
    case h_2 =>
      rw [hpart, Option.toList_map, flatMap_map, map_flatMap]
      exact congrArg (((Tree.mk n cs).child? .expression).toList.flatMap ·)
        (funext argumentsOf_mapNodes)
    case h_3 | h_4 | h_5 | h_6 | h_7 => exact again_go_mapNodes hg ih false
    case h_8 => rfl

theorem Harmless.renamed (hg : Renames g) (h : Harmless kept es e) :
    Harmless kept es (e.mapNodes g) := by
  rw [Harmless, calm_mapNodes hg, uses_mapNodes hg]
  exact h

theorem Repeats.renamed (hg : Renames g) (h : Repeats (Harmless kept es) cs) :
    Repeats (Harmless kept es) (mapNodes.go g cs) := by
  constructor
  · intro e he
    rw [again_go_mapNodes hg fun p _ => again_mapNodes hg p.2] at he
    obtain ⟨e', he', rfl⟩ := mem_map.mp he
    exact (h.1 e' he').renamed hg
  · have hsame : ∀ (cs : Children) resumed,
        resumes resumed (mapNodes.go g cs) = resumes resumed cs := by
      intro cs
      induction cs with
      | nil => exact fun _ => rfl
      | cons p cs ih =>
        intro resumed
        rw [mapNodes.go, resumes, resumes, hg.kind_mapNodes, ih]
    rw [hsame, h.2]

end Names

/-! ## Functions -/

/-- The statements of a function behind its prologue. -/
def visitedStatements (f : Tree) : Children :=
  match f.child? .body with
  | some b => b.children.drop ((prologue (b.children.map (·.2))).toOption.getD 0)
  | none => []

/-- The course of these statements. -/
def courseOf (c : Cutter) (f : Tree) : List Event :=
  events.go c.machines c.splitAll (visitedStatements f)

/-- The variables that are kept at the end of a course. -/
def keptBy (es : List Event) : List NodeId :=
  match Moment.run ⟨{}, 0⟩ es with
  | .ok m => m.known.kept
  | .error _ => []

/-- Whether every use of a variable stands behind its declaration, and what a function evaluates
again behind its labels changes nothing and uses a variable only behind a label since its
declaration, or in a loop, or if it is kept for another use. -/
def repeatable (c : Cutter) (f : Tree) : Bool :=
  ordered (courseOf c f) &&
    careful.go c (keptBy (courseOf c f)) true false [] (visitedStatements f)

/-- A variable that is not lost at a label: it moved into the structure of the machine, or it is not
declared in the statements that are visited. -/
def Survives (f : Tree) (c : Cutter) (v : NodeId) : Prop :=
  Moved f (definition f c).2.machines v ∨ Event.declare v ∉ courseOf c f

/-- Whether a list is careful depends on the machines, the index and the option only. -/
theorem careful_congr (hm : c'.machines = c.machines) (hi : c'.index = c.index)
    (hs : c'.splitAll = c.splitAll) (all loop : Bool) (vs : List NodeId) (cs : Children) :
    careful.go c' kept all loop vs cs = careful.go c kept all loop vs cs := by
  have hsleeps : sleeps c' = sleeps c := by
    funext m
    rw [sleeps, hi, sleeps]
  have hhere : ∀ loop vs n cs,
      carefulHere c' kept loop vs n cs = carefulHere c kept loop vs n cs := by
    intro loop vs n cs
    have hawaited : awaited c' = awaited c := by
      funext call
      rw [awaited, hsleeps, awaited]
    rw [carefulHere, recalledHere, hm, hawaited, carefulHere, recalledHere]
  -- Lists and trees are nested, so the list is done first, for any trees that agree.
  have hgo : ∀ {cs : Children}, (∀ p ∈ cs, ∀ loop vs,
      p.2.careful c' kept loop vs = p.2.careful c kept loop vs) → ∀ all loop vs,
        careful.go c' kept all loop vs cs = careful.go c kept all loop vs cs := by
    intro cs ih
    induction cs with
    | nil => exact fun _ _ _ => rfl
    | cons p cs ihcs =>
      intro all loop vs
      obtain ⟨ihp, ih⟩ := forall_mem_cons.mp ih
      rw [careful.go, careful.go, ihp, hm, hs, ihcs ih]
  have htree : ∀ (t : Tree) loop vs, t.careful c' kept loop vs = t.careful c kept loop vs := by
    intro t
    induction t using ofChildren with
    | step n cs ih =>
      intro loop vs
      rw [careful, careful, hhere, hgo ih]
  exact hgo (fun p _ => htree p.2) all loop vs

theorem mem_keptBy (hb : Balanced es) {v : NodeId} (hv : v ∈ keptBy es) : Outlives es v := by
  unfold keptBy at hv
  split at hv
  · next m h => exact (mem_kept_iff hb h).mp hv
  · cases hv

/-- What the body of a function evaluates again changes nothing and uses variables that are not
lost. -/
theorem CutsBody.repeats {f body : Tree} (h : CutsBody c f body c') (hcut : body.isCut = true)
    (hs : repeatable c f = true) :
    ∀ e ∈ body.again, e.calm = true ∧
      ∀ v ∈ e.uses, Event.declare v ∈ courseOf c f → Moved f c'.machines v := by
  cases h with
  | uncut h =>
    rw [not_isCut_of_marks h] at hcut
    cases hcut
  | @machine c₁ _ main b first d cs rest last skip o g hf hd hb hu hskip h hfirst hg hm hlast =>
    have hvisited : visitedStatements f = cs.drop skip := by
      rw [visitedStatements, hf]
      simp only [Tree.children, hskip]
      rfl
    have huncut : ∀ p ∈ cs.drop skip, p.2.uncut = true := fun p hp =>
      uncut_child hu (mem_of_mem_drop hp)
    have hbalanced : Balanced (courseOf c f) := balanced_go _ _ _
    rw [repeatable, Bool.and_eq_true] at hs
    -- The rows of the statements that are visited.
    have hrest : Repeats (Harmless (keptBy (courseOf c f)) (courseOf c f)) rest := by
      rw [courseOf, hvisited] at hs ⊢
      have hcareful : careful.go (entered c.fresh)
          (keptBy (events.go c.machines c.splitAll (cs.drop skip))) true false (young [] [])
          (cs.drop skip) = true :=
        (@careful_congr c (entered c.fresh) _ rfl rfl rfl _ _ _ _).trans hs.2
      exact h.repeats (Later.refl _) huncut hcareful (absurd · Bool.false_ne_true)
    have hentrance : ∀ {P}, Repeats P
        (entrance first (dispatchNode c₁.log.nextId o c₁.states main) skip cs) := by
      intro P
      have hmarks := (marks_eq_nil_iff.mp (marks_of_uncut hu)).2
      have hent := @plain_entrance o _ f main first c₁.log.nextId c₁.states _ hfirst hskip hmarks
      exact repeats_of_plain fun p hp => ⟨(hent p hp).1, cuts_of_not_isCut (hent p hp).2⟩
    have hlast' : ∀ {P}, Repeats P last := by
      intro P
      cases hlast with
      | none => exact repeats_nil
      | reset => exact repeats_plain (Or.inl rfl) rfl
    have hall := ((hentrance.append hrest).renamed hg).append hlast'
    -- A variable that is used so outlives its state.
    have hkept : ∀ v, Outlives (courseOf c f) v → Moved f c'.machines v := by
      intro v hv
      obtain ⟨m, hmem, hfunction, hkept⟩ := mem_of_add hm
      obtain ⟨c₂, hcuts, hc₂⟩ := h.cuts
      have hrun := hcuts.run huncut
      refine ⟨m, hmem, ?_, ?_⟩
      · rw [hd, hfunction]
        rfl
      · rw [hkept, hc₂]
        rw [courseOf, hvisited] at hbalanced hv
        exact (mem_kept_iff hbalanced hrun).mpr hv
    intro e he
    rw [again, show (g b).kind = _ from (hg.kind b).trans hb] at he
    obtain ⟨hcalm, huses⟩ := hall.1 e he
    refine ⟨hcalm, fun v hv hdecl => hkept v ?_⟩
    rcases huses v hv with hk | hsafe
    · exact mem_keptBy hbalanced hk
    · exact hsafe.outlives hs.1 hdecl

/-- Whatever a function with states evaluates again behind a label assigns to nothing and uses no
variable that was lost. So it has the value that it had, and leaves all variables as they are. This
holds for a function in which each such expression assigns to nothing in the first place, and in
which a label stands between the declaration of a variable and its use there, if the use is not in a
loop and no other one calls for the variable. -/
theorem definition_repeats {f body e : Tree} {c : Cutter} (hu : f.uncut = true)
    (hk : f.kind = .functionDefinition) (hf : (definition f c).2.fault = none)
    (hb : (definition f c).1.child? .body = some body) (hcut : body.isCut = true)
    (hs : repeatable c f = true) (he : e ∈ body.again) :
    e.calm = true ∧ (∀ v ∈ e.uses, Survives f c v) ∧
      ∀ (L : Language) (shared : List NodeId) (s s' : Store L), Alike (Survives f c) s s' →
        Option.Rel (fun p q => q.1 = p.1 ∧ Alike (Survives f c) p.2 q.2)
          ((e.meaning L shared).value s) ((e.meaning L shared).value s') ∧
        ∀ x s₁, (e.meaning L shared).value s = some (x, s₁) →
          ∀ v, v ∉ e.addressed → s₁.cells v = s.cells v := by
  obtain ⟨hcalm, huses⟩ := (cutsBody_of_definition hu hk hf hb).repeats hcut hs e he
  have hlive : ∀ v ∈ e.uses, Survives f c v := by
    intro v hv
    -- A variable that is not declared on the way is found again anyhow.
    by_cases hd : Event.declare v ∈ courseOf c f
    · exact Or.inl (huses v hv hd)
    · exact Or.inr hd
  refine ⟨hcalm, hlive, fun L shared s s' hss => ?_⟩
  have hsane := (sane_meaning (L := L) shared e).value
  refine ⟨hsane.alike hlive hss, fun x s₁ hx v hv => ?_⟩
  exact hsane.frame hx fun htarget => hv (addressed_of_target hcalm htarget)

end Cutting

namespace Sample

/-- The handler of the example, which declares a variable and passes an argument to a function,
maybe after something else. -/
def passing (between : List Tree) (argument : Tree) : Tree :=
  handler.mapRole .body fun _ =>
    .mk (node 19 .statementList) (
      (.statements, .mk ((node 20 .variableDeclaration).named "i") [(.declaredType, type 21),
        (.initializer, zero 22)]) ::
      between.map (Role.statements, ·) ++ [
      (.statements, .mk (node 23 .callStatement) [
        (.expression, call 24 51 25 "get" false [argument])]),
      (.statements, .mk (node 33 .returnStatement) [(.expression, zero 34)])])

/-- The expression `i++`. -/
def incremented : Tree :=
  .mk ((node 30 .postUnary).setText .operator (some "post++")) [(.expression, used 31 20 "i"),
    (.argumentList, .mk (node 32 .argumentList) [])]

/-- The statement `papi_sleep(0)`. -/
def pause : Tree :=
  .mk (node 26 .callStatement) [(.expression, call 27 50 28 "papi_sleep" true [zero 29])]

end Sample

namespace Cutting

/-- The variable is kept if the handler sleeps before it passes the variable on. -/
theorem passing_repeats :
    let f := Sample.passing [Sample.pause] (Sample.used 30 20 "i")
    let c := callingCutter false
    repeatable c f = true ∧ ∃ e ∈ (bodyOf f c).again, 20 ∈ e.uses ∧
      Event.declare 20 ∈ courseOf c f ∧ Survives f c 20 := by
  intro f c
  have hmem : ∃ e ∈ (bodyOf f c).again, 20 ∈ e.uses := by decide +kernel
  obtain ⟨e, he, hv⟩ := hmem
  refine ⟨by decide +kernel, e, he, hv, by decide +kernel, ?_⟩
  exact (definition_repeats (f := f) (c := c) (by decide +kernel) rfl (by decide +kernel)
    (bodyOf_eq (by decide +kernel)) (by decide +kernel) (by decide +kernel) he).2.1 20 hv

/-- A variable that was just declared is lost at the label before the call that it is passed to, and
the call assigns to it once more. -/
theorem argument_lost :
    let f := Sample.passing [] Sample.incremented
    let c := callingCutter false
    f.uncut = true ∧ (definition f c).2.fault = none ∧ (bodyOf f c).isCut = true ∧
      ∃ e ∈ (bodyOf f c).again, e.calm = false ∧ 20 ∈ e.uses ∧
        Event.declare 20 ∈ courseOf c f ∧ ¬ Moved f (definition f c).2.machines 20 := by
  intro f c
  have hmem : ∃ e ∈ (bodyOf f c).again, e.calm = false ∧ 20 ∈ e.uses := by decide +kernel
  obtain ⟨e, he, hcalm, hv⟩ := hmem
  refine ⟨by decide +kernel, by decide +kernel, by decide +kernel, e, he, hcalm, hv,
    by decide +kernel, ?_⟩
  rintro ⟨m, hm, -, hkept⟩
  have hnone : ∀ m ∈ (definition f c).2.machines.list, 20 ∉ m.kept := by decide +kernel
  exact hnone m hm hkept

end Cutting

end Resumable
