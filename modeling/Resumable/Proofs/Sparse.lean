import Resumable.Proofs.Outliving
import Resumable.Proofs.Resetting
import Resumable.Proofs.Restoration
import Resumable.Proofs.Temporaries

/-!
# Functions whose results are not lost

Each call that is taken out of an expression brings a label with it. A second call of the same
statement therefore loses the result of the first one, and so does every other label between a call
and the place where its result is read.

* `Cutting.CutsOperand.backing`: an expression with one call reads its result right behind the call.
* `Cutting.Becomes.backed`: the statements that are made of a sparse one find their results.
* `Cutting.definition_reads_results`: in a sparse function no result is lost.
* `Cutting.second_call_loses_first`: with two calls in an expression the first result is lost.
-/

namespace Resumable

open List hiding iterate

open Job Event

variable {c c' c₀ c₁ : Cutter} {n a m w : Node} {cs as blocks ops ops' blocks' xs : Children}
  {rs : List NodeId} {t : Tree} {stmt o : Origin} {p : Role × Tree} {r : Role}

namespace Tree

/-! ## Labels in the source -/

/-- The number of labels that come from some parts of a statement. -/
def cuts (c : Cutter) (cs : Children) : Nat :=
  (events.go c.machines c.splitAll cs).count cut

/-- The parts of a statement that are no blocks. -/
def operandsIn (cs : Children) : Children :=
  cs.filter (·.2.kind != .statementList)

/-- The blocks of a statement. -/
def blocksIn (cs : Children) : Children :=
  cs.filter (·.2.kind == .statementList)

/-- Whether a call waits for some time, and not for a transfer. -/
def sleeps (c : Cutter) (call : Node) : Bool :=
  ((call.link? .declaration).bind c.index.get?).any fun d =>
    (d.node.text .name).toOption == some (some Cutting.sleepFunction)

/-- The first argument of a call. -/
def firstArgument (as : Children) : Children :=
  (as.filter (·.1 == .arguments)).take 1

/-- What a statement may not do itself: have two calls that are taken out of it, have one in the
first argument of a wait for a transfer, which is evaluated again behind its label, or have one in
what is evaluated in each round of a loop with labels. Then this is false. -/
def sparseHere (c : Cutter) (n : Node) (cs : Children) : Bool :=
  decide (cuts c (operandsIn cs) ≤ 1) &&
    match n.kind with
    | .callStatement =>
      cs.all fun p => !p.2.node.flag .blocking || sleeps c p.2.node ||
        p.2.children.all fun q => cuts c (firstArgument q.2.children) == 0
    | .whileLoop | .doWhileLoop | .forLoop =>
      cuts c (blocksIn cs) == 0 || cuts c ((operandsIn cs).filter (·.1 != .start)) == 0
    | _ => true

/-- No statement has a label between a call that is taken out of it and the place where its result
is read. -/
def sparse (c : Cutter) : Tree → Bool
  | mk n cs => (n.kind == .statementList || sparseHere c n cs) && go (n.kind == .statementList) cs
where
  go (all : Bool) : Children → Bool
    | [] => true
    | (_, t) :: rest => (!(all || t.kind == .statementList) || t.sparse c) && go all rest

/-! ## Results that are read -/

/-- A source reads no kept results. -/
theorem reads_of_uncut (h : t.uncut = true) : t.reads = [] := by
  induction t using ofChildren with
  | step n cs ih =>
    have hk : n.kind ≠ .callSubResult := by
      intro hk
      have hins := uncut_inserted h
      rw [hk] at hins
      cases hins
    rw [reads, if_neg hk, gathers_reads.eq_nil.mpr fun p hp => ih p hp (uncut_child h hp)]
    exact ite_self []

theorem reads_go_of_uncut (h : (mk n cs).uncut = true) : reads.go cs = [] :=
  gathers_reads.eq_nil.mpr fun _ hp => reads_of_uncut (uncut_child h hp)

theorem reads_block (hk : n.kind = .statementList) : (mk n cs).reads = [] := by
  rw [reads, if_pos hk]

theorem reads_of_kind {k : Kind} (hk : n.kind = k) (hs : k ≠ .statementList)
    (hr : k ≠ .callSubResult) : (mk n cs).reads = reads.go cs := by
  rw [reads, hk, if_neg hs, if_neg hr, nil_append]

theorem reads_inner (hk : n.kind.inner = true) : (mk n cs).reads = reads.go cs := by
  refine reads_of_kind rfl ?_ ?_
  · intro h
    rw [h] at hk
    cases hk
  · intro h
    rw [h] at hk
    cases hk

theorem reads_call (hk : n.kind = .call) (ha : a.kind = .argumentList) :
    (mk n [(r, mk a as)]).reads = reads.go as := by
  rw [reads_of_kind hk (by decide) (by decide), reads.go, reads.go,
    reads_of_kind ha (by decide) (by decide), append_nil]

theorem reads_withMachine {id : NodeId} (hk : n.kind = .call) (ha : a.kind = .argumentList) :
    (Cutting.withMachine id (mk n [(.argumentList, mk a as)])).reads = reads.go as := by
  have hnew : (mk (.blank id .machineArgument (mk n [(.argumentList, mk a as)]).origin) []).reads =
      [] := rfl
  simp only [Cutting.withMachine, mapRole, List.map, if_true, insertAt, node, children]
  rw [reads_call hk ha, take_zero, nil_append, drop_zero, reads.go, hnew,
    nil_append]

end Tree

open Resumable.Tree

theorem Job.run_reads (hs : t.kind ≠ .papiSleep) (hw : t.kind ≠ .papiWait) :
    (run t).reads ⊆ reads.go t.children := by
  have hpart : ∀ r, ((t.child? r).toList.flatMap Tree.reads) ⊆ reads.go t.children := by
    intro r
    cases hr : t.child? r with
    | none => exact nil_subset _
    | some e => simpa using reads_child hr
  rw [Job.reads, operands]
  split
  case h_1 | h_2 | h_3 | h_4 | h_5 | h_6 => exact hpart _
  case h_7 hk => exact absurd hk hs
  case h_8 hk => exact absurd hk hw
  case h_9 => exact nil_subset _

theorem Job.wait_reads (hw : t.kind ≠ .papiWait) : (wait t).reads = [] := by
  rw [Job.reads, operands, if_neg hw]
  rfl

/-! ## Rows -/

namespace Tree

theorem backed_append {ys : Children} (hx : backed.inList rs xs) (hy : backed.inList [] ys) :
    backed.inList rs (xs ++ ys) := by
  induction xs generalizing rs with
  | nil => exact backed_list_mono (nil_subset _) hy
  | cons p xs ih => exact ⟨hx.1, ih hx.2⟩

theorem backed_of_parts (hk : t.kind.plain = true ∨ t.kind = .returnStatement)
    (hc : t.kind.cuts = false) (hr : reads.go t.children ⊆ rs) : t.backed rs := by
  obtain ⟨n, cs⟩ := t
  have hne : ∀ k : Kind, k.cuts = true → n.kind ≠ k := by
    rintro k hk rfl
    rw [show n.kind.cuts = false from hc] at hk
    cases hk
  have hfall : (run (mk n cs)).reads ⊆ rs ∧ (wait (mk n cs)).reads = [] :=
    ⟨List.Subset.trans (run_reads (hne _ rfl) (hne _ rfl)) hr, wait_reads (hne _ rfl)⟩
  -- The kinds with blocks of their own are neither plain nor `return`.
  have hcompound : ∀ k : Kind, n.kind = k → k.plain = false → k ≠ .returnStatement → False := by
    rintro k rfl hp hne
    rcases hk with hk | hk
    · rw [show n.kind.plain = true from hk] at hp
      cases hp
    · exact hne hk
  rw [backed]
  split
  case h_1 hk | h_2 hk | h_3 hk | h_4 hk | h_5 hk => exact (hcompound _ hk rfl (by decide)).elim
  case h_6 hk => exact absurd hk (hne _ rfl)
  case h_7 => exact hfall

end Tree

namespace Cutting

/-- What stands before a statement backs the results that are read in it: there is nothing, or one
call that was taken out. -/
def Backing (bs : List Tree) (rs : List NodeId) : Prop :=
  bs = [] ∧ rs = [] ∨ ∃ s, bs = [s] ∧ s.kind = .callSub ∧ (Job.call s).reads = [] ∧ rs ⊆ [s.id]

theorem backed_row {bs ts : List Tree} (hb : Backing bs rs)
    (h : ∀ rs', rs ⊆ rs' → backed.inList rs' (ts.map (Role.statements, ·))) :
    backed.inList [] ((bs ++ ts).map (Role.statements, ·)) := by
  rcases hb with ⟨rfl, rfl⟩ | ⟨s, rfl, hk, hs, hrs⟩
  · exact h [] (List.Subset.refl _)
  · obtain ⟨n, cs⟩ := s
    have hready : (Tree.mk n cs).ready [] = [(Tree.mk n cs).id] := by
      rw [Tree.ready, if_pos hk]
    refine ⟨?_, hready ▸ h _ hrs⟩
    simp only [Tree.backed, show n.kind = _ from hk]
    exact hs

section Operands

mutual

/-- An expression without calls that are cut is kept, and nothing is put before it. -/
theorem CutsOperand.silent {stmt : Origin} {c c' : Cutter} {t t' : Tree}
    (h : CutsOperand stmt c t t' c') (hr : t.reads = [])
    (hn : (t.events c.machines c.splitAll).count cut = 0) : c'.before = c.before ∧ t'.reads = [] :=
  match h with
  | .bare _ => ⟨rfl, hr⟩
  | .use _ => ⟨rfl, hr⟩
  | .inner hk h => by
    rw [reads_inner hk] at hr ⊢
    rw [events_inner hk] at hn
    exact h.silent hr hn
  | .call hk ha h _ => by
    rw [reads_call hk ha] at hr ⊢
    rw [events_call hk ha, count_append] at hn
    exact h.silent hr (by omega)
  | .taken hk ha h hm => by
    rw [h.later.machines] at hm
    rw [events_call hk ha, hm, if_pos rfl, count_append, count_singleton_self] at hn
    omega

/-- Nor is anything put before a list of them. -/
theorem CutsOperands.silent {stmt : Origin} {c c' : Cutter} {cs cs' : Children}
    (h : CutsOperands stmt c cs cs' c') (hr : reads.go cs = [])
    (hn : (events.go c.machines c.splitAll cs).count cut = 0) :
    c'.before = c.before ∧ reads.go cs' = [] :=
  match h with
  | .nil => ⟨rfl, rfl⟩
  | .cons h hs => by
    rw [reads.go, append_eq_nil_iff] at hr
    rw [events.go, count_append] at hn
    obtain ⟨hb, ht⟩ := h.silent hr.1 (by omega)
    obtain ⟨hb', hcs⟩ := hs.silent hr.2 (by
      rw [h.later.machines, h.later.splitAll]
      omega)
    exact ⟨hb'.trans hb, by rw [reads.go, ht, hcs]; rfl⟩

end

mutual

/-- Operands with at most one label put at most one call before their statement, and read its
result. -/
theorem CutsOperand.backing {stmt : Origin} {c c' : Cutter} {t t' : Tree}
    (h : CutsOperand stmt c t t' c') (hr : t.reads = [])
    (hn : (t.events c.machines c.splitAll).count cut ≤ 1) :
    ∃ bs, c'.before = c.before ++ bs ∧ Backing bs t'.reads :=
  match h with
  | .bare _ | .use _ => ⟨[], (append_nil _).symm, Or.inl ⟨rfl, hr⟩⟩
  | .inner hk h => by
    rw [reads_inner hk] at hr ⊢
    rw [events_inner hk] at hn
    exact h.backing hr hn
  | .call hk ha h _ => by
    rw [reads_call hk ha] at hr ⊢
    rw [events_call hk ha, count_append] at hn
    exact h.backing hr (by omega)
  | .taken hk ha h hm => by
    rw [reads_call hk ha] at hr
    rw [h.later.machines] at hm
    rw [events_call hk ha, hm, if_pos rfl, count_append, count_singleton_self] at hn
    -- The arguments of the call hold no other one.
    obtain ⟨hb, has⟩ := h.silent hr (by omega)
    refine ⟨_, congrArg (· ++ _) hb, Or.inr ⟨_, rfl, rfl, ?_, List.Subset.refl _⟩⟩
    change [withMachine _ _].flatMap Tree.reads = []
    rw [flatMap_singleton, reads_withMachine hk ha, has]

/-- The same for a list with at most one call that is cut. -/
theorem CutsOperands.backing {stmt : Origin} {c c' : Cutter} {cs cs' : Children}
    (h : CutsOperands stmt c cs cs' c') (hr : reads.go cs = [])
    (hn : (events.go c.machines c.splitAll cs).count cut ≤ 1) :
    ∃ bs, c'.before = c.before ++ bs ∧ Backing bs (reads.go cs') :=
  match h with
  | .nil => ⟨[], (append_nil _).symm, Or.inl ⟨rfl, rfl⟩⟩
  | @CutsOperands.cons _ c _ _ _ t _ _ _ h hs => by
    rw [reads.go, append_eq_nil_iff] at hr
    rw [events.go, count_append] at hn
    -- Only one operand can have the cut: this one or one of the rest.
    by_cases hfirst : (t.events c.machines c.splitAll).count cut = 0
    · obtain ⟨hb, ht⟩ := h.silent hr.1 hfirst
      obtain ⟨bs, hbs, hback⟩ := hs.backing hr.2 (by
        rw [h.later.machines, h.later.splitAll]
        omega)
      refine ⟨bs, hb ▸ hbs, ?_⟩
      rwa [reads.go, ht, nil_append]
    · obtain ⟨bs, hbs, hback⟩ := h.backing hr.1 (by omega)
      obtain ⟨hb, hcs⟩ := hs.silent hr.2 (by
        rw [h.later.machines, h.later.splitAll]
        omega)
      refine ⟨bs, hb.trans hbs, ?_⟩
      rwa [reads.go, hcs, append_nil]

end

theorem CutsOperands.silent_filter {P : Role → Bool} : ∀ {stmt : Origin} {c c' : Cutter}
    {cs cs' : Children}, CutsOperands stmt c cs cs' c' → reads.go cs = [] →
      (events.go c.machines c.splitAll (cs.filter fun p => P p.1)).count cut = 0 →
        ∀ r e, P r = true → cs'.lookup r = some e → e.reads = []
  | _, _, _, _, _, .nil, _, _, _, _, _, he => by cases he
  | _, _, _, _, _, @CutsOperands.cons _ _ _ _ r' _ _ _ _ h hs, hr, hn, r, e, hP, he => by
    rw [reads.go, append_eq_nil_iff] at hr
    rw [lookup_cons] at he
    -- The part looked up is this one or one of the rest; the cuts are counted in its role only.
    by_cases heq : r = r'
    · subst heq
      rw [filter_cons, if_pos hP, events.go, count_append] at hn
      rw [beq_self_eq_true] at he
      cases he
      exact (h.silent hr.1 (by omega)).2
    · rw [beq_false_of_ne heq] at he
      refine hs.silent_filter hr.2 ?_ r e hP he
      rw [h.later.machines, h.later.splitAll]
      cases hP' : P r' with
      | true =>
        rw [filter_cons, if_pos hP', events.go, count_append] at hn
        omega
      | false => rwa [filter_cons, if_neg (by simp [hP'])] at hn

theorem CutsOperands.silent_first {stmt : Origin} {c c' : Cutter} {cs cs' : Children}
    (h : CutsOperands stmt c cs cs' c') (hr : reads.go cs = [])
    (hn : (events.go c.machines c.splitAll (firstArgument cs)).count cut = 0) (a : Node) :
    (((Tree.mk a cs').inRole .arguments).take 1).flatMap Tree.reads = [] := by
  induction h using CutsOperands.row_induction with
  | nil => rfl
  | @cons _ _ _ r _ _ cs cs' h hs ih =>
    rw [reads.go, append_eq_nil_iff] at hr
    rw [firstArgument] at hn
    by_cases heq : r = .arguments
    · subst heq
      rw [filter_cons_of_pos rfl, take_succ_cons, take_zero, events.go, events.go,
        append_nil] at hn
      simp [inRole, Tree.children, (h.silent hr.1 hn).2]
    · rw [filter_cons_of_neg (by simpa using heq)] at hn
      have hrest := ih hr.2 (by
        rw [h.later.machines, h.later.splitAll]
        exact hn)
      simpa [inRole, Tree.children, heq] using hrest

theorem CutsOperands.operandsIn {stmt : Origin} {c c' : Cutter} {cs cs' : Children}
    (h : CutsOperands stmt c cs cs' c') : Tree.operandsIn cs = cs ∧ blocksIn cs = [] := by
  induction h using CutsOperands.row_induction with
  | nil => exact ⟨rfl, rfl⟩
  | @cons _ _ _ r t _ cs _ h hs ih =>
    have hk : t.kind ≠ .statementList := by
      intro hk
      have hp := h.plain.1
      rw [hk] at hp
      cases hp
    obtain ⟨hops, hblocks⟩ := ih
    constructor
    · rw [Tree.operandsIn, filter_cons_of_pos (by simpa using hk)]
      exact congrArg _ hops
    · rw [blocksIn, filter_cons_of_neg (by simpa using hk)]
      exact hblocks

end Operands

/-! ## Statements -/

theorem Later.entering (h : Later c₀ c) (p : Persistence) :
    Later c₀ { c.fresh with persistence := p } :=
  ⟨h.machines, h.index, h.splitAll, h.nextId, h.states⟩

theorem Later.fresh (h : Later c₀ c) : Later c₀ c.fresh :=
  h.entering c.persistence

theorem cuts_eq (hl : Later c₀ c) (cs : Children) :
    (events.go c.machines c.splitAll cs).count cut = cuts c₀ cs := by
  rw [cuts, hl.machines, hl.splitAll]

theorem backed_pauses : backed.inList rs ((pauses o c).map (Role.statements, ·)) := by
  unfold pauses
  split
  · exact ⟨⟨nil_subset _, rfl⟩, trivial⟩
  · trivial

theorem backed_paused {bs cs : List Tree} (hb : Backing bs (reads.go t.children))
    (hk : t.kind.plain = true) (hc : t.kind.cuts = false) (hcs : cs = pauses o c) :
    backed.inList [] ((bs ++ t :: cs).map (Role.statements, ·)) := by
  refine backed_row hb fun rs hrs => ⟨backed_of_parts (Or.inl hk) hc hrs, ?_⟩
  rw [hcs]
  exact backed_pauses

theorem backed_inSub (hk : t.kind.plain = true) (hc : t.kind.cuts = false)
    (ht : reads.go t.children = []) : backed.inList [] ((inSub o c t).map (Role.statements, ·)) :=
  ⟨⟨nil_subset _, rfl⟩, backed_of_parts (Or.inl hk) hc (by rw [ht]; exact nil_subset _),
    ⟨nil_subset _, rfl⟩, trivial⟩

theorem sparseHere_of_sparse (h : (Tree.mk n cs).sparse c = true) (hk : n.kind ≠ .statementList) :
    sparseHere c n cs = true := by
  rw [sparse, Bool.and_eq_true, Bool.or_eq_true, beq_iff_eq] at h
  exact h.1.resolve_left hk

theorem cuts_le_of_sparse (h : (Tree.mk n cs).sparse c = true) (hk : n.kind ≠ .statementList) :
    cuts c (operandsIn cs) ≤ 1 := by
  have hhere := sparseHere_of_sparse h hk
  rw [sparseHere, Bool.and_eq_true, decide_eq_true_eq] at hhere
  exact hhere.1

theorem sparse_go_mem {all : Bool} (h : sparse.go c all cs = true) (hp : p ∈ cs)
    (hk : all = true ∨ p.2.kind = .statementList) : p.2.sparse c = true := by
  induction cs with
  | nil => cases hp
  | cons q cs ih =>
    rw [sparse.go, Bool.and_eq_true] at h
    rcases mem_cons.mp hp with rfl | hp
    · have hvisited : (all || p.2.kind == .statementList) = true := by
        rw [Bool.or_eq_true, beq_iff_eq]
        exact hk
      have hthis := h.1
      rw [hvisited, Bool.not_true, Bool.false_or] at hthis
      exact hthis
    · exact ih h.2 hp

theorem sparse_statement (h : (Tree.mk n cs).sparse c = true) (hk : n.kind = .statementList)
    (hp : p ∈ cs) : p.2.sparse c = true := by
  rw [sparse, Bool.and_eq_true, hk] at h
  exact sparse_go_mem h.2 hp (Or.inl rfl)

theorem sparse_block (h : (Tree.mk n cs).sparse c = true) (hp : p ∈ cs)
    (hk : p.2.kind = .statementList) : p.2.sparse c = true := by
  rw [sparse, Bool.and_eq_true] at h
  exact sparse_go_mem h.2 hp (Or.inr hk)

theorem BecomesBlocks.blocksIn {c c' : Cutter} {cs cs' : Children}
    (h : BecomesBlocks c cs cs' c') : Tree.operandsIn cs = [] ∧ Tree.blocksIn cs = cs := by
  induction h using BecomesBlocks.row_induction with
  | nil => exact ⟨rfl, rfl⟩
  | @cons _ _ _ r n cs _ blocks _ hk h hs ih =>
    obtain ⟨hops, hblocks⟩ := ih
    have hkind : (Tree.mk n cs).kind = .statementList := hk
    constructor
    · rw [Tree.operandsIn, filter_cons_of_neg (by simp [hkind])]
      exact hops
    · rw [Tree.blocksIn, filter_cons_of_pos (by simp [hkind])]
      exact congrArg _ hblocks

/-- The operands and the blocks of a compound statement can be told apart. -/
theorem parts_of_compound {d d' : Cutter} (h₁ : CutsOperands stmt c ops ops' c')
    (h₂ : BecomesBlocks d blocks blocks' d') :
    operandsIn (ops ++ blocks) = ops ∧ blocksIn (ops ++ blocks) = blocks := by
  obtain ⟨hops, hnone⟩ := h₁.operandsIn
  obtain ⟨hnone', hblocks⟩ := h₂.blocksIn
  rw [operandsIn, blocksIn, filter_append, filter_append]
  rw [operandsIn] at hops hnone'
  rw [blocksIn] at hnone hblocks
  rw [hops, hnone', hnone, hblocks, append_nil, nil_append]
  exact ⟨rfl, rfl⟩

theorem BecomesBlocks.reads {c c' : Cutter} {cs cs' : Children}
    (h : BecomesBlocks c cs cs' c') : reads.go cs' = [] := by
  induction h using BecomesBlocks.row_induction with
  | nil => rfl
  | cons hk _ hs ih => rw [reads.go, reads_block hk, ih, append_nil]

theorem BecomesBlocks.kind : ∀ {c c' : Cutter} {cs cs' : Children},
    BecomesBlocks c cs cs' c' → ∀ p ∈ cs, p.2.kind = .statementList
  | _, _, _, _, .nil, _, hp => by cases hp
  | _, _, _, _, .cons hk _ hs, p, hp => by
    rcases mem_cons.mp hp with rfl | hp
    · exact hk
    · exact hs.kind p hp

theorem CutsOperands.backed : ∀ {stmt : Origin} {c c' : Cutter} {cs cs' : Children},
    CutsOperands stmt c cs cs' c' → ∀ p ∈ cs', ∀ rs, p.2.backed rs
  | _, _, _, _, _, .nil, _, hp, _ => by cases hp
  | _, _, _, _, _, .cons h hs, p, hp, rs => by
    rcases mem_cons.mp hp with rfl | hp
    · have hsilent : ∀ {n : Node} {cs : Children}, n.kind.bare = true ∨
          n.kind.inner = true ∨ n.kind = .variableUse ∨ n.kind = .call ∨
            n.kind = .callSubResult → (Tree.mk n cs).backed rs := by
        intro n cs hk
        rw [Tree.backed]
        cases hkind : n.kind <;> simp_all [Kind.bare, Kind.inner, Job.reads, operands, Tree.kind,
          Tree.node]
      cases h with
      | bare hk => exact hsilent (Or.inl hk)
      | use hk => exact hsilent (Or.inr (Or.inr (Or.inl hk)))
      | inner hk h => exact hsilent (Or.inr (Or.inl hk))
      | call hk ha h hm => exact hsilent (Or.inr (Or.inr (Or.inr (Or.inl hk))))
      | taken hk ha h hm => exact hsilent (Or.inr (Or.inr (Or.inr (Or.inr rfl))))
    · exact hs.backed p hp rs

theorem BecomesBlocks.states_eq {cs' : Children} (h : BecomesBlocks c cs cs' c')
    (hu : ∀ p ∈ cs, p.2.uncut = true) (hn : (events.go c.machines c.splitAll cs).count cut = 0) :
    c'.states = c.states := by
  obtain ⟨c₁, hc, rfl⟩ := h.cuts
  have hstate : (moment c₁).state =
      (moment c).state + (events.go c.machines c.splitAll cs).count cut :=
    Moment.state_run (hc.run hu)
  rw [hn] at hstate
  simpa [moment] using hstate

theorem backed_part (h : CutsOperands stmt c ops ops' c') (hb : ∀ p ∈ blocks, p.2.backed [])
    (rs : List NodeId) (r : Role) : backed.inPart rs r (ops' ++ blocks) := by
  rw [backed_inPart]
  intro b hr
  rcases mem_append.mp (mem_of_lookup hr) with hmem | hmem
  · exact h.backed _ hmem rs
  · exact backed_mono (nil_subset _) (hb _ hmem)

/-- A loop is backed if its test and its body are. -/
theorem backed_loop (hk : n.kind.loops = true) (hrun : (run (.mk n cs)).reads ⊆ rs)
    (htest : (test (.mk n cs)).reads ⊆ (Tree.mk n cs).lasting rs)
    (hiterate : (iterate (.mk n cs)).reads ⊆ (Tree.mk n cs).lasting rs)
    (hbody : backed.inPart ((Tree.mk n cs).lasting rs) .body cs) : (Tree.mk n cs).backed rs := by
  rw [Tree.backed]
  split
  case h_1 h | h_2 h | h_6 h =>
    rw [h] at hk
    cases hk
  case h_3 | h_4 | h_5 => exact ⟨hrun, htest, hiterate, hbody⟩
  case h_7 =>
    refine ⟨hrun, wait_reads ?_⟩
    intro h
    rw [show n.kind = _ from h] at hk
    cases hk

theorem round_reads {j : Job} (hj : j = test t ∨ j = iterate t) :
    ∃ r, r ≠ .start ∧ j.reads = ((t.child? r).map Tree.reads).getD [] := by
  have hreads : ∀ r, ((t.child? r).toList.flatMap Tree.reads) =
      ((t.child? r).map Tree.reads).getD [] := by
    intro r
    cases t.child? r with
    | none => rfl
    | some e => simp
  rcases hj with rfl | rfl
  · by_cases hk : t.kind = .forLoop
    · exact ⟨.condition, by decide, by simp [Job.reads, operands, hk, hreads]⟩
    · exact ⟨.expression, by decide, by simp [Job.reads, operands, hk, hreads]⟩
  · exact ⟨.iteration, by decide, hreads _⟩

theorem reads_arguments (hcall : m.kind = .call) (ha : a.kind = .argumentList)
    (hu : (Tree.mk m [(.argumentList, .mk a as)]).uncut = true) : reads.go as = [] := by
  have hread := reads_of_uncut hu
  rwa [reads_call hcall ha] at hread

theorem cuts_call (hcall : m.kind = .call) (ha : a.kind = .argumentList) :
    cuts c [(r, .mk m [(.argumentList, .mk a as)])] =
      cuts c as + (if c.machines.hasStates (m.link? .declaration) then 1 else 0) := by
  rw [cuts, events.go, events.go, append_nil, events_call hcall ha, count_append, cuts]
  split <;> rfl

theorem operandsIn_call (hcall : m.kind = .call) :
    operandsIn [(r, .mk m [(.argumentList, .mk a as)])] =
      [(r, .mk m [(.argumentList, .mk a as)])] := by
  simp [operandsIn, Tree.kind, Tree.node, hcall]

theorem reads_argumentsOf :
    (argumentsOf (.mk w [(.argumentList, .mk a as)])).flatMap Tree.reads ⊆ reads.go as := by
  intro k hk
  obtain ⟨e, he, hk⟩ := mem_flatMap.mp hk
  obtain ⟨⟨r, e'⟩, hmem, hsome⟩ := mem_filterMap.mp he
  change (if r = .arguments then some e' else none) = some e at hsome
  split at hsome
  · cases hsome
    exact reads_subset_go hmem hk
  · cases hsome

theorem not_sleeps {d : Tree} {f : String} {x : String × String}
    (hd : (m.link? .declaration).bind c.index.get? = some d)
    (hname : d.node.text .name = .ok (some f)) (hf : transferOf? f = some x) :
    sleeps c m = false := by
  have hne : f ≠ sleepFunction := by
    rintro rfl
    cases hf
  rw [sleeps, hd, Option.any_some, hname]
  simpa [Except.toOption] using hne

/-- A call of a library function that is waited for reads its first argument only. -/
theorem backed_wait {as' : Children} (hl : Later c₀ c) (h : CutsOperands stmt c as as' c₁)
    (hread : reads.go as = []) (hb : m.flags.lookup .blocking = some true) (hw : WaitNode c₁ n m w)
    (hs : (!m.flag .blocking || sleeps c₀ m || cuts c₀ (firstArgument as) == 0) = true)
    (hrs : reads.go as' ⊆ rs) : (Tree.mk w [(.argumentList, .mk a as')]).backed rs := by
  have hflag : m.flag .blocking = true := by
    rw [Node.flag, hb]
    rfl
  have hindex : c₁.index = c₀.index := h.later.index.trans hl.index
  cases hw with
  | sleep d hd hname =>
    refine ⟨List.Subset.trans (fun k hk => ?_) hrs, rfl⟩
    obtain ⟨e, he, hk⟩ := mem_flatMap.mp hk
    exact reads_argumentsOf (mem_flatMap.mpr ⟨e, mem_of_mem_take he, hk⟩)
  | transfer d hd hname hf hspot =>
    rw [hindex] at hd
    rw [hflag, not_sleeps hd hname hf, Bool.not_true, Bool.false_or, Bool.false_or, beq_iff_eq,
      ← cuts_eq hl] at hs
    exact ⟨List.Subset.trans reads_argumentsOf hrs, h.silent_first hread hs a⟩

theorem backed_of_loop {c₂ : Cutter} (hk : n.kind.loops = true) (hl : Later c₀ c)
    (h₁ : CutsOperands stmt c ops ops' c₁) (h₂ : BecomesBlocks c₁.fresh blocks blocks' c₂)
    (hb : c.before = []) (hu : (Tree.mk n (ops ++ blocks)).uncut = true)
    (hs : sparseHere c₀ n (ops ++ blocks) = true) (hblocks : ∀ p ∈ blocks', p.2.backed [])
    (hrs : reads.go ops' ⊆ rs) : (Tree.mk n (ops' ++ blocks')).backed rs := by
  have hparts : reads.go (ops' ++ blocks') ⊆ rs := by
    rwa [reads_go_append, h₂.reads, append_nil]
  have hrun : (run (.mk n (ops' ++ blocks'))).reads ⊆ rs := by
    refine List.Subset.trans (run_reads ?_ ?_) hparts
    · intro h
      rw [show n.kind = _ from h] at hk
      cases hk
    · intro h
      rw [show n.kind = _ from h] at hk
      cases hk
  have hchild : ∀ {r e}, (Tree.mk n (ops' ++ blocks')).child? r = some e → e.reads ⊆ rs :=
    fun hr => List.Subset.trans (reads_child hr) hparts
  -- What is evaluated in each round is at hand in all of them: no label is in the way, or nothing
  -- is read.
  have hround : ∀ j, j = test (.mk n (ops' ++ blocks')) ∨ j = iterate (.mk n (ops' ++ blocks')) →
      n.kind ≠ .loop → j.reads ⊆ (Tree.mk n (ops' ++ blocks')).lasting rs := by
    intro j hj hloop
    obtain ⟨hops, hblk⟩ := parts_of_compound h₁ h₂
    have hsparse : cuts c₀ blocks = 0 ∨ cuts c₀ (ops.filter (·.1 != .start)) = 0 := by
      rw [sparseHere, Bool.and_eq_true, hops, hblk] at hs
      have := hs.2
      cases hkind : n.kind <;> rw [hkind] at hk hloop this <;>
        first | exact absurd hk (by decide) | exact absurd rfl hloop | simpa using this
    obtain ⟨r, hr, hreads⟩ := round_reads hj
    rw [hreads]
    rcases hsparse with hnone | hnone
    · have hstates : c₂.states = c₁.states := by
        refine h₂.states_eq (fun p hp => uncut_child hu (mem_append_right _ hp)) ?_
        rw [← hnone]
        exact cuts_eq (hl.trans h₁.later) blocks
      obtain ⟨hmark, hmarks⟩ := marks_eq_nil_iff.mp (marks_of_uncut hu)
      rw [marks_go_append, append_eq_nil_iff] at hmarks
      have hcut : (Tree.mk n (ops' ++ blocks')).isCut = false := by
        refine not_isCut_of_marks (marks_eq_nil_iff.mpr ⟨hmark, ?_⟩)
        rw [marks_go_append, (h₁.marks_before hb hmarks.1).2, h₂.marks hmarks.2, hstates]
        exact numbered_self _
      rw [lasting_of_not_cut hcut]
      cases hc : (Tree.mk n (ops' ++ blocks')).child? r with
      | none => exact nil_subset _
      | some e => exact hchild hc
    · cases hc : (Tree.mk n (ops' ++ blocks')).child? r with
      | none => exact nil_subset _
      | some e =>
        have hempty : e.reads = [] := by
          have hread : reads.go ops = [] := by
            have := reads_go_of_uncut hu
            rw [reads_go_append, append_eq_nil_iff] at this
            exact this.1
          rw [Tree.child?] at hc
          cases ho : ops'.lookup r with
          | some e' =>
            rw [show (Tree.mk n (ops' ++ blocks')).children = ops' ++ blocks' from rfl,
              lookup_append, ho] at hc
            cases hc
            refine h₁.silent_filter (P := (· != .start)) hread ?_ r _ (by simpa using hr) ho
            rw [cuts_eq hl]
            exact hnone
          | none =>
            rw [show (Tree.mk n (ops' ++ blocks')).children = ops' ++ blocks' from rfl,
              lookup_append, ho, Option.none_or] at hc
            have hsub := reads_subset_go (mem_of_lookup hc)
            rw [h₂.reads] at hsub
            exact subset_nil.mp hsub
        rw [Option.map_some, Option.getD_some, hempty]
        exact nil_subset _
  by_cases hloop : n.kind = .loop
  · -- A loop of no certain kind is never run.
    rw [Tree.backed, hloop]
    exact ⟨hrun, wait_reads (by simp [Tree.kind, Tree.node, hloop])⟩
  · exact backed_loop hk hrun (hround _ (Or.inl rfl) hloop) (hround _ (Or.inr rfl) hloop)
      (backed_part h₁ hblocks _ _)

mutual

/-- The statements that are made of a sparse one find the results that they read. -/
theorem Becomes.backed {c₀ c c' : Cutter} {t : Tree} {ts : List Tree}
    (h : Becomes c t ts c') (hl : Later c₀ c) (hu : t.uncut = true) (hs : t.sparse c₀ = true) :
    backed.inList [] (ts.map (Role.statements, ·)) :=
  match h with
  | .nop hk => by
    have hread := reads_go_of_uncut hu
    refine ⟨backed_of_parts (Or.inl (plain_of_kind hk rfl)) (by rw [Tree.kind, Tree.node, hk]; rfl)
      ?_, trivial⟩
    rw [Tree.children, hread]
    exact List.Subset.refl _
  | .block hk h => by
    refine ⟨?_, trivial⟩
    simp only [Tree.backed, hk]
    exact h.backed hl (fun p hp => uncut_child hu hp) fun p hp => sparse_statement hs hk hp
  | .declaration hk _ _ h => by
    have hn := cuts_le_of_sparse hs (by rw [hk]; decide)
    rw [h.operandsIn.1, ← cuts_eq (hl.entering _)] at hn
    obtain ⟨bs, hbs, hback⟩ := h.backing (reads_go_of_uncut hu) hn
    rw [show _ = bs from hbs]
    exact backed_paused hback (plain_of_kind hk rfl) (by rw [Tree.kind, Tree.node, hk]; rfl) rfl
  | @Becomes.machineDeclaration _ _ n m a type as as' _ hk _ hcall ha hm h => by
    have hn := cuts_le_of_sparse hs (by rw [hk]; decide)
    have htype : type.uncut = true := uncut_child hu mem_cons_self
    -- The call of the initializer is the one label that is allowed, so its arguments have none.
    have hmore : cuts c₀ [(.initializer, .mk m [(.argumentList, .mk a as)])] ≤
        cuts c₀ (operandsIn [(.declaredType, type),
          (.initializer, .mk m [(.argumentList, .mk a as)])]) := by
      rw [operandsIn, filter_cons]
      rw [show List.filter _ _ = _ from operandsIn_call hcall]
      split
      · simp only [cuts, events.go, count_append]
        omega
      · exact Nat.le_refl _
    rw [cuts_call hcall ha, ← hl.machines, hm, if_pos rfl] at hmore
    have hread := reads_arguments hcall ha
      (uncut_child hu (mem_cons_of_mem _ mem_cons_self))
    obtain ⟨hb, has⟩ := h.silent hread (by
      rw [cuts_eq (hl.entering _)]
      omega)
    rw [show _ = [] from hb, nil_append]
    refine backed_inSub (plain_of_kind hk rfl) (by rw [Tree.kind, Tree.node, hk]; rfl) ?_
    rw [Tree.children, reads.go, reads.go, reads.go, reads_of_uncut htype,
      reads_withMachine hcall ha, has]
    rfl
  | .expression hk h => by
    have hn := cuts_le_of_sparse hs (by rw [hk]; decide)
    rw [h.operandsIn.1, ← cuts_eq hl.fresh] at hn
    obtain ⟨bs, hbs, hback⟩ := h.backing (reads_go_of_uncut hu) hn
    rw [show _ = bs from hbs]
    exact backed_paused hback (plain_of_kind hk rfl) (by rw [Tree.kind, Tree.node, hk]; rfl) rfl
  | @Becomes.call _ _ n m a as as' hk hcall ha h _ _ => by
    have hn := cuts_le_of_sparse hs (by rw [hk]; decide)
    rw [operandsIn_call hcall, cuts_call hcall ha, ← cuts_eq hl.fresh] at hn
    obtain ⟨bs, hbs, hback⟩ := h.backing
      (reads_arguments hcall ha (uncut_child hu mem_cons_self))
      (Nat.le_trans (Nat.le_add_right _ _) hn)
    rw [show _ = bs from hbs]
    refine backed_paused ?_ (plain_of_kind hk rfl) (by rw [Tree.kind, Tree.node, hk]; rfl) rfl
    rwa [Tree.children, reads.go, reads.go, append_nil, reads_call hcall ha]
  | @Becomes.machineCall _ _ n m a as as' hk hcall ha h hm => by
    have hn := cuts_le_of_sparse hs (by rw [hk]; decide)
    rw [h.later.machines, hl.fresh.machines] at hm
    rw [operandsIn_call hcall, cuts_call hcall ha, hm, if_pos rfl, ← cuts_eq hl.fresh] at hn
    obtain ⟨hb, has⟩ := h.silent (reads_arguments hcall ha (uncut_child hu mem_cons_self))
      -- The call itself is the one label that is allowed.
      (Nat.le_zero.mp (Nat.le_of_succ_le_succ hn))
    rw [show _ = [] from hb, nil_append]
    refine backed_inSub (plain_of_kind hk rfl) (by rw [Tree.kind, Tree.node, hk]; rfl) ?_
    rw [Tree.children, reads.go, reads.go, reads_withMachine hcall ha, has]
    rfl
  | @Becomes.wait _ _ n m a w as as' hk hcall ha h _ hb hw => by
    have hn := cuts_le_of_sparse hs (by rw [hk]; decide)
    rw [operandsIn_call hcall, cuts_call hcall ha, ← cuts_eq hl.fresh] at hn
    have hread := reads_arguments hcall ha (uncut_child hu mem_cons_self)
    obtain ⟨bs, hbs, hback⟩ := h.backing hread (Nat.le_trans (Nat.le_add_right _ _) hn)
    rw [show _ = bs from hbs]
    -- A waiting call is carried out again behind its label, with its first argument only.
    have hfirst := sparseHere_of_sparse hs (by rw [hk]; decide)
    rw [sparseHere, hk, Bool.and_eq_true] at hfirst
    refine backed_row hback fun rs hrs => ⟨backed_wait hl.fresh h hread hb hw ?_ hrs, trivial⟩
    simpa [Tree.node, Tree.children] using hfirst.2
  | .branch hk h₁ h₂ => by
    have hn := cuts_le_of_sparse hs (by rw [hk]; decide)
    rw [(parts_of_compound h₁ h₂).1, ← cuts_eq hl.fresh] at hn
    have hread := reads_go_of_uncut hu
    rw [reads_go_append, append_eq_nil_iff] at hread
    have hblocks := h₂.backed (Later.trans hl.fresh h₁.later).fresh
      (fun p hp => uncut_child hu (mem_append_right _ hp))
      (fun p hp => sparse_block hs (mem_append_right _ hp) (h₂.kind p hp))
    obtain ⟨bs, hbs, hback⟩ := h₁.backing hread.1 hn
    rw [show _ = bs from hbs]
    refine backed_row hback fun rs hrs => ⟨?_, trivial⟩
    rw [Tree.backed, hk]
    refine ⟨List.Subset.trans (run_reads (by simp [Tree.kind, Tree.node, hk])
      (by simp [Tree.kind, Tree.node, hk])) ?_, backed_part h₁ hblocks _ _,
      backed_part h₁ hblocks _ _⟩
    rwa [Tree.children, reads_go_append, h₂.reads, append_nil]
  | .loop hk h₁ h₂ _ => by
    have hkind : ∀ {n : Node}, n.kind.loops = true → n.kind ≠ .statementList := by
      intro n hk h
      rw [h] at hk
      cases hk
    have hn := cuts_le_of_sparse hs (hkind hk)
    rw [(parts_of_compound h₁ h₂).1, ← cuts_eq (hl.entering _)] at hn
    have hread := reads_go_of_uncut hu
    rw [reads_go_append, append_eq_nil_iff] at hread
    have hblocks := h₂.backed (Later.trans (hl.entering _) h₁.later).fresh
      (fun p hp => uncut_child hu (mem_append_right _ hp))
      (fun p hp => sparse_block hs (mem_append_right _ hp) (h₂.kind p hp))
    obtain ⟨bs, hbs, hback⟩ := h₁.backing hread.1 hn
    rw [show _ = bs from hbs]
    have hhere := sparseHere_of_sparse hs (hkind hk)
    exact backed_row hback fun rs hrs =>
      ⟨backed_of_loop hk (hl.entering _) h₁ h₂ rfl hu hhere hblocks hrs, trivial⟩
  | @Becomes.leave _ c₁ n cs cs' o hk h => by
    have hn := cuts_le_of_sparse hs (by rw [hk]; decide)
    rw [h.operandsIn.1, ← cuts_eq hl.fresh] at hn
    obtain ⟨bs, hbs, hback⟩ := h.backing (reads_go_of_uncut hu) hn
    rw [show _ = bs from hbs, append_assoc]
    refine backed_row hback fun rs hrs => ?_
    have hleave : (Tree.mk n cs').backed rs :=
      backed_of_parts (Or.inr hk) (by rw [Tree.kind, Tree.node, hk]; rfl) hrs
    -- A reset before the `return` reads nothing.
    unfold resets
    split
    · exact ⟨hleave, trivial⟩
    · exact ⟨⟨nil_subset _, rfl⟩, hleave, trivial⟩

theorem BecomesAll.backed {c₀ c c' : Cutter} {cs cs' : Children}
    (h : BecomesAll c cs cs' c') (hl : Later c₀ c) (hu : ∀ p ∈ cs, p.2.uncut = true)
    (hs : ∀ p ∈ cs, p.2.sparse c₀ = true) : backed.inList [] cs' :=
  match h with
  | .nil => trivial
  | .cons h hrest => by
    obtain ⟨hut, hu⟩ := forall_mem_cons.mp hu
    obtain ⟨hst, hs⟩ := forall_mem_cons.mp hs
    exact backed_append (h.backed hl hut hst) (hrest.backed (hl.trans h.later) hu hs)

theorem BecomesBlocks.backed {c₀ : Cutter} : ∀ {c c' : Cutter} {cs cs' : Children},
    BecomesBlocks c cs cs' c' → Later c₀ c → (∀ p ∈ cs, p.2.uncut = true) →
      (∀ p ∈ cs, p.2.sparse c₀ = true) → ∀ p ∈ cs', p.2.backed []
  | _, _, _, _, .nil, _, _, _, _, hp => by cases hp
  | _, _, _, _, .cons hk h hrest, hl, hu, hs, p, hp => by
    obtain ⟨hut, hu⟩ := forall_mem_cons.mp hu
    obtain ⟨hst, hs⟩ := forall_mem_cons.mp hs
    rcases mem_cons.mp hp with rfl | hp
    · simp only [Tree.backed, hk]
      exact h.backed hl (fun p hp => uncut_child hut hp) fun p hp => sparse_statement hst hk hp
    · exact hrest.backed (hl.trans h.later) hu hs p hp

end

end Cutting

/-! ## Functions -/

namespace Cutting

/-- Whether a tree is sparse depends on the machines, the index and the option only. -/
theorem sparse_congr (hm : c'.machines = c.machines) (hi : c'.index = c.index)
    (hs : c'.splitAll = c.splitAll) (t : Tree) : t.sparse c' = t.sparse c := by
  have hcuts : cuts c' = cuts c := by
    funext cs
    rw [cuts, hm, hs, cuts]
  have hsleeps : sleeps c' = sleeps c := by
    funext m
    rw [sleeps, hi, sleeps]
  induction t using ofChildren with
  | step n cs ih =>
    have hgo : ∀ all, sparse.go c' all cs = sparse.go c all cs := by
      intro all
      induction cs with
      | nil => rfl
      | cons p cs ihcs =>
        obtain ⟨ihp, ih⟩ := forall_mem_cons.mp ih
        rw [sparse.go, sparse.go, ihp, ihcs ih]
    rw [sparse, sparse, hgo, sparseHere, sparseHere, hcuts, hsleeps]

theorem backed_of_entrance
    (h : ∀ p ∈ xs, p.2.kind.plain = true ∧ p.2.kind.cuts = false ∧ reads.go p.2.children = []) :
    backed.inList [] xs := by
  induction xs with
  | nil => trivial
  | cons p xs ih =>
    obtain ⟨⟨hk, hc, hr⟩, hxs⟩ := forall_mem_cons.mp h
    refine ⟨backed_of_parts (Or.inl hk) hc ?_, backed_list_mono (nil_subset _) (ih hxs)⟩
    rw [hr]
    exact List.Subset.refl _

/-- The body of a sparse function is backed. -/
theorem CutsBody.backed {f body : Tree} (h : CutsBody c f body c') (hcut : body.isCut = true)
    (hs : f.sparse c = true) : body.backed [] := by
  cases h with
  | uncut h =>
    rw [not_isCut_of_marks h] at hcut
    cases hcut
  | @machine c₁ _ main b first d cs rest last skip o g hf hd hb hu hskip h hfirst hg hm hlast =>
    have hbody : (Tree.mk b cs).sparse c = true := by
      obtain ⟨n, ds⟩ := f
      exact sparse_block hs (mem_of_lookup hf) hb
    have hmarks := (marks_eq_nil_iff.mp (marks_of_uncut hu)).2
    have hent := @plain_entrance o _ f main first c₁.log.nextId c₁.states _ hfirst hskip hmarks
    have hrest : backed.inList [] rest := by
      refine h.backed (Later.refl _) (fun p hp => uncut_child hu (mem_of_mem_drop hp)) ?_
      intro p hp
      exact (@sparse_congr c { c.fresh with states := 0, persistence := {} } rfl rfl rfl p.2).trans
        (sparse_statement hbody hb (mem_of_mem_drop hp))
    -- What stands before the states is uncut and reads no result.
    have hentrance : backed.inList []
        (entrance first (dispatchNode c₁.log.nextId o c₁.states main) skip cs) := by
      refine backed_of_entrance fun p hp =>
        ⟨(hent p hp).1, cuts_of_not_isCut (hent p hp).2, ?_⟩
      rcases mem_cons.mp hp with rfl | hp
      · rfl
      · rcases mem_append.mp hp with hp | hp
        · have huncut := uncut_child hu (mem_of_mem_take hp)
          obtain ⟨r, n, ds⟩ := p
          exact reads_go_of_uncut huncut
        · rw [mem_singleton.mp hp]
          rfl
    have hlast' : backed.inList [] last := by
      cases hlast with
      | none => trivial
      | reset => exact ⟨⟨nil_subset _, rfl⟩, trivial⟩
    rw [Tree.backed, show (g b).kind = _ from (hg.kind b).trans hb]
    exact backed_append (backed_list_mapNodes hg (fun _ _ _ => backed_mapNodes hg)
      (backed_append hentrance hrest)) hlast'

/-- In a function with states, a result of a call that was taken out of an expression is only read
after it was kept since the function was called, on all ways through it, if no statement has a label
between the call and the place where its result is read. -/
theorem definition_reads_results {f body : Tree} {c : Cutter} (hu : f.uncut = true)
    (hk : f.kind = .functionDefinition) (hf : (definition f c).2.fault = none)
    (hb : (definition f c).1.child? .body = some body) (hcut : body.isCut = true)
    (hs : f.sparse c = true) {p : Point} (h : Reaches body p) {j : Job} {w : List Job}
    (hw : p.work = j :: w) : j.reads ⊆ p.results :=
  h.reads ((cutsBody_of_definition hu hk hf hb).backed hcut hs) hw

/-- Behind the label of the call that was taken out of its inner loop, the handler reads the result
that it just kept. -/
theorem handler_reads_results :
    Sample.handler.sparse (callingCutter false) = true ∧
      ∃ p j w, Reaches (bodyOf Sample.handler (callingCutter false)) p ∧ p.work = j :: w ∧
        j.reads ≠ [] ∧ j.reads ⊆ p.results := by
  refine ⟨by decide +kernel, ?_⟩
  obtain ⟨p, hp, hr⟩ := @Reaches.follow_label (bodyOf Sample.handler (callingCutter false)) 1 [true]
    (fun p => p.work.head?.any fun j => !j.reads.isEmpty) (by decide +kernel)
  cases hw : p.work with
  | nil =>
    rw [hw] at hr
    cases hr
  | cons j w =>
    rw [hw] at hr
    refine ⟨p, j, w, hp, hw, ?_, ?_⟩
    · simpa using hr
    · exact definition_reads_results (f := Sample.handler) (c := callingCutter false)
        (by decide) rfl (by decide +kernel) (bodyOf_eq (by decide +kernel)) (by decide +kernel)
        (by decide +kernel) hp hw

end Cutting

namespace Sample

/-- A function that adds the results of two calls. -/
def adding : Tree :=
  handler.mapRole .body fun _ =>
    .mk (node 19 .statementList) [
      (.statements, .mk ((node 20 .variableDeclaration).named "i") [(.declaredType, type 21),
        (.initializer, .mk ((node 22 .binaryOperator).setText .operator (some "+")) [
          (.argumentList, .mk (node 23 .argumentList) [
            (.arguments, call 24 51 25 "get" false []),
            (.arguments, call 26 51 27 "get" false [])])])]),
      (.statements, .mk (node 33 .returnStatement) [(.expression, zero 34)])]

end Sample

namespace Cutting

/-- Behind the label of the second call, the handler reads the result of the first one, which was
lost when the function was left. -/
theorem second_call_loses_first :
    Sample.adding.uncut = true ∧ (definition Sample.adding (callingCutter false)).2.fault = none ∧
      ∃ p j w, Reaches (bodyOf Sample.adding (callingCutter false)) p ∧ p.work = j :: w ∧
        ∃ r ∈ j.reads, r ∉ p.results := by
  refine ⟨by decide, by decide +kernel, ?_⟩
  obtain ⟨p, hp, hr⟩ := @Reaches.follow_label (bodyOf Sample.adding (callingCutter false)) 2 [true]
    (fun p => p.work.head?.any fun j => j.reads.any fun r => !p.results.contains r)
    (by decide +kernel)
  cases hw : p.work with
  | nil =>
    rw [hw] at hr
    cases hr
  | cons j w =>
    rw [hw] at hr
    refine ⟨p, j, w, hp, hw, ?_⟩
    simpa using hr

end Cutting

end Resumable
