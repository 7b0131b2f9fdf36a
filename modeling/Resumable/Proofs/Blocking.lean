import Resumable.Proofs.Definitions
import Resumable.Proofs.Walk.Weights

/-!
# Blocking calls that are left

A blocking call that is a statement becomes a wait. One in an expression (a condition, the iteration
of a loop, a first value, an argument, a value that is returned) is not looked at, and stays. When a
text is revised, statements that are blocking calls are refused, so if a compilation gets that far,
the blocking calls that are left are those that stood in expressions.

* `Revise.unblocked_of_revised`: a text is only revised if no statement is a blocking call.
* `Cutting.CutsCleanly.turns`: each blocking statement of a function is turned into a wait.
* `Compilation.blocking_calls_left`: the blocking calls that are left are those in expressions.
* `Compilation.iteration_still_blocks`: the iteration of a loop still blocks.
-/

namespace Resumable

open List Resumable.Tree

variable {cs : Children} {c c' : Cutter} {n : Node} {p : Role × Tree} {t b' b f' f : Tree}
  {w : Node → Nat} {skip : Nat}

namespace Tree

/-- The blocking calls of a tree. -/
def blockingCalls (t : Tree) : List NodeId := (t.subtrees.filter blocks).map id

/-- The number of waits in a tree. -/
def waits (t : Tree) : Nat := t.subtrees.countP fun u => u.kind == .papiSleep || u.kind == .papiWait

end Tree

/-! ## What revision refuses -/

/-- The kinds of nodes whose children are all revised. -/
def Kind.revisesAll : Kind → Bool
  | root | directive | includeFile | constantDefine | nop | typeRef | refType | simpleType
  | invalidType | pointerType | functionDecl | papiFunctionDecl | operatorDecl
  | variableDeclaration | papiWait | papiSleep | machine | debugState | beforeSub | afterSub
  | callSub | initFirst | beforeReturn | mainFirst | subFirst | variableUse | callSubResult => false
  | _ => true

namespace Revise

/-- The revision of the tree goes through. -/
def Revised (t : Tree) : Prop := ∃ r u r', visit t r = .ok u r'

theorem all_inv {parts : List Revisable} {r r' : Revision} {u : Unit} (h : all parts r = .ok u r')
    {p : Revisable} (hp : p ∈ parts) : ∃ r₁ v r₂, p.revise r₁ = .ok v r₂ := by
  unfold all at h
  induction parts generalizing r with
  | nil => cases hp
  | cons q parts ih =>
    change (do q.revise; parts.forM (·.revise)) r = .ok u r' at h
    obtain ⟨v, r₁, hq, hrest⟩ := Step.bind_inv h
    rcases mem_cons.mp hp with rfl | hp
    · exact ⟨r, v, r₁, hq⟩
    · exact ih hrest hp

theorem mem_go (hp : p ∈ cs) : (⟨p.1, visit p.2⟩ : Revisable) ∈ visit.go cs := by
  induction cs with
  | nil => cases hp
  | cons q cs ih =>
    obtain ⟨r, t⟩ := q
    rw [visit.go]
    rcases mem_cons.mp hp with rfl | hp
    · exact mem_cons_self
    · exact mem_cons_of_mem _ (ih hp)

theorem revised_child (h : Revised (.mk n cs)) (hk : n.kind.revisesAll = true) (hp : p ∈ cs) :
    Revised p.2 := by
  obtain ⟨r, u, r', hvisit⟩ := h
  have hall : ∃ v r₁, all (visit.go cs) r = .ok v r₁ := by
    rw [visit, rule] at hvisit
    cases hkind : n.kind <;> rw [hkind] at hk <;> first
      | exact absurd hk (by decide)
      | (simp only [node, hkind] at hvisit
         first
           | exact ⟨_, _, hvisit⟩
           | (obtain ⟨v, r₁, hall, -⟩ := Step.bind_inv hvisit
              exact ⟨v, r₁, hall⟩))
  obtain ⟨v, r₁, hall⟩ := hall
  exact all_inv hall (mem_go hp)

theorem revised_source (h : Revised (.mk n cs)) (hk : n.kind = .root) (hp : p ∈ cs)
    (hr : p.1 = .source) : Revised p.2 := by
  obtain ⟨r, u, r', hvisit⟩ := h
  rw [visit, rule] at hvisit
  simp only [node, hk, inRole] at hvisit
  exact all_inv hvisit (mem_filter.mpr ⟨mem_go hp, by simp [hr]⟩)

/-- A call statement that is revised does not block. -/
theorem revised_call (h : Revised (.mk n cs)) (hk : n.kind = .callStatement) :
    ∃ e, cs.lookup .expression = some e ∧ e.node.flags.lookup .blocking = some false := by
  obtain ⟨r, u, r', hvisit⟩ := h
  rw [visit, rule] at hvisit
  simp only [show (mk n cs).node.kind = .callStatement from hk] at hvisit
  obtain ⟨v, r₁, -, hcheck⟩ := Step.bind_inv hvisit
  obtain ⟨e, r₂, he, hflag⟩ := Step.bind_inv hcheck
  obtain ⟨he, rfl⟩ := Step.lift_inv he
  cases hchild : cs.lookup .expression with
  | none =>
    simp only [child, child?, Tree.children, hchild] at he
    cases he
  | some e' =>
    simp only [child, child?, Tree.children, hchild] at he
    cases he
    refine ⟨e, rfl, ?_⟩
    -- Revision asks whether the call blocks, and stops if it does or if that is not known.
    cases hb : e.node.flags.lookup .blocking with
    | none =>
      rw [hb] at hflag
      cases hflag
    | some b =>
      rw [hb] at hflag
      cases b with
      | true => cases hflag
      | false => rfl

theorem unblocked_of_revised (h : Revised t) : t.unblocked = true := by
  induction t using ofChildren with
  | step n cs ih =>
    by_cases hcall : n.kind = .callStatement
    · obtain ⟨e, he, hb⟩ := revised_call h hcall
      rw [unblocked, if_pos hcall, he]
      simp [hb]
    by_cases hk : n.kind.compound = true
    · have hall : n.kind.revisesAll = true := by
        revert hk
        cases n.kind <;> decide
      exact (unblocked_compound hk).mpr fun p hp => ih p hp (revised_child h hall hp)
    · rw [unblocked, if_neg hcall, if_neg hk]

end Revise

/-! ## Counting -/

namespace Cutting

/-- One for the blocking call with this number. -/
def calling (i : NodeId) (n : Node) : Nat :=
  if n.kind = .call ∧ n.flag .blocking = true ∧ n.id = i then 1 else 0

/-- One for a wait. -/
def waiting (n : Node) : Nat := if n.kind = .papiSleep ∨ n.kind = .papiWait then 1 else 0

theorem weighs_calling (i : NodeId) : Weighs (calling i) where
  named _ _ := rfl
  added n hn := by
    refine if_neg fun hcall => ?_
    rw [hcall.1] at hn
    cases hn

theorem weighs_waiting : Weighs waiting where
  named _ _ := rfl
  added n hn := by
    refine if_neg ?_
    rintro (hk | hk) <;> rw [hk] at hn <;> cases hn

theorem countP_eq_total {p : Node → Bool} (hw : ∀ n, w n = if p n then 1 else 0) (t : Tree) :
    t.subtrees.countP (fun u => p u.node) = t.total w := by
  unfold total
  induction t.subtrees with
  | nil => rfl
  | cons u us ih =>
    rw [countP_cons, map_cons, sum_cons, ih, hw]
    omega

/-- Blocking calls can be counted node by node. -/
theorem count_blockingCalls (i : NodeId) (t : Tree) :
    t.blockingCalls.count i = t.total (calling i) := by
  have hcount := countP_eq_total
    (p := fun n => n.kind == .call && n.flag .blocking && n.id == i) (w := calling i)
    (fun n => by simp [calling, and_assoc]) t
  rw [← hcount, blockingCalls, List.count, countP_map, countP_filter]
  refine countP_congr fun u _ => ?_
  simp [Tree.blocks, Tree.id, Tree.kind, and_comm]

theorem waits_eq_total (t : Tree) : t.waits = t.total waiting :=
  countP_eq_total (p := fun n => n.kind == .papiSleep || n.kind == .papiWait)
    (fun n => by simp [waiting]) t

theorem lost_calling (i : NodeId) (ts : List Turn) :
    lost (calling i) ts = (ts.map (·.call.id)).count i := by
  induction ts with
  | nil => rfl
  | cons x ts ih =>
    have hstatement : calling i x.statement = 0 := if_neg fun h => by
      rw [x.isStatement] at h
      exact absurd h.1 (by decide)
    have hcall : calling i x.call = if x.call.id = i then 1 else 0 := by
      simp [calling, x.isCall, x.blocks]
    have hcons : lost (calling i) (x :: ts) =
        calling i x.statement + calling i x.call + lost (calling i) ts := by
      simp [lost]
    rw [hcons, ih, hstatement, hcall, map_cons, count_cons]
    simp only [beq_iff_eq]
    omega

theorem gained_calling (i : NodeId) (ts : List Turn) : gained (calling i) ts = 0 := by
  refine sum_eq_zero fun k hk => ?_
  obtain ⟨x, -, rfl⟩ := mem_map.mp hk
  refine if_neg fun h => ?_
  rcases x.isWait with hw | hw <;> rw [hw] at h <;> exact absurd h.1 (by decide)

theorem lost_waiting (ts : List Turn) : lost waiting ts = 0 := by
  refine sum_eq_zero fun k hk => ?_
  obtain ⟨x, -, rfl⟩ := mem_map.mp hk
  simp [waiting, x.isStatement, x.isCall]

theorem gained_waiting (ts : List Turn) : gained waiting ts = ts.length := by
  have hone : ∀ x : Turn, waiting x.wait = 1 := fun x => if_pos x.isWait
  simp [gained, hone]

/-- What is turned and what is left are the blocking calls of the source. -/
theorem perm_of_turns (hu : b.uncut = true) {ts : List Turn}
    (hcalls : ts.map (·.call.id) = b.blockingStatements)
    (hts : ∀ w, Weighs w → b'.total w + lost w ts = b.total w + gained w ts) :
    b.blockingCalls.Perm (b.blockingStatements ++ b'.blockingCalls) ∧
      b'.waits = b.blockingStatements.length := by
  constructor
  · rw [perm_iff_count]
    intro i
    have hbalance := hts _ (weighs_calling i)
    rw [lost_calling, gained_calling, hcalls] at hbalance
    rw [count_append, count_blockingCalls, count_blockingCalls]
    omega
  · have hbalance := hts _ weighs_waiting
    -- there are no waits before cutting
    have hnone : b.total waiting = 0 := by
      refine total_eq_zero fun u hmem => if_neg ?_
      obtain ⟨n, cs⟩ := u
      have hplain := uncut_inserted (uncut_subtree hu hmem)
      rintro (hk | hk) <;> rw [show n.kind = _ from hk] at hplain <;> cases hplain
    rw [lost_waiting, gained_waiting, hnone] at hbalance
    rw [waits_eq_total, ← hcalls, length_map]
    omega

/-! ## Functions -/

/-- A tree without blocking statements has none to turn. -/
theorem no_statements_of_unblocked (hu : t.uncut = true) (hk : t.kind.isA .statement = true)
    (hb : t.unblocked = true) : t.blockingStatements = [] := by
  induction t using ofChildren with
  | step n cs ih =>
  replace hk : n.kind.isA .statement = true := hk
  have hplain := uncut_inserted hu
  by_cases hcall : n.kind = .callStatement
  · obtain ⟨m, ds, rfl, hm⟩ := uncut_callStatement hu hcall
    have hflag : m.flag .blocking = false := by
      rw [Node.flag, show m.flags.lookup .blocking = _ from (unblocked_call hcall).mp hb]
      rfl
    rw [blockingStatements_call hu hcall hm, hflag]
    rfl
  by_cases hcompound : n.kind.compound = true
  · have hall := (unblocked_compound hcompound).mp hb
    rw [blockingStatements_inner hcall, flatMap_eq_nil_iff]
    intro p hp
    by_cases hlist : n.kind = .statementList
    · exact ih p hp (uncut_child hu hp) (uncut_block hu hlist p hp).2 (hall p hp)
    · -- a branch or a loop has operands and blocks
      have hrest : n.kind = .ifElse ∨ n.kind.loops = true := by
        revert hcompound hlist
        cases n.kind <;> decide
      obtain ⟨ops, blocks, rfl, hops, hblocks⟩ := uncut_compound hu hrest
      rcases mem_append.mp hp with hmem | hmem
      · exact blockingStatements_operand (uncut_child hu hp) (hops p hmem)
      · exact ih p hp (uncut_child hu hp) (by rw [hblocks p hmem]; rfl) (hall p hp)
  · refine blockingStatements_simple hu rfl ?_
    revert hk hplain hcall hcompound
    cases n.kind <;> decide

theorem unblocked_mapNodes {g : Node → Node} (hg : Renames g) (t : Tree) :
    (t.mapNodes g).unblocked = t.unblocked := by
  induction t using ofChildren with
  | step n cs ih =>
  have hflags : ∀ m, (g m).flags = m.flags := hg.congr fun _ _ => rfl
  have hgo : unblocked.go (mapNodes.go g cs) = unblocked.go cs := go_mapNodes (congrArg₂ and) ih
  rw [mapNodes, unblocked, unblocked, hg.kind, hgo, lookup_mapNodes]
  cases cs.lookup .expression with
  | none => rfl
  | some e =>
    obtain ⟨m, ds⟩ := e
    simp only [Option.map_some, Option.all_some, mapNodes, node, hflags]

theorem no_statements_of_prologue {b : Node} (hu : (mk b cs).uncut = true)
    (hskip : prologue (cs.map (·.2)) = .ok skip) :
    (cs.take skip).flatMap (·.2.blockingStatements) = [] := by
  rw [flatMap_eq_nil_iff]
  intro p hp
  have hup : p.2.uncut = true := uncut_child hu (mem_of_mem_take hp)
  obtain ⟨hk, -⟩ := namesCast_of_prologue hu hskip p hp
  obtain ⟨r, n, ds⟩ := p
  replace hk : n.kind = .variableDeclaration := hk
  exact blockingStatements_simple hup hk rfl

theorem turns_behind {b : Node} {rest : Children} (hu : (mk b cs).uncut = true)
    (hb : b.kind = .statementList) (hskip : prologue (cs.map (·.2)) = .ok skip)
    (h : CutsStatements { c with states := 0, persistence := {} } (cs.drop skip) rest c')
    (hrest : ∀ p ∈ rest, p.2.unblocked = true) :
    ∃ ts : List Turn, ts.map (·.call.id) = (mk b cs).blockingStatements ∧
      ∀ w, Weighs w → (mk b (cs.take skip ++ rest)).total w + lost w ts =
        (mk b cs).total w + gained w ts := by
  obtain ⟨ts, hcalls, hts⟩ := h.turns (fun p hp => uncut_child hu (mem_of_mem_drop hp)) hrest
  refine ⟨ts, ?_, fun w hw => ?_⟩
  · rw [blockingStatements_inner (by rw [hb]; decide), hcalls]
    conv_rhs => rw [← take_append_drop skip cs]
    rw [flatMap_append, no_statements_of_prologue hu hskip, nil_append]
  · have hbalance := hts w hw
    have hweight : c'.weight w = Cutter.weight w { c with states := 0, persistence := {} } := by
      rw [Cutter.weight, h.beside.1, h.beside.2, Cutter.weight]
    have hsplit : totals cs w = totals (cs.take skip) w + totals (cs.drop skip) w := by
      rw [← totals_append, take_append_drop]
    rw [total_mk, total_mk, totals_append, hsplit]
    omega

theorem total_renamed (hw : Weighs w) (names : List (NodeId × Option String)) (b : Node)
    (ds last : Children) :
    (mk (rename names (.mk b [])).node ((rename names (.mk b ds)).children ++ last)).total w =
      (mk b ds).total w + totals last w := by
  have hnames : (rename names (.mk b ds)).total w = (mk b ds).total w :=
    total_mapNodes ((renames_names names).congr hw.named) _
  have hparts : (rename names (.mk b ds)).total w =
      w (rename names (.mk b [])).node + totals (rename names (.mk b ds)).children w :=
    total_mk _ _
  rw [total_mk, totals_append]
  omega

theorem CutsCleanly.turns {main : Bool} (h : CutsCleanly main c f f' c') (hu : b.uncut = true)
    (hb : f.child? .body = some b) (hb' : f'.child? .body = some b') (hun : b'.unblocked = true) :
    ∃ ts : List Turn, ts.map (·.call.id) = b.blockingStatements ∧
      ∀ w, Weighs w → b'.total w + lost w ts = b.total w + gained w ts := by
  cases h.cuts with
  | rejected hmain hbody ho =>
    rw [h.ends hmain _ hbody] at ho
    cases ho
  | @stateless _ n b₀ d cs rest skip hbk hskip hwalk hs =>
    cases hb
    cases hb'
    have hcompound : b₀.kind.compound = true := by rw [hbk]; rfl
    exact turns_behind hu hbk hskip hwalk fun p hp =>
      (unblocked_compound hcompound).mp hun p (mem_append_right _ hp)
  | @machine c₁ _ n b₀ first d cs rest last skip o names hbk hskip hwalk hs hfirst hnames hm
      hlast =>
    cases hb
    cases hb'
    have hg := renames_names names
    have hcompound : (rename names (.mk b₀ [])).node.kind.compound = true := by
      rw [show (rename names (.mk b₀ [])).node.kind = b₀.kind from hg.kind b₀, hbk]
      rfl
    have hall := (unblocked_compound hcompound).mp hun
    obtain ⟨ts, hcalls, hts⟩ := turns_behind hu hbk hskip hwalk fun p hp => by
      rw [← unblocked_mapNodes hg]
      refine hall (p.1, p.2.mapNodes _) (mem_append_left _ ?_)
      rw [rename, mapNodes, Tree.children, mapNodes_go_eq_map]
      exact mem_map_of_mem (f := fun p : Role × Tree => (p.1, p.2.mapNodes _))
        (mem_cons_of_mem _ (mem_append_right _ (mem_cons_of_mem _ hp)))
    refine ⟨ts, hcalls, fun w hw => ?_⟩
    have hbalance := hts w hw
    -- the nodes that are put in around the statements weigh nothing, and names do not count
    have hfirst' : w first = 0 := hw.added _ (by cases hfirst <;> rfl)
    have hdispatch : w (dispatchNode c₁.log.nextId o c₁.states main) = 0 := hw.added _ rfl
    have hlast' : totals last w = 0 := by
      cases hlast with
      | none hc => rfl
      | @reset i o => simp [hw.added (.blank i .beforeReturn o) rfl]
    rw [total_renamed hw names, hlast', withDispatch]
    simp only [total_mk, totals_cons, totals_append, totals_nil, hfirst', hdispatch] at hbalance ⊢
    omega

/-- The same for each function of a program. -/
theorem DefinesCleanly.turns (h : DefinesCleanly c f f' c') (hu : b.uncut = true)
    (hb : f.child? .body = some b) (hb' : f'.child? .body = some b')
    (hkind : b.kind = .statementList) (hun : b'.unblocked = true) :
    ∃ ts : List Turn, ts.map (·.call.id) = b.blockingStatements ∧
      ∀ w, Weighs w → b'.total w + lost w ts = b.total w + gained w ts := by
  have hstatement : b.kind.isA .statement = true := by rw [hkind]; rfl
  cases h with
  | unnamed hn | setUp hn hd hv =>
    -- A function that is not cut keeps its body.
    obtain rfl : b = b' := Option.some.inj (hb.symm.trans hb')
    exact ⟨[], (no_statements_of_unblocked hu hstatement hun).symm, fun _ _ => rfl⟩
  | @starter l n b₀ first d cs names hn hv hbk hfirst hfailed hgrows =>
    cases hb
    cases hb'
    have hcompound : b₀.kind.compound = true := by rw [hbk]; rfl
    have hcs : (mk b₀ cs).unblocked = true := (unblocked_compound hcompound).mpr fun p hp =>
      (unblocked_compound hcompound).mp hun p (mem_cons_of_mem _ hp)
    refine ⟨[], (no_statements_of_unblocked hu hstatement hcs).symm, fun w hw => ?_⟩
    have hzero : w first = 0 := hw.added _ (by cases hfirst <;> rfl)
    have hnone : lost w [] = gained w [] := rfl
    simp only [total_mk, totals_cons, totals_nil, hzero]
    omega
  | function hn hd hv h => exact h.turns hu hb hb' hun

/-! ## Programs -/

theorem definitions_go_nil {b : Bool} (h : ∀ p ∈ cs, definitions p.2 = []) :
    definitions.go b cs = [] := by
  induction cs with
  | nil => rfl
  | cons p cs ih =>
    obtain ⟨r, t⟩ := p
    obtain ⟨ht, hcs⟩ := forall_mem_cons.mp h
    rw [definitions.go, ih hcs, ht, ite_self]
    rfl

theorem definitions_simple (hu : t.uncut = true) (hk : t.kind.simple = true) :
    definitions t = [] := by
  induction t using ofChildren with
  | step n cs ih =>
    have hne : n.kind ≠ .functionDefinition := by
      intro hdef
      rw [Tree.kind, node, hdef] at hk
      cases hk
    cases hs : shut n.kind with
    | true => exact definitions_shut hs
    | false =>
      rw [definitions_inner hne hs]
      exact definitions_go_nil fun p hp => ih p hp (uncut_child hu hp)
        (Kind.simple_of_operand (uncut_simple hu hk p hp))

theorem DefinesAll.forall₂ {P : Tree → Tree → Prop} {fs fs' : List Tree}
    (h : DefinesAll c fs fs' c')
    (hP : ∀ k f f' k', f ∈ fs → f' ∈ fs' → DefinesCleanly k f f' k' → P f f') :
    List.Forall₂ P fs fs' := by
  induction h with
  | nil => exact .nil
  | cons h hs ih =>
    exact .cons (hP _ _ _ _ mem_cons_self mem_cons_self h) (ih fun k f f' k' hf hf' =>
      hP k f f' k' (mem_cons_of_mem _ hf) (mem_cons_of_mem _ hf'))

mutual

theorem CutsTree.revised {c c' : Cutter} {t t' : Tree} (h : CutsTree c t t' c')
    (hu : t.uncut = true) (hr : Revise.Revised t') : ∀ f' ∈ definitions t', Revise.Revised f' :=
  match h with
  | .definition hkind hdef => by
    have hkind' : t'.kind = .functionDefinition := by rw [Tree.kind, hdef.node.1]; exact hkind
    rw [definitions_function hkind']
    simpa using hr
  | .shut hkind => by
    rw [definitions_shut hkind]
    simp
  | .inner (n := n) hkind hs hrow => by
    by_cases hall : n.kind.revisesAll = true
    · rw [definitions_inner hkind hs]
      exact hrow.revised (fun p hp => uncut_child hu hp)
        fun p hp _ => Revise.revised_child hr hall hp
    by_cases hroot : n.kind = .root
    · rw [definitions_inner hkind hs]
      exact hrow.revised (fun p hp => uncut_child hu hp)
        fun p hp hsource => Revise.revised_source hr hroot hp (hsource (decide_eq_true hroot))
    -- what is left holds operands, and no functions
    have hsimple : n.kind.simple = true := by
      have hplain := uncut_inserted hu
      revert hkind hs hall hroot hplain
      cases n.kind <;> decide
    have hnone := definitions_simple hu hsimple
    have hsame := (CutsTree.inner hkind hs hrow).defines.forall₂ (P := fun _ _ => True)
      fun _ _ _ _ _ _ _ => trivial
    rw [hnone, forall₂_nil_left_iff] at hsame
    rw [hsame]
    simp

theorem CutsTrees.revised {b : Bool} {c c' : Cutter} {cs cs' : Children}
    (h : CutsTrees b c cs cs' c') (hu : ∀ p ∈ cs, p.2.uncut = true)
    (hrev : ∀ p ∈ cs', (b = true → p.1 = .source) → Revise.Revised p.2) :
    ∀ f' ∈ definitions.go b cs', Revise.Revised f' :=
  match h with
  | .nil => by simp [definitions.go]
  | .skip hr h => by
    rw [definitions.go, if_pos (by simpa using hr)]
    exact h.revised (forall_mem_cons.mp hu).2 (forall_mem_cons.mp hrev).2
  | .cons (b := b) (r := r) hr h hcs => by
    obtain ⟨hut, hucs⟩ := forall_mem_cons.mp hu
    obtain ⟨hrt, hrcs⟩ := forall_mem_cons.mp hrev
    have hvisit : ¬ ((b && decide (r ≠ .source)) = true) := by simpa using hr
    rw [definitions.go, if_neg hvisit]
    exact forall_mem_append.mpr ⟨h.revised hut (hrt hr), hcs.revised hucs hrcs⟩

end

end Cutting

namespace Compilation

open Cutting

/-- The source of a compilation that was revised. -/
theorem revised_of_revise {c c' : Compilation} {text : String} {s : Tree}
    (h : revise c = .ok text c') (hroot : c.root.kind = .root) (hs : c.source = some s) :
    Revise.Revised s := by
  unfold revise at h
  dsimp only at h
  split at h
  · next t r htext =>
    unfold Revise.text at htext
    obtain ⟨u, r₁, hvisit, -⟩ := Step.bind_inv htext
    have hmem : (Role.source, s) ∈ c.tree.children := by simp [tree, Tree.children, hs]
    exact Revise.revised_source ⟨_, u, r₁, hvisit⟩ hroot hmem rfl
  · cases h

/-- If the functions of a source are cut, and its text is revised, then the blocking calls of each
function are those that were statements, each of which became a wait, and those that are left. -/
theorem blocking_calls_left (rq : Request) (c c₁ c₂ : Compilation) (text : String) (s s' : Tree)
    (h : c.Sound) (hok : c.log.failed = false) (hcut : cut rq c = .ok () c₁)
    (hrevise : revise c₁ = .ok text c₂) (hs : c.source = some s) (hs' : c₁.source = some s') :
    List.Forall₂ (fun f f' => ∀ b b', f.child? .body = some b → f'.child? .body = some b' →
      b.blockingCalls.Perm (b.blockingStatements ++ b'.blockingCalls) ∧
        b'.waits = b.blockingStatements.length) (definitions s) (definitions s') := by
  obtain ⟨s₀, k, hs₀, hu, hcuts, -, -, -⟩ := cut_source h hok hcut hs'
  obtain rfl : s = s₀ := Option.some.inj (hs.symm.trans hs₀)
  have hroot : c₁.root.kind = .root := by
    obtain ⟨-, -, -, k, htree, -⟩ := cut_inv h hok hcut
    exact htree.kind.trans h.root
  -- The text is revised as a whole; what follows is said of each function.
  have hrevised := hcuts.revised hu (revised_of_revise hrevise hroot hs')
  refine hcuts.defines.forall₂ fun k f f' k' hf hf' hdef b b' hb hb' => ?_
  obtain ⟨hmem, hkind⟩ := mem_definitions s f hf
  have huf : f.uncut = true := uncut_subtree hu hmem
  have hub : b.uncut = true :=
    uncut_subtree huf (mem_subtrees_child (Resolve.mem_of_lookup hb))
  have hblock : b.kind = .statementList := by
    obtain ⟨n, ds⟩ := f
    obtain ⟨d, b₀, cs, rfl, hb₀⟩ := uncut_function huf hkind
    cases hb
    exact hb₀
  have hkind' : f'.kind = .functionDefinition := (mem_definitions s' f' hf').2
  have hunblocked : b'.unblocked = true := by
    obtain ⟨n, ds⟩ := f'
    refine Revise.unblocked_of_revised (Revise.revised_child (hrevised _ hf') ?_
      (Resolve.mem_of_lookup hb'))
    rw [show n.kind = .functionDefinition from hkind']
    rfl
  obtain ⟨ts, hcalls, hts⟩ := hdef.turns hub hb hb' hblock hunblocked
  exact perm_of_turns hub hcalls hts

end Compilation

namespace Sample

/-- A plugin whose handler sleeps once, and again at the end of each round of a loop, before it is
cut. -/
def polling : Compilation where
  log := { nextId := 41 }
  root := node 0 .root
  papi := some (.mk (node 34 .pluginSource) [
    (.declarationList, .mk (node 35 .declarationList) [
      (.declarations, declared 36 .papiFunctionDecl "papi_sleep" 37 38 [parameter 39 40 "ms"])])])
  source := some (.mk (node 1 .pluginSource) [
    (.declarationList, .mk (node 2 .declarationList) [
      (.declarations, .mk (node 3 .functionDefinition) [
        (.declaration, declared 4 .functionDecl "p_plugin_handler" 5 6 [
          parameter 7 8 "c", parameter 9 10 "ps", parameter 11 12 "st", parameter 13 14 "cmd",
          parameter 15 16 "r", parameter 17 18 "wf", parameter 19 20 "fb"]),
        (.body, .mk (node 21 .statementList) [
          (.statements, .mk (node 22 .callStatement) [
            (.expression, call 23 36 24 "papi_sleep" true [zero 25])]),
          (.statements, .mk (node 26 .forLoop) [
            (.condition, used 30 19 "fb"),
            (.iteration, call 27 36 28 "papi_sleep" true [zero 29]),
            (.body, .mk (node 31 .statementList) [])]),
          (.statements, .mk (node 32 .returnStatement) [(.expression, zero 33)])])])])])
  tokens := #[⟨.identifier, "0", 1, 0, 0⟩]

theorem polling_sound : polling.Sound where
  accounted _ := Multiset.coe_eq_coe.mpr (by decide +kernel)
  root := rfl
  source s hs := by
    obtain rfl := Option.some.inj hs
    decide +kernel
  machines := rfl

end Sample

namespace Compilation

theorem exists_revised (rq : Request) (c : Compilation) (p : Tree → Bool)
    (h : (match cut rq c with
      | .ok _ c₁ =>
        match revise c₁ with
        | .ok _ _ => c₁.source.any p
        | .error _ _ => false
      | .error _ _ => false) = true) :
    ∃ c₁ c₂ text s', cut rq c = .ok () c₁ ∧ revise c₁ = .ok text c₂ ∧ c₁.source = some s' ∧
      p s' = true := by
  cases hcut : cut rq c with
  | error e c₁ =>
    rw [hcut] at h
    cases h
  | ok u c₁ =>
    rw [hcut] at h
    dsimp only at h
    cases hrevise : revise c₁ with
    | error e c₂ =>
      rw [hrevise] at h
      cases h
    | ok text c₂ =>
      rw [hrevise] at h
      obtain ⟨s', hs', hp⟩ := (Option.any_eq_true _ _).mp h
      exact ⟨c₁, c₂, text, s', rfl, hrevise, hs', hp⟩

/-- In the example the calls of the handler are accounted for. -/
theorem polling_calls_left :
    ∃ c₁ c₂ text s s', Sample.polling.Sound ∧ Sample.polling.log.failed = false ∧
      cut {} Sample.polling = .ok () c₁ ∧ revise c₁ = .ok text c₂ ∧
      Sample.polling.source = some s ∧ c₁.source = some s' ∧
      List.Forall₂ (fun f f' => ∀ b b', f.child? .body = some b → f'.child? .body = some b' →
        b.blockingCalls.Perm (b.blockingStatements ++ b'.blockingCalls) ∧
          b'.waits = b.blockingStatements.length)
        (Cutting.definitions s) (Cutting.definitions s') := by
  obtain ⟨c₁, c₂, text, s', hcut, hrevise, hs', -⟩ :=
    exists_revised {} Sample.polling (fun _ => true) (by decide +kernel)
  exact ⟨c₁, c₂, text, _, s', Sample.polling_sound, rfl, hcut, hrevise, rfl, hs',
    blocking_calls_left {} Sample.polling c₁ c₂ text _ s' Sample.polling_sound rfl hcut hrevise rfl
      hs'⟩

/-- In the example the call at the end of each round stays, and blocks. -/
theorem iteration_still_blocks :
    ∃ c₁ c₂ text s', cut {} Sample.polling = .ok () c₁ ∧ revise c₁ = .ok text c₂ ∧
      c₁.source = some s' ∧ ∃ f ∈ Cutting.definitions s', ∃ b, f.child? .body = some b ∧
        27 ∈ b.blockingCalls := by
  obtain ⟨c₁, c₂, text, s', hcut, hrevise, hs', hp⟩ :=
    exists_revised {} Sample.polling (fun s => (Cutting.definitions s).any fun f =>
      (f.child? .body).any fun b => b.blockingCalls.contains 27) (by decide +kernel)
  obtain ⟨f, hf, hb⟩ := List.any_eq_true.mp hp
  obtain ⟨b, hbody, hmem⟩ := (Option.any_eq_true _ _).mp hb
  exact ⟨c₁, c₂, text, s', hcut, hrevise, hs', f, hf, b, hbody, by simpa using hmem⟩

end Compilation

end Resumable
