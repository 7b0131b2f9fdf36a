import Mathlib.Logic.Relation
import Resumable.Proofs.Ends
import Resumable.Proofs.Lookup
import Resumable.Proofs.Fields

/-!
# Statements that control does not leave

Resolution accepts no statement behind one that control does not leave, and cutting accepts no
handler whose end control could come to. Whether control leaves a statement is seen from its form;
what that is worth shows when the statement is carried out, whatever its conditions decide and
however often its loops go round.

* `Resolve.live_of_visit`: resolution accepts no statement behind one that control does not leave.
* `Job.Stops.moves`, `Job.Stops.reaches`: work that stops is never done.
* `Compilation.closed_not_left`: a statement that control does not leave is never done, nor is the
  handler.
-/

namespace Resumable

open List hiding iterate

open Job Resumable.Tree

variable {cs : Children} {n : Node} {t f body : Tree} {js w : List Job} {p : Role × Tree} {k : Kind}
  {c c' : Cutter} {resolved start : Compilation}

/-! ## Resolution -/

namespace Tree

theorem live_inParts (h : ∀ p ∈ cs, p.2.live = true) : live.inParts cs = true := by
  induction cs with
  | nil => rfl
  | cons p cs ih =>
    obtain ⟨hp, hcs⟩ := forall_mem_cons.mp h
    rw [live.inParts, hp, ih hcs]
    rfl

/-- A simple statement has nothing to reach. -/
theorem live_of_simple (hu : t.uncut = true) (hk : t.kind.simple = true) : t.live = true := by
  induction t using ofChildren with
  | step n cs ih =>
    have hlist : n.kind ≠ .statementList := by
      intro h
      rw [show (mk n cs).kind = n.kind from rfl, h] at hk
      cases hk
    rw [live, if_neg hlist]
    exact live_inParts fun p hp => ih p hp (uncut_child hu hp)
      (Kind.simple_of_operand (uncut_simple hu hk p hp))

end Tree

namespace Kind

/-- The kinds of nodes between a program and its lists of statements. -/
def framing : Kind → Bool
  | pluginSource | declarationList | argumentDeclList | functionDefinition | ifElse | whileLoop
  | doWhileLoop | forLoop => true
  | _ => false

theorem statement_cases (h : k.isA .statement = true) :
    k.simple = true ∨ k = .statementList ∨ k.framing = true ∧ (k = .ifElse ∨ k.loops = true) := by
  revert h
  cases k <;> decide

theorem declarationList_place : ∀ s ∈ k.slots, s.role = .declarationList →
    k = .pluginSource ∧ s.allowed = .declarationList := by
  cases k <;> decide

theorem framing_of_declarationList (h : k.isA .declarationList = true) : k.framing = true := by
  revert h
  cases k <;> decide

end Kind

namespace Resolve

open Step

variable {onDemand : NodeId → Resolve Unit} {env : Surroundings} {r r' : Resolution} {u : Unit}

/-- A visit of all parts visits each of them. -/
theorem visitAll_inv {parts : List Visitable} (h : visitAll parts r = .ok u r') :
    ∀ v ∈ parts, ∃ r₁ r₂, v.visit r₁ = .ok () r₂ := by
  induction parts generalizing r with
  | nil => simp
  | cons v parts ih =>
    obtain ⟨_, r₁, hv, hrest⟩ := bind_inv h
    exact forall_mem_cons.mpr ⟨⟨r, r₁, hv⟩, ih hrest⟩

theorem mem_visit_go (hp : p ∈ cs) :
    ⟨p.1, p.2, visit onDemand env p.2⟩ ∈ visit.go onDemand env cs := by
  induction cs with
  | nil => cases hp
  | cons q cs ih =>
    rcases mem_cons.mp hp with rfl | hp
    · exact mem_cons_self
    · exact mem_cons_of_mem _ (ih hp)

theorem visit_child (h : visitAll (visit.go onDemand env cs) r = .ok u r') (hp : p ∈ cs) :
    ∃ r₁ r₂, visit onDemand env p.2 r₁ = .ok () r₂ :=
  visitAll_inv h _ (mem_visit_go hp)

theorem visit_framed (hk : n.kind.framing = true) (h : visit onDemand env (mk n cs) r = .ok u r')
    (hp : p ∈ cs) : ∃ r₁ r₂, visit onDemand (env.enter n) p.2 r₁ = .ok () r₂ := by
  have hall : visitAll (visit.go onDemand (env.enter n) cs) r = .ok u r' := by
    cases hkind : n.kind <;> first
      | exact absurd (hkind ▸ hk) (by decide)
      | simpa only [visit, rule, Tree.node, hkind] using h
  exact visit_child hall hp

/-- In a list nothing stands behind a statement that control does not leave. -/
theorem live_of_statementList {stopped : Bool} (hcs : ∀ p ∈ cs, p.2.live = true)
    (h : statementList.go stopped (cs.map (·.2)) r = .ok u r') :
    live.inList cs = true ∧ (stopped = true → cs = []) := by
  induction cs generalizing stopped r with
  | nil => simp [live.inList]
  | cons p cs ih =>
    obtain ⟨ht, hcs⟩ := forall_mem_cons.mp hcs
    rw [map_cons, statementList.go] at h
    cases stopped with
    | true => cases h
    | false =>
      change (do
        statementList.go (false || (← p.2.closed)) (cs.map (·.2)) : Resolve Unit) r = _ at h
      obtain ⟨b, r₁, hb, hgo⟩ := bind_inv h
      obtain ⟨hclosed, rfl⟩ := lift_inv hb
      obtain ⟨hlist, hstop⟩ := ih hcs hgo
      refine ⟨?_, fun h => absurd h Bool.false_ne_true⟩
      rw [live.inList, ht, hlist, shut, hclosed]
      -- Behind a statement that control does not leave the list has to end.
      cases b with
      | true => rw [hstop rfl]; rfl
      | false => simp

/-- In a statement that was resolved, no statement stands behind one that control does not
leave. -/
theorem live_of_visit (hu : t.uncut = true) (hs : t.kind.isA .statement = true)
    (h : visit onDemand env t r = .ok u r') : t.live = true := by
  induction t using ofChildren generalizing env r u r' with
  | step n cs ih =>
    rcases Kind.statement_cases hs with hk | hk | ⟨hframing, hk⟩
    · exact live_of_simple hu hk
    · -- a list is checked behind its statements
      have hk : n.kind = .statementList := hk
      simp only [visit, rule, Tree.node, hk] at h
      obtain ⟨_, r₁, hall, hgo⟩ := bind_inv h
      rw [inRole_statements hu hk] at hgo
      rw [live, if_pos hk]
      refine (live_of_statementList (fun p hp => ?_) hgo).1
      obtain ⟨r₂, r₃, hp'⟩ := visit_child hall hp
      exact ih p hp (uncut_child hu hp) (uncut_block hu hk p hp).2 hp'
    · -- the blocks of a branch or a loop are lists
      have hlist : n.kind ≠ .statementList := by
        intro h
        rw [show (mk n cs).kind = _ from h] at hframing
        cases hframing
      rw [live, if_neg hlist]
      obtain ⟨ops, blocks, heq, hops, hblocks⟩ := uncut_compound hu hk
      refine live_inParts fun p hp => ?_
      rcases mem_append.mp (heq ▸ hp) with hp' | hp'
      · exact live_of_simple (uncut_child hu hp) (Kind.simple_of_operand (hops p hp'))
      · obtain ⟨r₂, r₃, hv⟩ := visit_framed hframing h hp
        refine ih p hp (uncut_child hu hp) ?_ hv
        rw [hblocks p hp']
        rfl

end Resolve

/-! ## Execution -/

namespace Job

/-- Whether something is to be done that control does not leave. -/
def Stops (js : List Job) : Prop := ∃ t, run t ∈ js ∧ t.closed = .ok true

theorem Stops.append {ks : List Job} (h : Stops js ∨ Stops ks) : Stops (js ++ ks) := by
  rcases h with ⟨t, ht, hc⟩ | ⟨t, ht, hc⟩
  · exact ⟨t, mem_append_left _ ht, hc⟩
  · exact ⟨t, mem_append_right _ ht, hc⟩

/-- The work of a list stops if one of its statements does. -/
theorem stops_runAll (h : closed.some? (closed.go cs) = .ok true) : Stops (runAll cs) := by
  induction cs with
  | nil => cases h
  | cons p cs ih =>
    rw [closed.go, closed.some?] at h
    cases hc : p.2.closed with
    | error e =>
      rw [hc] at h
      cases h
    | ok b =>
      rw [hc] at h
      cases b with
      | true => exact ⟨p.2, mem_cons_self, hc⟩
      | false =>
        obtain ⟨t, ht, hc⟩ := ih h
        exact ⟨t, mem_cons_of_mem _ ht, hc⟩

/-- A statement that control does not leave ends the function, or goes on to work that stops. -/
theorem flow_closed (h : t.closed = .ok true) (yes : Bool) :
    (run t).flow yes = .ends ∨ ∃ ts, (run t).flow yes = .next ts ∧ Stops ts := by
  obtain ⟨n, cs⟩ := t
  cases hk : n.kind
  case returnStatement => exact .inl (by simp [flow, Tree.kind, Tree.node, hk])
  case statementList =>
    simp only [closed, hk] at h
    exact .inr ⟨runAll cs, by simp [flow, Tree.kind, Tree.node, Tree.children, hk], stops_runAll h⟩
  case ifElse =>
    obtain ⟨a, b, ha, hca, hb, hcb⟩ := closed_branch hk h
    refine .inr ⟨runIn (mk n cs) (if yes then .thenBranch else .elseBranch),
      by simp only [flow, Tree.kind, Tree.node, hk], ?_⟩
    cases yes with
    | true => exact ⟨a, by simp [runIn, child?, Tree.children, ha], hca⟩
    | false => exact ⟨b, by simp [runIn, child?, Tree.children, hb], hcb⟩
  all_goals
    simp only [closed, hk] at h
    cases h

/-- One move keeps work that stops in front. -/
theorem Stops.moves {p q : Point} (hm : Moves p q) (h : Stops js) (hp : p.work = js ++ w) :
    ∃ ks, Stops ks ∧ q.work = ks ++ w := by
  obtain ⟨t, ht, hc⟩ := h
  cases js with
  | nil => cases ht
  | cons j js =>
    rcases mem_cons.mp ht with rfl | ht
    · -- the first job is one that control does not leave
      have hflow := flow_closed hc
      cases hm with
      | @next _ _ ts _ _ yes hf =>
        obtain ⟨rfl, rfl⟩ := cons.inj hp
        rcases hflow yes with hends | ⟨ts', hnext, hstops⟩
        · cases hends.symm.trans hf
        · cases hnext.symm.trans hf
          exact ⟨ts ++ js, .append (.inl hstops), (append_assoc ts js w).symm⟩
      | @store _ _ _ _ _ _ yes hf | @ask _ _ _ _ yes hf | @dispatch _ _ _ yes _ hf =>
        obtain ⟨rfl, rfl⟩ := cons.inj hp
        rcases hflow yes with hends | ⟨ts', hnext, -⟩
        · cases hends.symm.trans hf
        · cases hnext.symm.trans hf
    · have hstops : Stops js := ⟨t, ht, hc⟩
      cases hm with
      | @next _ _ ts _ _ _ hf | @store _ _ ts _ _ _ _ hf =>
        obtain ⟨rfl, rfl⟩ := cons.inj hp
        exact ⟨ts ++ js, .append (.inr hstops), (append_assoc ts js w).symm⟩
      | ask hf | dispatch hf =>
        obtain ⟨rfl, rfl⟩ := cons.inj hp
        exact ⟨js, hstops, rfl⟩

/-- So does a whole run. -/
theorem Stops.reaches {p q : Point} (h : Stops js) (hp : p.work = js ++ w)
    (hpq : Relation.ReflTransGen Moves p q) : ∃ ks, Stops ks ∧ q.work = ks ++ w := by
  induction hpq with
  | refl => exact ⟨js, h, hp⟩
  | tail _ hm ih =>
    obtain ⟨ks, hks, hq⟩ := ih
    exact hks.moves hm hq

theorem Stops.ne_nil (h : Stops js) : js ≠ [] := by
  rintro rfl
  obtain ⟨t, ht, -⟩ := h
  cases ht

end Job

/-- A body that control does not leave is never done. -/
theorem Reaches.work_ne_nil (hu : body.uncut = true) (hc : body.closed = .ok true) {p : Point}
    (h : Reaches body p) : p.work ≠ [] := by
  have hstops : ∃ ks, Stops ks ∧ p.work = ks ++ [] := by
    refine h.invariant (I := fun p => ∃ ks, Stops ks ∧ p.work = ks ++ []) ?_ ?_ ?_
    · exact ⟨[run body], ⟨body, mem_cons_self, hc⟩, rfl⟩
    · intro k ts hseek
      have hmark := mem_marks_of_seek hseek
      rw [marks_of_uncut hu] at hmark
      cases hmark
    · rintro p q ⟨ks, hks, hp⟩ hm
      exact hks.moves hm hp
  obtain ⟨ks, hks, hp⟩ := hstops
  rw [hp, append_nil]
  exact hks.ne_nil

/-! ## Programs -/

namespace Cutting

theorem DefinesAll.cleanly {fs fs' : List Tree} (h : DefinesAll c fs fs' c') (hf : f ∈ fs) :
    ∃ c₁ f' c₂, DefinesCleanly c₁ f f' c₂ ∧ c₁.machines.names = c.machines.names := by
  induction h with
  | nil => cases hf
  | cons h hs ih =>
    rcases mem_cons.mp hf with rfl | hf
    · exact ⟨_, _, _, h, rfl⟩
    · obtain ⟨c₁, f', c₂, hc, hn⟩ := ih hf
      obtain ⟨ms, hms, -⟩ := h.machines
      exact ⟨c₁, f', c₂, hc, hn.trans (by rw [hms])⟩

/-- A handler that is cut is closed. -/
theorem DefinesCleanly.closed {f' : Tree} {names : PluginNames} (h : DefinesCleanly c f f' c')
    (hn : c.machines.names = some names) (hf : nameOf f = some names.handler)
    (hb : f.child? .body = some body) : body.closed = .ok true := by
  have hvisits : ∀ {d : Tree} {names' : PluginNames}, c.machines.names = some names' →
      f.child? .declaration = some d → d.node.name? = some names'.handler := by
    intro d names' hn' hd
    cases hn.symm.trans hn'
    simpa [nameOf, hd] using hf
  cases h with
  | unnamed hnone => cases hn.symm.trans hnone
  | setUp hn' hd hv => simp [visits, hvisits hn' hd] at hv
  | starter hn' hv hb hfirst hfailed hgrows => simp [visits, hvisits hn' rfl] at hv
  | function hn' hd hv h => exact h.ends (decide_eq_true (hvisits hn' hd)) body hb

end Cutting

namespace Compilation

open Cutting

/-- The functions of a source. -/
def functions (c : Compilation) : List Tree :=
  c.source.toList.flatMap fun s => (s.child? .declarationList).toList.flatMap fun list =>
    (list.inRole .declarations).filter (·.kind = .functionDefinition)

theorem mem_functions {c : Compilation} : f ∈ c.functions ↔ ∃ src list,
    c.source = some src ∧ src.child? .declarationList = some list ∧
      (.declarations, f) ∈ list.children ∧ f.kind = .functionDefinition := by
  simp [functions, mem_inRole]

theorem visit_source {u : Unit} {src : Tree} (hs : start.Sound) (h : resolve start = .ok u resolved)
    (hsrc : start.source = some src) :
    ∃ onDemand env r r', Resolve.visit onDemand env src r = .ok () r' := by
  obtain ⟨t, r, hr, -⟩ := resolve_inv h
  unfold Resolve.run at hr
  obtain ⟨_, r₁, -, hr⟩ := Step.bind_inv hr
  obtain ⟨_, r₂, hall, -⟩ := Step.bind_inv hr
  unfold Resolve.all at hall
  obtain ⟨r₃, r₄, -, hvisit⟩ := Step.bind_inv hall
  -- At the top the parts are visited in their order, the source last.
  have hmem : (Role.source, src) ∈ start.tree.children := by simp [tree, Tree.children, hsrc]
  have hroot : start.tree.kind = .root := hs.root
  generalize start.tree = t at hvisit hmem hroot
  obtain ⟨n, cs⟩ := t
  have hroot : n.kind = .root := hroot
  simp only [Resolve.visit, Resolve.rule, Tree.node, hroot] at hvisit
  obtain ⟨_, r₅, -, hvisit⟩ := Step.bind_inv hvisit
  obtain ⟨_, r₆, -, hvisit⟩ := Step.bind_inv hvisit
  obtain ⟨_, r₇, -, hvisit⟩ := Step.bind_inv hvisit
  obtain ⟨r₈, r₉, hsource⟩ := Resolve.visitAll_inv hvisit _
    (mem_filter.mpr ⟨Resolve.mem_visit_go hmem, by simp⟩)
  exact ⟨_, _, r₈, r₉, hsource⟩

/-- The bodies of the functions were visited. -/
theorem visit_body {u : Unit} (hs : start.Sound) (h : resolve start = .ok u resolved)
    (hf : f ∈ start.functions) (hb : f.child? .body = some body) :
    body.uncut = true ∧ body.kind = .statementList ∧
      ∃ onDemand env r r', Resolve.visit onDemand env body r = .ok () r' := by
  obtain ⟨src, list, hsrc, hlist, hf, hkf⟩ := mem_functions.mp hf
  obtain ⟨onDemand, env, r, r', hvisit⟩ := visit_source hs h hsrc
  have hu := hs.source _ hsrc
  obtain ⟨n, cs⟩ := src
  obtain ⟨m, ds⟩ := list
  obtain ⟨k, es⟩ := f
  have hlist := mem_of_lookup hlist
  have hum := uncut_child hu hlist
  have huf := uncut_child hum hf
  -- the nodes on the way to the body
  obtain ⟨place, hplace, hrole, hallowed⟩ := fills_mem (uncut_fills hu) _ hlist
  obtain ⟨hn, hdecl⟩ := Kind.declarationList_place place hplace hrole.symm
  rw [hdecl] at hallowed
  obtain ⟨r₁, r₂, hvisit⟩ := Resolve.visit_framed (by rw [hn]; rfl) hvisit hlist
  obtain ⟨r₃, r₄, hvisit⟩ := Resolve.visit_framed
    (Kind.framing_of_declarationList hallowed) hvisit hf
  obtain ⟨d, b, bs, rfl, hkb⟩ := uncut_function huf hkf
  cases hb
  obtain ⟨r₅, r₆, hvisit⟩ := Resolve.visit_framed
    (by rw [show k.kind = _ from hkf]; rfl) hvisit (mem_cons_of_mem _ mem_cons_self)
  exact ⟨uncut_child huf (mem_cons_of_mem _ mem_cons_self), hkb, _, _, r₅, r₆, hvisit⟩

/-- In an accepted function no statement follows one that control does not leave. Such a statement
is never left at its end, whatever follows it, so that the handler of a program that can be cut
never comes to its end. -/
theorem closed_not_left {rq : Request} {start resolved : Compilation} {u : Unit}
    (hs : start.Sound) (hok : start.log.failed = false) (h : resolve start = .ok u resolved) :
    (∀ f ∈ start.functions, ∀ body, f.child? .body = some body → body.live = true) ∧
      (∀ s : Tree, s.closed = .ok true → ∀ w k rs p,
        Relation.ReflTransGen Moves ⟨run s :: w, k, rs⟩ p → ∃ js, js ≠ [] ∧ p.work = js ++ w) ∧
      ∀ c, cut rq resolved = .ok () c → ∀ src f body, resolved.source = some src →
        f ∈ definitions src → nameOf f = c.machines.names.map (·.handler) →
          f.child? .body = some body → ∀ p, Reaches body p → p.work ≠ [] := by
  refine ⟨fun f hf body hb => ?_, fun s hc w k rs p hp => ?_, ?_⟩
  · obtain ⟨hu, hk, onDemand, env, r, r', hvisit⟩ := visit_body hs h hf hb
    exact Resolve.live_of_visit hu (by rw [hk]; rfl) hvisit
  · have hs : Stops [run s] := ⟨s, mem_cons_self, hc⟩
    obtain ⟨js, hjs, hp⟩ := hs.reaches rfl hp
    exact ⟨js, hjs.ne_nil, hp⟩
  · intro c hcut src f body hsrc hf hname hb p hp
    obtain ⟨hsound, hok, -⟩ := hs.resolve hok h
    obtain ⟨after, hafter⟩ := exists_source_of_cut hsound hok hcut hsrc
    obtain ⟨src', k, hsrc', hu, hcuts, -, hms, -⟩ := cut_source hsound hok hcut hafter
    obtain rfl : src' = src := Option.some.inj (hsrc'.symm.trans hsrc)
    -- The handler was cut cleanly, which it only is if it is closed.
    obtain ⟨c₁, f', c₂, hclean, hnames⟩ := hcuts.defines.cleanly hf
    obtain ⟨ms, hlist, -⟩ := hcuts.defines.machines
    have hnames' : c.machines.names = c₁.machines.names := by rw [← hms, hlist, hnames]
    obtain ⟨names, hn⟩ : ∃ names, c₁.machines.names = some names := ⟨_, hnames⟩
    rw [hnames', hn] at hname
    obtain ⟨hmem, -⟩ := mem_definitions src' f hf
    refine hp.work_ne_nil ?_ (hclean.closed hn hname hb)
    obtain ⟨n, cs⟩ := f
    exact uncut_child (uncut_subtree hu hmem) (mem_of_lookup hb)

/-- In the example, a function waits and returns, and the end of the handler is never reached. -/
theorem plugin_not_left : ∃ resolved c f body src handler body', resolve Sample.plugin =
      .ok () resolved ∧ cut Sample.request resolved = .ok () c ∧
    (f ∈ Sample.plugin.functions ∧ f.child? .body = some body ∧ body.live = true ∧
      body.closed = .ok true ∧ ∀ w k rs p, Relation.ReflTransGen Moves ⟨run body :: w, k, rs⟩ p →
        ∃ js, js ≠ [] ∧ p.work = js ++ w) ∧
    resolved.source = some src ∧ handler ∈ definitions src ∧
      nameOf handler = c.machines.names.map (·.handler) ∧ handler.child? .body = some body' ∧
      ∀ p, Reaches body' p → p.work ≠ [] := by
  obtain ⟨f, hf, body, hb, hclosed⟩ : ∃ f ∈ Sample.plugin.functions, ∃ body,
      f.child? .body = some body ∧ body.closed = .ok true :=
    ⟨_, mem_functions.mpr ⟨_, _, rfl, rfl, mem_cons_self, rfl⟩, _, rfl, rfl⟩
  obtain ⟨_, resolved, c, out, hc, hseen⟩ := Sample.plugin_compiled
  simp only [Sample.seen, Bool.and_eq_true, any_eq_true, Option.any_eq_true, beq_iff_eq,
    Option.isSome_iff_exists] at hseen
  obtain ⟨-, src, hsrc, handler, hmem, hname, body', hbody'⟩ := hseen
  obtain ⟨l, hcut⟩ := hc.cuts
  obtain ⟨hlive, hleft, hhandler⟩ := @closed_not_left Sample.request _ _ _ Sample.plugin_sound rfl
    hc.resolves
  exact ⟨resolved, _, f, body, src, handler, body', hc.resolves, hcut, ⟨hf, hb, hlive f hf body hb,
    hclosed, hleft body hclosed⟩, hsrc, hmem, hname, hbody',
    hhandler _ hcut src handler body' hsrc hmem hname hbody'⟩

end Compilation

end Resumable
