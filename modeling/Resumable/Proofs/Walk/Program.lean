import Resumable.Proofs.Walk.Function
import Resumable.Proofs.Walk.Nodes
import Resumable.Proofs.Walk.Rows

/-!
# Walks through programs

The walk through a program goes from one function to the next, and each function is cut with the
machines of those before it. A program in which an error was reported is given up at the end, so
what is said here is said of walks without one.

* `Cutting.CutsFunction.cleanly`: a function that was cut without an error has kept its nodes.
* `Cutting.cutsTree_of_functions`: a walk through a program is one through its functions.
* `Cutting.cutsTree_of_program`: the same for a program whose plugin has a name.
-/

namespace Resumable.Cutting

open Resumable.Tree

variable {c c' : Cutter} {f t body f' t' : Tree} {main : Bool} {cs : Children}

/-! ## Functions -/

theorem bag_rename (names : List (NodeId × Option String)) (t : Tree) :
    (rename names t).bag = t.bag := by
  refine bag_mapNodes (fun n => ?_) t
  split <;> rfl

/-- A function is cut without an error: the end of the handler is not reached, and no node is
lost. -/
structure CutsCleanly (main : Bool) (c : Cutter) (f f' : Tree) (c' : Cutter) : Prop where
  cuts : CutsFunction main c f f' c'
  ends : main = true → ∀ body, f.child? .body = some body → body.closed = .ok true
  failed : c.log.failed = false
  gains : c.log.Gains c'.log f.bag f'.bag

theorem CutsStatements.log_gains {cs' : Children} (h : CutsStatements c cs cs' c') :
    c.log.Gains c'.log (under cs) (under cs') := by
  have hbeside : c'.beside = c.beside := by
    rw [Cutter.beside, h.beside.1, h.beside.2, Cutter.beside]
  have hbalance := h.gains.balance
  rw [hbeside] at hbalance
  refine ⟨hbalance.le, add_right_cancel (b := c.beside) ?_⟩
  calc under cs' + c'.log.removed + c.beside
      = under cs' + c.beside + c'.log.removed := by abel
    _ = under cs + c.beside + c.log.removed + c.log.drawn c'.log := hbalance.has
    _ = under cs + c.log.removed + c.log.drawn c'.log + c.beside := by abel

theorem CutsStatements.gains_behind {rest : Children} {skip : Nat}
    (h : CutsStatements c (cs.drop skip) rest c') (b : Node) :
    c.log.Gains c'.log (mk b cs).bag (mk b (cs.take skip ++ rest)).bag := by
  have hsplit : under (cs.take skip) + under (cs.drop skip) = under cs := by
    rw [← under_append, List.take_append_drop]
  have hhad : (mk b cs).bag = under (cs.drop skip) + ({b.id} + under (cs.take skip)) := by
    rw [bag_mk, ← hsplit]
    abel
  have hhas : (mk b (cs.take skip ++ rest)).bag =
      under rest + ({b.id} + under (cs.take skip)) := by
    rw [bag_mk, under_append]
    abel
  exact h.log_gains.add _ hhad hhas

theorem gains_function {l l' : Log} {body' : Tree} (h : l.Gains l' body.bag body'.bag) (n : Node)
    (d : Tree) :
    l.Gains l' (mk n [(.declaration, d), (.body, body)]).bag
      (mk n [(.declaration, d), (.body, body')]).bag := by
  have hbag : ∀ t : Tree, (mk n [(.declaration, d), (.body, t)]).bag =
      t.bag + ({n.id} + d.bag) := by
    intro t
    simp only [bag_mk, under_cons, under_nil]
    abel
  exact h.add _ (hbag _) (hbag _)

/-- No function is rejected in a walk without errors, and each one keeps its nodes. -/
theorem CutsFunction.cleanly (h : CutsFunction main c f f' c') (hok : c'.log.failed = false) :
    CutsCleanly main c f f' c' := by
  have hends : ∀ {n b : Node} {d : Tree} {cs : Children},
      (main = true → (mk b cs).closed = .ok true) → main = true → ∀ body,
        (mk n [(.declaration, d), (.body, .mk b cs)]).child? .body = some body →
          body.closed = .ok true := by
    rintro n b d cs hclosed hmain body ⟨⟩
    exact hclosed hmain
  suffices hall : (main = true → ∀ body, f.child? .body = some body → body.closed = .ok true) ∧
      c.log.failed = false ∧ c.log.Gains c'.log f.bag f'.bag from ⟨h, hall.1, hall.2.1, hall.2.2⟩
  cases h with
  | rejected hmain hb ho hfailed =>
    rw [hfailed] at hok
    cases hok
  | @stateless _ n b d _ _ _ hb hskip h hs hclosed =>
    exact ⟨hends hclosed, h.gains.failed.symm.trans hok, gains_function (h.gains_behind b) n d⟩
  | @machine c₁ _ n b first d cs rest last skip o names hb hskip h hs hfirst hnames hm hlast hclosed
      hlog =>
    obtain ⟨hok₁, hgrows⟩ := hlog hok
    refine ⟨hends hclosed, h.gains.failed.symm.trans hok₁,
      gains_function ((h.gains_behind b).trans (hgrows.gains.add _ (zero_add _).symm ?_)) n d⟩
    -- The new nodes are the first statement, the dispatch and the reset at the end.
    rw [show (rename names (.mk b [])).node = (rename names (.mk b (withDispatch first
      (dispatchNode c₁.log.nextId o c₁.states main) skip cs rest))).node from rfl, bag_append,
      bag_rename]
    simp only [withDispatch, bag_mk, under_cons, under_append, under_nil, dispatchNode,
      Node.setFlag_id, Node.setNumber_id, Node.blank_id]
    abel

/-! ## Definitions and programs -/

/-- A function is cut according to its name, without an error. -/
inductive DefinesCleanly : Cutter → Tree → Tree → Cutter → Prop
  | unnamed {c : Cutter} {f : Tree} (hn : c.machines.names = none) : DefinesCleanly c f f c
  | setUp {c : Cutter} {f d : Tree} {names : PluginNames} (hn : c.machines.names = some names)
      (hd : f.child? .declaration = some d) (hv : visits names d.node.name? = false) :
      DefinesCleanly c f f c
  /-- The function that starts a run of the handler gets a first statement. -/
  | starter {c : Cutter} {l : Log} {n b first : Node} {d : Tree} {cs : Children}
      {names : PluginNames} (hn : c.machines.names = some names)
      (hv : visits names d.node.name? = false) (hb : b.kind = .statementList)
      (hfirst : InitNode (.mk n [(.declaration, d), (.body, .mk b cs)]) first)
      (hfailed : c.log.failed = false) (hgrows : c.log.Grows l 0 {first.id}) :
      DefinesCleanly c (.mk n [(.declaration, d), (.body, .mk b cs)])
        (.mk n [(.declaration, d), (.body, .mk b ((.statements, .mk first []) :: cs))])
        { c with log := l }
  | function {c c' : Cutter} {f f' d : Tree} {names : PluginNames}
      (hn : c.machines.names = some names) (hd : f.child? .declaration = some d)
      (hv : visits names d.node.name? = true)
      (h : CutsCleanly (d.node.name? = some names.handler) c f f' c') : DefinesCleanly c f f' c'

theorem DefinesCleanly.failed (h : DefinesCleanly c f f' c') (hok : c'.log.failed = false) :
    c.log.failed = false := by
  cases h with
  | unnamed hn | setUp hn hd hv => exact hok
  | starter hn hv hb hfirst hfailed hgrows => exact hfailed
  | function hn hd hv h => exact h.failed

theorem CutsDefinition.cleanly (h : CutsDefinition c f f' c') (hok : c'.log.failed = false) :
    DefinesCleanly c f f' c' := by
  cases h with
  | unnamed hn => exact .unnamed hn
  | setUp hn hd hv => exact .setUp hn hd hv
  | starter hb hfirst hn hv hlog => exact .starter hn hv hb hfirst (hlog hok).1 (hlog hok).2
  | function h hn hd hv => exact .function hn hd hv (h.cleanly hok)

/-- The kinds of nodes below which functions are not looked for. -/
def shut : Kind → Bool
  | .directive | .includeFile | .constantDefine | .functionDecl | .papiFunctionDecl
  | .operatorDecl => true
  | _ => false

mutual

/-- The functions of a tree are cut, one behind the other. -/
inductive CutsTree : Cutter → Tree → Tree → Cutter → Prop
  | definition {c c' : Cutter} {f f' : Tree} (hk : f.kind = .functionDefinition)
      (h : DefinesCleanly c f f' c') : CutsTree c f f' c'
  | shut {c : Cutter} {t : Tree} (hk : shut t.kind = true) : CutsTree c t t c
  | inner {c c' : Cutter} {n : Node} {cs cs' : Children}
      (hk : n.kind ≠ .functionDefinition) (hs : shut n.kind = false)
      (h : CutsTrees (n.kind = .root) c cs cs' c') : CutsTree c (.mk n cs) (.mk n cs') c'

/-- The functions of a row of trees are cut, or only those of the source. -/
inductive CutsTrees : Bool → Cutter → Children → Children → Cutter → Prop
  | nil {b : Bool} {c : Cutter} : CutsTrees b c [] [] c
  | skip {c c' : Cutter} {r : Role} {t : Tree} {cs cs' : Children}
      (hr : r ≠ .source) (h : CutsTrees true c cs cs' c') :
      CutsTrees true c ((r, t) :: cs) ((r, t) :: cs') c'
  | cons {b : Bool} {c c₁ c₂ : Cutter} {r : Role} {t t' : Tree} {cs cs' : Children}
      (hr : b = true → r = .source) (h : CutsTree c t t' c₁) (hcs : CutsTrees b c₁ cs cs' c₂) :
      CutsTrees b c ((r, t) :: cs) ((r, t') :: cs') c₂

end

/-! ## The nodes of a program -/

theorem DefinesCleanly.gains (h : DefinesCleanly c f f' c') : c.log.Gains c'.log f.bag f'.bag := by
  cases h with
  | unnamed hn | setUp hn hd hv => exact Log.Gains.refl _ _
  | starter hn hv hb hfirst hfailed hgrows =>
    refine gains_function (hgrows.gains.add _ (zero_add _).symm ?_) _ _
    simp only [bag_mk, under_cons, under_nil]
    abel
  | function hn hd hv h => exact h.gains

mutual

theorem CutsTree.gains {c c' : Cutter} {t t' : Tree} (h : CutsTree c t t' c') :
    c.log.Gains c'.log t.bag t'.bag :=
  match h with
  | .definition _ h => h.gains
  | .shut _ => Log.Gains.refl _ _
  | .inner _ _ h => by
    rw [bag_mk, bag_mk]
    exact h.gains.add _ (add_comm _ _) (add_comm _ _)

theorem CutsTrees.gains {b : Bool} {c c' : Cutter} {cs cs' : Children}
    (h : CutsTrees b c cs cs' c') : c.log.Gains c'.log (under cs) (under cs') :=
  match h with
  | .nil => Log.Gains.refl _ _
  | .skip _ h => by
    rw [under_cons, under_cons]
    exact h.gains.add _ (add_comm _ _) (add_comm _ _)
  | .cons _ h hcs => by
    rw [under_cons, under_cons]
    exact (h.gains.add _ rfl rfl).trans (hcs.gains.add _ (add_comm _ _) (add_comm _ _))

end

theorem CutsTrees.roles {b : Bool} {c c' : Cutter} {cs cs' : Children}
    (h : CutsTrees b c cs cs' c') : cs'.map (·.1) = cs.map (·.1) :=
  match h with
  | .nil => rfl
  | .skip _ h => by rw [List.map_cons, List.map_cons, h.roles]
  | .cons _ _ hcs => by rw [List.map_cons, List.map_cons, hcs.roles]

/-- What is cut comes from what was there, tree by tree. -/
theorem CutsTrees.mem {b : Bool} {c c' : Cutter} {cs cs' : Children}
    (h : CutsTrees b c cs cs' c') :
    ∀ p' ∈ cs', ∃ p ∈ cs, p.1 = p'.1 ∧ (p.2 = p'.2 ∨ ∃ k k', CutsTree k p.2 p'.2 k') :=
  match h with
  | .nil => by simp
  | .skip _ h => by
    refine List.forall_mem_cons.mpr ⟨⟨_, List.mem_cons_self, rfl, .inl rfl⟩, fun p' hp' => ?_⟩
    obtain ⟨p, hp, hfrom⟩ := h.mem p' hp'
    exact ⟨p, List.mem_cons_of_mem _ hp, hfrom⟩
  | .cons _ h hcs => by
    refine List.forall_mem_cons.mpr ⟨⟨_, List.mem_cons_self, rfl, .inr ⟨_, _, h⟩⟩, fun p' hp' => ?_⟩
    obtain ⟨p, hp, hfrom⟩ := hcs.mem p' hp'
    exact ⟨p, List.mem_cons_of_mem _ hp, hfrom⟩

theorem CutsFunction.roles (h : CutsFunction main c f f' c') :
    f'.children.map (·.1) = f.children.map (·.1) := by
  cases h <;> rfl

theorem CutsTree.roles (h : CutsTree c t t' c') : t'.children.map (·.1) = t.children.map (·.1) := by
  cases h with
  | shut hk => rfl
  | inner hk hs h => exact h.roles
  | definition hk h =>
    cases h with
    | unnamed hn | setUp hn hd hv => rfl
    | starter hn hv hb hfirst hfailed hgrows => rfl
    | function hn hd hv h => exact h.cuts.roles

/-! ## Programs -/

def Parsed (t : Tree) : Prop := ∀ s ∈ t.subtrees, s.kind = .functionDefinition → s.uncut = true

theorem Parsed.child {n : Node} (h : Parsed (.mk n cs)) {p : Role × Tree} (hp : p ∈ cs) :
    Parsed p.2 := fun s hs =>
  h s (mem_subtrees_trans hs (mem_subtrees_child hp))

theorem uncut_subtree {s : Tree} (h : t.uncut = true) (hs : s ∈ t.subtrees) : s.uncut = true := by
  induction t using ofChildren with
  | step n cs ih =>
    rcases mem_subtrees_mk.mp hs with rfl | ⟨p, hp, hs⟩
    · exact h
    · exact ih p hp (uncut_child h hp) hs

theorem parsed_of_uncut (h : t.uncut = true) : Parsed t := fun _ hs _ =>
  uncut_subtree h hs

/-- All functions that are cut in a tree are as the parser gives them; of a whole program only the
source is cut. -/
structure Ready (t : Tree) : Prop where
  uncut : t.kind = .functionDefinition → t.uncut = true
  parts : ∀ p ∈ t.children, (t.kind = .root → p.1 = .source) → Parsed p.2

theorem Parsed.ready (h : Parsed t) : Ready t := by
  obtain ⟨n, cs⟩ := t
  exact ⟨h _ (mem_subtrees_self _), fun p hp _ => h.child hp⟩

mutual

theorem cutsTree_of_functions : (t : Tree) → ∀ {t' : Tree} {c c' : Cutter},
    functions t c = (t', c') → c'.fault = none → c'.log.failed = false → Ready t →
      c.fault = none ∧ c.log.failed = false ∧ CutsTree c t t' c'
  | .mk n cs, t', c, c', h, hf, hok, hp => by
    rw [functions] at h
    obtain ⟨b, c₁, hstop, h₁⟩ := bind_inv h
    cases hstop
    cases hc : c.fault with
    | some f =>
      simp only [hc, Option.isSome_some, if_true] at h₁
      cases h₁
      rw [hc] at hf
      cases hf
    | none =>
    simp only [hc, Option.isSome_none, Bool.false_eq_true, if_false] at h₁
    refine ⟨rfl, ?_⟩
    -- the children are walked through if there can be functions among them
    have hinner : n.kind ≠ .functionDefinition → shut n.kind = false →
        (do return .mk n (← functions.go (n.kind = .root) cs) : Cutting Tree) c = (t', c') →
        c.log.failed = false ∧ CutsTree c (.mk n cs) t' c' := by
      intro hk hs hgo
      obtain ⟨cs', c₂, hcs, hend⟩ := bind_inv hgo
      cases hend
      obtain ⟨-, hok₀, hrow⟩ := cutsTrees_of_functions (n.kind = .root) cs hcs hf hok
        fun p hp' hr => hp.parts p hp' fun hroot => hr (decide_eq_true hroot)
      exact ⟨hok₀, .inner hk hs hrow⟩
    cases hk : n.kind
    case functionDefinition =>
      simp only [hk] at h₁
      have hclean := (cutsDefinition_of_definition (hp.uncut hk) hk h₁ hf).cleanly hok
      exact ⟨hclean.failed hok, .definition hk hclean⟩
    case root =>
      simp only [hk] at h₁ hinner
      exact hinner (by simp) rfl h₁
    all_goals
      simp only [hk] at h₁ hinner
      first
        | exact hinner (by simp) rfl h₁
        | cases h₁
          exact ⟨hok, .shut (by rw [kind, node, hk]; rfl)⟩

/-- The functions among the children of a node, from one to the next. -/
theorem cutsTrees_of_functions (b : Bool) : (cs : Children) →
    ∀ {cs' : Children} {c c' : Cutter},
    functions.go b cs c = (cs', c') → c'.fault = none → c'.log.failed = false →
      (∀ p ∈ cs, (b = true → p.1 = .source) → Parsed p.2) →
        c.fault = none ∧ c.log.failed = false ∧ CutsTrees b c cs cs' c'
  | [], cs', c, c', h, hf, hok, _ => by
    cases h
    exact ⟨hf, hok, .nil⟩
  | (r, t) :: cs, cs', c, c', h, hf, hok, hp => by
    rw [functions.go] at h
    have htail : ∀ p ∈ cs, (b = true → p.1 = .source) → Parsed p.2 := fun p hp' =>
      hp p (List.mem_cons_of_mem _ hp')
    rcases ite_inv h with ⟨hskip, h₁⟩ | ⟨hvisit, h₁⟩
    · -- At the top only the source is visited.
      obtain ⟨hb, hr⟩ := (Bool.and_eq_true _ _).mp hskip
      obtain ⟨t', c₁, ht, h₂⟩ := bind_inv h₁
      cases ht
      obtain ⟨rest, c₂, hrest, hend⟩ := bind_inv h₂
      cases hend
      subst hb
      obtain ⟨hf₁, hok₁, hcs⟩ := cutsTrees_of_functions true cs hrest hf hok htail
      exact ⟨hf₁, hok₁, .skip (by simpa using hr) hcs⟩
    · have hr : b = true → r = .source := by
        rintro rfl
        simpa using hvisit
      obtain ⟨t', c₁, ht, h₂⟩ := bind_inv h₁
      obtain ⟨rest, c₂, hrest, hend⟩ := bind_inv h₂
      cases hend
      obtain ⟨hf₁, hok₁, hcs⟩ := cutsTrees_of_functions b cs hrest hf hok htail
      obtain ⟨hf₀, hok₀, hhead⟩ := cutsTree_of_functions t ht hf₁ hok₁
        (hp (r, t) List.mem_cons_self hr).ready
      exact ⟨hf₀, hok₀, .cons hr hhead hcs⟩

end

/-- A program that is cut without an error, function by function. -/
theorem cutsTree_of_program {pluginPrefix : String} (h : program pluginPrefix t c = (t', c'))
    (hf : c'.fault = none) (hp : Ready t) :
    c'.log.failed = false ∧ c.log.failed = false ∧
      CutsTree { c with machines := c.machines.setPrefix pluginPrefix } t t' c' := by
  unfold program at h
  obtain ⟨x, c₁, hset, h₁⟩ := bind_inv h
  cases hset
  obtain ⟨t₁, c₂, ht, h₂⟩ := bind_inv h₁
  obtain ⟨x, c₃, hstage, hend⟩ := bind_inv h₂
  cases hend
  obtain ⟨x, rfl, hf₂, hcheck⟩ := fault_of_attempt hstage hf
  obtain ⟨rfl, hok⟩ := Step.checkStage_inv hcheck
  obtain ⟨-, hok₀, hcuts⟩ := cutsTree_of_functions t ht hf hok hp
  exact ⟨hok, hok₀, hcuts⟩

end Resumable.Cutting
