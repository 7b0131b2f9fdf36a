import Resumable.Proofs.Definitions
import Resumable.Proofs.Walk.Places

/-!
# Which calls pass a machine

A function that was cut is declared with its machine as first parameters, and a call of it has to
pass one. Whether a call does is settled when the call is visited, by the machines that are there at
that moment; which functions are declared with a machine is only known at the end. So a call passes
a machine if and only if the function that it refers to stands before the one in which the call is,
has a machine, and the calls of the latter are visited at all.

* `Cutting.CutsCleanly.passes`: the calls of a function that was cut go by the machines before it.
* `Cutting.DefinesCleanly.takesMachine_iff`: so do those of one that was not.
* `Compilation.calls_pass_machines`: which calls pass a machine in a whole program.
* `Compilation.recursive_call_passes_none`: a function that calls itself passes none.
-/

namespace Resumable

open List Resumable.Tree

variable {n a b : Node} {cs as : Children} {t w f f' k : Tree} {g : Node → Node} {N : Node → Prop}
  {skip : Nat}

/-- Whether a function is declared with a machine as first parameters. -/
def Machines.extended (ms : Machines) (function : Option NodeId) : Bool :=
  (function.bind ms.find?).any fun m => !m.main

namespace Tree

/-- Whether the first argument of a call is a machine. -/
def takesMachine (t : Tree) : Bool :=
  (t.child? .argumentList).any fun a =>
    (a.inRole .arguments).head?.any (·.kind == .machineArgument)

/-- The declaration that a call refers to. -/
def callee? (t : Tree) : Option NodeId := t.node.link? .declaration

theorem exists_machine_of_takesMachine (h : t.takesMachine = true) :
    ∃ a m, (Role.argumentList, a) ∈ t.children ∧ (Role.arguments, m) ∈ a.children ∧
      m.kind = .machineArgument := by
  unfold takesMachine at h
  cases ha : t.child? .argumentList with
  | none =>
    rw [ha] at h
    cases h
  | some a =>
    rw [ha, Option.any_some] at h
    cases hhead : (a.inRole .arguments).head? with
    | none =>
      rw [hhead] at h
      cases h
    | some m =>
      rw [hhead] at h
      exact ⟨a, m, Resolve.mem_of_lookup ha, mem_inRole.mp (mem_of_mem_head? hhead),
        by simpa using h⟩

theorem kind_ne_of_uncut (h : t.uncut = true) : t.kind ≠ .machineArgument := by
  obtain ⟨n, cs⟩ := t
  intro hk
  have hplain := uncut_inserted h
  rw [show n.kind = .machineArgument from hk] at hplain
  cases hplain

/-- No call of a source passes a machine. -/
theorem takesMachine_of_uncut (h : t.uncut = true) : t.takesMachine = false := by
  by_contra hne
  obtain ⟨a, m, ha, hm, hk⟩ := exists_machine_of_takesMachine (Bool.eq_true_of_not_eq_false hne)
  obtain ⟨n, cs⟩ := t
  have hua : a.uncut = true := uncut_child h ha
  obtain ⟨b, as⟩ := a
  exact kind_ne_of_uncut (uncut_child hua hm) hk

theorem takesMachine_eq_false (h : ∀ p ∈ as, p.2.kind ≠ .machineArgument) :
    (mk n [(.argumentList, mk a as)]).takesMachine = false := by
  by_contra hne
  obtain ⟨b, m, hb, hm, hk⟩ := exists_machine_of_takesMachine (Bool.eq_true_of_not_eq_false hne)
  obtain rfl : b = mk a as := congrArg Prod.snd (mem_singleton.mp hb)
  exact h _ hm hk

/-! ## Other names -/

theorem node_mapNodes (g : Node → Node) (t : Tree) : (t.mapNodes g).node = g t.node := by
  cases t
  rfl

theorem mem_subtrees_mapNodes (h : k ∈ (t.mapNodes g).subtrees) :
    ∃ s ∈ t.subtrees, k = s.mapNodes g := by
  induction t using ofChildren with
  | step n cs ih =>
    rw [mapNodes, mapNodes_go_eq_map] at h
    rcases mem_subtrees_mk.mp h with rfl | ⟨p', hp', hk⟩
    · refine ⟨mk n cs, mem_subtrees_self _, ?_⟩
      rw [mapNodes, mapNodes_go_eq_map]
    · obtain ⟨p, hp, rfl⟩ := mem_map.mp hp'
      obtain ⟨s, hs, rfl⟩ := ih p hp hk
      exact ⟨s, mem_subtrees_mk.mpr (.inr ⟨p, hp, hs⟩), rfl⟩

/-- Names do not matter for that. -/
theorem takesMachine_mapNodes (hg : Renames g) (t : Tree) :
    (t.mapNodes g).takesMachine = t.takesMachine := by
  obtain ⟨n, cs⟩ := t
  unfold takesMachine
  rw [child?, mapNodes, children, lookup_mapNodes]
  cases hargs : (mk n cs).child? .argumentList with
  | none =>
    rw [show cs.lookup .argumentList = none from hargs]
    rfl
  | some a =>
    rw [show cs.lookup .argumentList = some a from hargs]
    simp only [Option.map_some, Option.any_some, inRole_mapNodes, head?_map]
    cases (a.inRole .arguments).head? with
    | none => rfl
    | some m => simp only [Option.map_some, Option.any_some, hg.kind_mapNodes]

end Tree

namespace Cutting

/-! ## Calls that are visited -/

/-- All calls in a tree pass a machine if and only if the function has one. -/
def Passes (ms : Machines) (t : Tree) : Prop :=
  ∀ k ∈ t.subtrees, k.kind = .call → k.takesMachine = ms.hasStates k.callee?

variable {ms : Machines} {c c' : Cutter}

theorem passes_mk (hk : n.kind ≠ .call) (hcs : ∀ p ∈ cs, Passes ms p.2) : Passes ms (.mk n cs) := by
  intro k hmem hcall
  rcases mem_subtrees_mk.mp hmem with rfl | ⟨p, hp, hmem⟩
  · exact absurd hcall hk
  · exact hcs p hp k hmem hcall

theorem passes_leaf (hk : n.kind ≠ .call) : Passes ms (.mk n []) :=
  passes_mk hk (by simp)

/-- A call that the walk has left passes a machine if its function had one. -/
theorem Left.passes {s : Tree} (hu : w.uncut = true)
    (h : Left w (fun x b => ms.hasStates x = b) N s) (hk : s.kind = .call) :
    s.takesMachine = ms.hasStates s.callee? := by
  have hno : ∀ {k : Kind}, s.kind = k → k ≠ .call → s.takesMachine = ms.hasStates s.callee? :=
    fun h hne => absurd (h.symm.trans hk) hne
  cases h with
  | same hw hp => exact (takesMachine_of_uncut (uncut_subtree hu hw)).trans (hp hk).symm
  | @turned n _ _ hw hn | @put n _ hn =>
    rw [show n.kind = .call from hk] at hn
    cases hn
  | call hw hn ha h hp =>
    refine (takesMachine_eq_false fun q hq => ?_).trans hp.symm
    -- no operand becomes a machine
    obtain ⟨p, hp, hturns⟩ := h.mem q hq
    rcases hturns.kind with hkind | ⟨-, hkind⟩
    · rw [hkind]
      exact kind_ne_of_uncut (uncut_subtree hu (child_mem (child_mem hw mem_cons_self) hp))
    · rw [hkind]
      decide
  | given hw hn ha hp => exact hp.symm
  | arguments hw ha hm h => exact hno ha (by decide)
  | block hw hn h => exact hno hn (by decide)

theorem Stands.passes (hu : w.uncut = true) (h : Stands w (fun x b => ms.hasStates x = b) N t) :
    Passes ms t := fun k hk hcall =>
  (h.1 k hk).passes hu hcall

/-! ## Functions -/

/-- A prologue makes no calls. -/
theorem passes_prologue (hu : (Tree.mk b cs).uncut = true)
    (hskip : prologue (cs.map (·.2)) = .ok skip) : ∀ p ∈ cs.take skip, Passes ms p.2 := by
  intro p hp
  have hup : p.2.uncut = true := uncut_child hu (mem_of_mem_take hp)
  obtain ⟨hk, e, x, he, hcast, hx, huse⟩ := namesCast_of_prologue hu hskip p hp
  obtain ⟨r, n, ds⟩ := p
  replace hk : n.kind = .variableDeclaration := hk
  have hbare : ∀ {m : Node} {es : Children} {u : Role × Tree},
      (Tree.mk m es).uncut = true → m.kind.isA .functionDecl = false → u ∈ es →
      u.1.typing = true → Passes ms u.2 := fun hum hm hu hr k hkmem hcall =>
    absurd hcall (kind_ne_call_of_bare (uncut_child hum hu)
      (Kind.bare_of_typeRef (type_of_role hum hm hu hr)) k hkmem)
  obtain ⟨ty, rfl | ⟨e', rfl⟩⟩ := uncut_variableDeclaration hup hk
  · cases he
  obtain rfl : e' = e := Option.some.inj he
  -- the first value is a cast of a variable
  obtain ⟨m, es⟩ := e'
  replace hcast : m.kind = .cast := hcast
  have hue : (Tree.mk m es).uncut = true :=
    uncut_child hup (mem_cons_of_mem _ mem_cons_self)
  have hf := uncut_fills hue
  rw [hcast] at hf
  obtain ⟨ct, rest, rfl, -, hf⟩ := fills_one rfl hf
  obtain ⟨x', rest, rfl, -, hf⟩ := fills_one rfl hf
  obtain rfl := fills_nil hf
  obtain rfl : x' = x := Option.some.inj hx
  have hvalue : Passes ms x' := by
    obtain ⟨l, xs⟩ := x'
    exact fun k hkmem hcall => absurd hcall (kind_ne_call_of_empty
      (uncut_child hue (mem_cons_of_mem _ mem_cons_self)) huse (by decide) rfl k hkmem)
  refine passes_mk (by rw [hk]; decide) (forall_mem_cons.mpr
    ⟨hbare hup (hk ▸ rfl) mem_cons_self rfl, forall_mem_singleton.mpr
      (passes_mk (by rw [hcast]; decide) (forall_mem_cons.mpr
        ⟨hbare hue (hcast ▸ rfl) mem_cons_self rfl, forall_mem_singleton.mpr hvalue⟩))⟩)

theorem Passes.mapNodes (hg : Renames g) (h : Passes ms t) : Passes ms (t.mapNodes g) := by
  intro k hk hcall
  obtain ⟨s, hs, rfl⟩ := mem_subtrees_mapNodes hk
  rw [takesMachine_mapNodes hg, callee?, node_mapNodes, hg.link?]
  exact h s hs ((hg.kind_mapNodes s).symm.trans hcall)

theorem passes_rest {rest : Children} (hu : (Tree.mk b cs).uncut = true)
    (h : CutsStatements { c with states := 0, persistence := {} } (cs.drop skip) rest c') :
    ∀ p ∈ rest, Passes c.machines p.2 := by
  obtain ⟨hrest, -⟩ := (h.within [] []).left (w := .mk b cs)
    (P := fun x b => c.machines.hasStates x = b) (N := fun _ => True)
    (fun p hp => mem_subtrees_child (mem_of_mem_drop hp))
    ⟨hu, fun _ _ => trivial, fun _ => rfl, nofun⟩
  exact fun p hp => (hrest p hp).2.passes hu

theorem CutsCleanly.passes {main : Bool} {body : Tree} (h : CutsCleanly main c f f' c')
    (hu : f.uncut = true) (hb : f'.child? .body = some body) : Passes c.machines body := by
  cases h.cuts with
  | rejected hmain hbody ho =>
    rw [h.ends hmain _ hbody] at ho
    cases ho
  | @stateless _ n b d cs rest skip hkind hskip hwalk hs =>
    cases hb
    have hub : (Tree.mk b cs).uncut = true :=
      uncut_child hu (mem_cons_of_mem _ mem_cons_self)
    have hrest := passes_rest hub hwalk
    exact passes_mk (by rw [hkind]; decide)
      (forall_mem_append.mpr ⟨passes_prologue hub hskip, hrest⟩)
  | @machine c₁ _ n b first d cs rest last skip o names hkind hskip hwalk hs hfirst hnames hm
      hlast =>
    cases hb
    have hub : (Tree.mk b cs).uncut = true :=
      uncut_child hu (mem_cons_of_mem _ mem_cons_self)
    have hrest := passes_rest hub hwalk
    -- the set-up and the dispatch are no calls, and neither is a reset at the end
    have hfirst' : first.kind ≠ .call := by
      cases hfirst <;> simp [Node.blank, Node.setText]
    have hall : Passes c.machines (.mk b (withDispatch first
        (dispatchNode c₁.log.nextId o c₁.states main) skip cs rest)) :=
      passes_mk (by rw [hkind]; decide) (forall_mem_cons.mpr ⟨passes_leaf hfirst',
        forall_mem_append.mpr ⟨passes_prologue hub hskip, forall_mem_cons.mpr
          ⟨passes_leaf (by simp [dispatchNode, Node.blank, Node.setNumber, Node.setFlag]),
            hrest⟩⟩⟩)
    have hlast' : ∀ p ∈ last, Passes c.machines p.2 := by
      cases hlast with
      | none hc => simp
      | reset => exact forall_mem_singleton.mpr (passes_leaf (by simp [Node.blank]))
    have hnames' := hall.mapNodes (renames_names names)
    refine passes_mk ?_ (forall_mem_append.mpr ⟨fun p hp => ?_, hlast'⟩)
    · rw [show (rename names (.mk b [])).node.kind = b.kind from
        (renames_names names).kind b, hkind]
      decide
    · exact fun k hk hcall => hnames' k (mem_subtrees_trans hk (mem_subtrees_child hp)) hcall

/-! ## Outside of functions -/

theorem kind_ne_of_cutsTree {a a' m : Tree} (h : CutsTree c a a' c') (hu : a.uncut = true)
    (hm : (Role.arguments, m) ∈ a'.children) : m.kind ≠ .machineArgument := by
  obtain ⟨n, cs⟩ := a
  cases h with
  | definition hk h =>
    -- a function has a declaration and a body, and no arguments
    have hroles := (CutsTree.definition hk h).roles
    obtain ⟨d, b, ds, rfl, -⟩ := uncut_function hu hk
    have hmem : Role.arguments ∈ a'.children.map (·.1) := mem_map_of_mem (f := (·.1)) hm
    rw [hroles] at hmem
    simp [Tree.children] at hmem
  | shut hk => exact kind_ne_of_uncut (uncut_child hu hm)
  | inner hk hs h =>
    obtain ⟨⟨r, u⟩, hp, -, rfl | ⟨k, k', hcut⟩⟩ := h.mem _ hm
    · exact kind_ne_of_uncut (uncut_child hu hp)
    · rw [hcut.kind]
      exact kind_ne_of_uncut (uncut_child hu hp)

mutual

/-- A call that passes a machine stands in a function. -/
theorem CutsTree.exists_function {c c' : Cutter} {t t' k : Tree} (h : CutsTree c t t' c')
    (hu : t.uncut = true) (hk : k ∈ t'.subtrees) (hmach : k.takesMachine = true) :
    ∃ f' ∈ definitions t', k ∈ f'.subtrees :=
  match h with
  | .definition hkind hdef => by
    have hkind' : t'.kind = .functionDefinition := by rw [Tree.kind, hdef.node.1]; exact hkind
    rw [definitions_function hkind']
    exact ⟨t', mem_singleton_self _, hk⟩
  | .shut hkind => by
    rw [takesMachine_of_uncut (uncut_subtree hu hk)] at hmach
    cases hmach
  | .inner hkind hs hrow => by
    -- Outside of functions no call gets a machine.
    rcases mem_subtrees_mk.mp hk with rfl | ⟨p', hp', hk⟩
    · obtain ⟨a, m, ha, hm, hkm⟩ := exists_machine_of_takesMachine hmach
      obtain ⟨⟨r, u⟩, hp, -, rfl | ⟨k, k', hcut⟩⟩ := hrow.mem _ ha
      · exact absurd hkm (kind_ne_of_uncut (uncut_subtree (uncut_child hu hp)
          (mem_subtrees_child hm)))
      · exact absurd hkm (kind_ne_of_cutsTree hcut (uncut_child hu hp) hm)
    · rw [definitions_inner hkind hs]
      exact hrow.exists_function (fun p hp => uncut_child hu hp) hp' hk hmach

theorem CutsTrees.exists_function {b : Bool} {c c' : Cutter} {cs cs' : Children}
    {p' : Role × Tree} {k : Tree} (h : CutsTrees b c cs cs' c') (hu : ∀ p ∈ cs, p.2.uncut = true)
    (hp' : p' ∈ cs') (hk : k ∈ p'.2.subtrees) (hmach : k.takesMachine = true) :
    ∃ f' ∈ definitions.go b cs', k ∈ f'.subtrees :=
  match h with
  | .nil => by cases hp'
  | .skip hr h => by
    obtain ⟨hut, hucs⟩ := forall_mem_cons.mp hu
    rw [definitions.go, if_pos (by simpa using hr)]
    rcases mem_cons.mp hp' with rfl | hp'
    · rw [takesMachine_of_uncut (uncut_subtree hut hk)] at hmach
      cases hmach
    · exact h.exists_function hucs hp' hk hmach
  | .cons (b := b) (r := r) hr h hcs => by
    obtain ⟨hut, hucs⟩ := forall_mem_cons.mp hu
    have hvisit : ¬ ((b && decide (r ≠ .source)) = true) := by simpa using hr
    rw [definitions.go, if_neg hvisit]
    rcases mem_cons.mp hp' with rfl | hp'
    · obtain ⟨f', hf', hmem⟩ := h.exists_function hut hk hmach
      exact ⟨f', mem_append_left _ hf', hmem⟩
    · obtain ⟨f', hf', hmem⟩ := hcs.exists_function hucs hp' hk hmach
      exact ⟨f', mem_append_right _ hf', hmem⟩

end

theorem DefinesCleanly.parts (h : DefinesCleanly c f f' c') (hu : f.uncut = true)
    (hkind : f.kind = .functionDefinition) :
    ∃ n d body, f' = .mk n [(.declaration, d), (.body, body)] ∧ n.kind = .functionDefinition ∧
      d.uncut = true := by
  obtain ⟨n, ds⟩ := f
  obtain ⟨d, b, cs, rfl, -⟩ := uncut_function hu hkind
  have hd : d.uncut = true := uncut_child hu mem_cons_self
  cases h with
  | unnamed hn | setUp hn hd hv => exact ⟨n, d, _, rfl, hkind, ‹d.uncut = true›⟩
  | starter hn hv hb hfirst hfailed hgrows => exact ⟨n, d, _, rfl, hkind, hd⟩
  | function hn hdecl hv h =>
    cases h.cuts <;> exact ⟨n, d, _, rfl, hkind, hd⟩

theorem DefinesCleanly.takesMachine_iff (h : DefinesCleanly c f f' c') (hu : f.uncut = true)
    (hkind : f.kind = .functionDefinition) {names : PluginNames}
    (hn : c.machines.names = some names) (hk : k ∈ f'.subtrees) (hcall : k.kind = .call) :
    k.takesMachine = true ↔ visits names (nameOf f') = true ∧
      (∃ body, f'.child? .body = some body ∧ k ∈ body.subtrees) ∧
        c.machines.hasStates k.callee? = true := by
  -- a function that is not visited holds what it held before, and a first statement
  have hleft : (∀ u ∈ f'.subtrees, u.kind = .call → u.uncut = true) →
      visits names (nameOf f') = false →
      (k.takesMachine = true ↔ visits names (nameOf f') = true ∧
        (∃ body, f'.child? .body = some body ∧ k ∈ body.subtrees) ∧
          c.machines.hasStates k.callee? = true) := by
    intro hcalls hv
    rw [takesMachine_of_uncut (hcalls k hk hcall), hv]
    simp
  obtain ⟨m, d', body, hparts, hm, hd'⟩ := h.parts hu hkind
  cases h with
  | unnamed hnone =>
    rw [hnone] at hn
    cases hn
  | setUp hn' hd hv =>
    rw [hn'] at hn
    cases hn
    refine hleft (fun u hu' _ => uncut_subtree hu hu') ?_
    rw [nameOf, hd]
    exact hv
  | @starter l n b first d cs names' hn' hv hb hfirst hfailed hgrows =>
    rw [hn'] at hn
    cases hn
    refine hleft (fun u hmem hcall => ?_) hv
    have hub : (Tree.mk b cs).uncut = true :=
      uncut_child hu (mem_cons_of_mem _ mem_cons_self)
    rcases mem_subtrees_mk.mp hmem with rfl | ⟨p, hp, hmem⟩
    · exact absurd (hcall.symm.trans hkind) (by decide)
    rcases mem_pair.mp hp with rfl | rfl
    · exact uncut_subtree (uncut_child hu mem_cons_self) hmem
    rcases mem_subtrees_mk.mp hmem with rfl | ⟨p, hp, hmem⟩
    · rw [Tree.kind, Tree.node, hb] at hcall
      cases hcall
    rcases mem_cons.mp hp with rfl | hp
    · rcases mem_subtrees_mk.mp hmem with rfl | ⟨p, hp, -⟩
      · cases hfirst <;> cases hcall
      · cases hp
    · exact uncut_subtree (uncut_child hub hp) hmem
  | function hn' hd hv h =>
    rw [hn'] at hn
    cases hn
    subst hparts
    have hpasses : Passes c.machines body := h.passes hu rfl
    have hname : visits names (nameOf (.mk m [(.declaration, d'), (.body, body)])) = true := by
      rw [nameOf, h.cuts.node.2, hd]
      exact hv
    rw [hname]
    constructor
    · intro hmach
      rcases mem_subtrees_mk.mp hk with rfl | ⟨p, hp, hmem⟩
      · rw [Tree.kind, Tree.node, hm] at hcall
        cases hcall
      rcases mem_pair.mp hp with rfl | rfl
      · rw [takesMachine_of_uncut (uncut_subtree hd' hmem)] at hmach
        cases hmach
      · exact ⟨rfl, ⟨body, rfl, hmem⟩, hpasses k hmem hcall ▸ hmach⟩
    · rintro ⟨-, ⟨body', hbody, hmem⟩, hstates⟩
      cases hbody
      rw [hpasses k hmem hcall]
      exact hstates

/-! ## Signatures -/

theorem hasStates_of_extended {x : Option NodeId} (h : ms.extended x = true) :
    ms.hasStates x = true := by
  cases x with
  | none => cases h
  | some i =>
    cases hm : ms.find? i with
    | none => simp [Machines.extended, hm] at h
    | some m =>
      have hfun : m.function = i := by simpa using find?_some hm
      exact hasStates_iff.mpr ⟨m, mem_of_find?_eq_some hm, by rw [hfun]⟩

/-- A function is declared with a machine if it is no handler. -/
theorem extended_iff {names : Option PluginNames} {fs : List Tree}
    (hown : ∀ m ∈ ms.list, ∃ f ∈ fs, MachineOf names f m) (hnd : (fs.flatMap ids).Nodup) {g : Tree}
    (hg : g ∈ fs) (hstates : ms.hasStates (declared? g) = true) :
    ms.extended (declared? g) = true ↔ nameOf g ≠ names.map (·.handler) := by
  obtain ⟨m, hm, hfun⟩ := hasStates_iff.mp hstates
  obtain ⟨m', hfind⟩ : ∃ m', ms.find? m.function = some m' := by
    refine Option.isSome_iff_exists.mp (find?_isSome.mpr ⟨m, hm, by simp⟩)
  have hfun' : m'.function = m.function := by simpa using find?_some hfind
  -- the machine that is found is that of the function
  obtain ⟨f, hf, hmach⟩ := hown m' (mem_of_find?_eq_some hfind)
  obtain rfl : f = g := declared?_inj hnd hf hg hmach.function (by rw [← hfun, hfun'])
  have hext : ms.extended (declared? f) = !m'.main := by
    rw [← hfun]
    simp [Machines.extended, hfind]
  rw [hext, Bool.not_eq_true', ← Bool.not_eq_true, hmach.main]

end Cutting

namespace Compilation

open Cutting

/-- A call in the source passes a machine if and only if it stands in the body of a function that is
visited, and refers to a function before that one which is declared with its machine as first
parameters, or is the handler and has a machine. -/
theorem calls_pass_machines (rq : Request) (c c' : Compilation) (s' k : Tree) (h : c.Sound)
    (hok : c.log.failed = false) (hrun : cut rq c = .ok () c') (hs' : c'.source = some s')
    (hk : k ∈ s'.subtrees) (hcall : k.kind = .call) :
    k.takesMachine = true ↔
      ∃ before f behind, definitions s' = before ++ f :: behind ∧
        visits (.ofPrefix rq.pluginPrefix) (nameOf f) = true ∧
        (∃ body, f.child? .body = some body ∧ k ∈ body.subtrees) ∧
        ∃ g ∈ before, declared? g = k.callee? ∧ (c'.machines.extended k.callee? = true ∨
          (nameOf g = some (PluginNames.ofPrefix rq.pluginPrefix).handler ∧
            c'.machines.hasStates k.callee? = true)) := by
  obtain ⟨s, l, hs, hu, hcuts, -, hms, hnd⟩ := cut_source h hok hrun hs'
  have hall := hcuts.defines
  have hids : ((definitions s').flatMap ids).Nodup := (sublist_definitions s').nodup hnd
  have hnames : (cutter rq c).machines.names = some (.ofPrefix rq.pluginPrefix) := rfl
  have hnone : (cutter rq c).machines.list = [] := by
    show c.machines.list = []
    rw [h.machines]
  have hown : ∀ m ∈ l.machines.list, ∃ f ∈ definitions s',
      MachineOf (some (.ofPrefix rq.pluginPrefix)) f m := by
    obtain ⟨ms, heq, hown⟩ := hall.machines
    rw [heq, hnone, List.nil_append]
    exact hown
  -- what is known of one of the functions
  have hone : ∀ before f behind, definitions s' = before ++ f :: behind → k ∈ f.subtrees →
      (k.takesMachine = true ↔ visits (.ofPrefix rq.pluginPrefix) (nameOf f) = true ∧
        (∃ body, f.child? .body = some body ∧ k ∈ body.subtrees) ∧
          ∃ g ∈ before, declared? g = k.callee? ∧ l.machines.hasStates k.callee? = true) := by
    intro before' f' behind' hsplit hkf
    rw [hsplit] at hall hids
    obtain ⟨before, f, behind, c₁, c₂, hdefs, hbefore, hf, hbehind⟩ := hall.split
    have hmem : f ∈ definitions s := by
      rw [hdefs]
      simp
    obtain ⟨hsub, hkind⟩ := mem_definitions s f hmem
    have hn₁ : c₁.machines.names = some (.ofPrefix rq.pluginPrefix) := by
      obtain ⟨ms, heq, -⟩ := hbefore.machines
      rw [heq, hnames]
    rw [hf.takesMachine_iff (uncut_subtree hu hsub) hkind hn₁ hkf hcall,
      hbefore.hasStates_iff hnone (.cons hf hbehind) hids]
  have hsign : ∀ before f behind, definitions s' = before ++ f :: behind → ∀ g ∈ before,
      declared? g = k.callee? → (l.machines.hasStates k.callee? = true ↔
        l.machines.extended k.callee? = true ∨
          (nameOf g = some (PluginNames.ofPrefix rq.pluginPrefix).handler ∧
            l.machines.hasStates k.callee? = true)) := by
    intro before f behind hsplit g hg hcallee
    have hmem : g ∈ definitions s' := by
      rw [hsplit]
      exact List.mem_append_left _ hg
    rw [← hcallee]
    constructor
    · intro hstates
      by_cases hname : nameOf g = some (PluginNames.ofPrefix rq.pluginPrefix).handler
      · exact .inr ⟨hname, hstates⟩
      · exact .inl ((extended_iff hown hids hmem hstates).mpr hname)
    · rintro (hext | ⟨-, hstates⟩)
      · exact hasStates_of_extended hext
      · exact hstates
  rw [← hms]
  constructor
  · intro hmach
    obtain ⟨f, hf, hkf⟩ := hcuts.exists_function hu hk hmach
    obtain ⟨before, behind, hsplit⟩ := List.append_of_mem hf
    obtain ⟨hv, hbody, g, hg, hcallee, hstates⟩ := (hone before f behind hsplit hkf).mp hmach
    exact ⟨before, f, behind, hsplit, hv, hbody, g, hg, hcallee,
      (hsign before f behind hsplit g hg hcallee).mp hstates⟩
  · rintro ⟨before, f, behind, hsplit, hv, ⟨body, hbody, hkb⟩, g, hg, hcallee, hext⟩
    have hkf : k ∈ f.subtrees :=
      mem_subtrees_trans hkb (mem_subtrees_child (Resolve.mem_of_lookup hbody))
    exact (hone before f behind hsplit hkf).mpr ⟨hv, ⟨body, hbody, hkb⟩, g, hg, hcallee,
      (hsign before f behind hsplit g hg hcallee).mpr hext⟩

end Compilation

namespace Sample

/-- A function that calls itself and sleeps. -/
def recursive : Tree :=
  .mk (node 3 .functionDefinition) [
    (.declaration, declared 4 .functionDecl "sub" 5 6 [parameter 7 8 "x"]),
    (.body, .mk (node 9 .statementList) [
      (.statements, .mk (node 10 .callStatement) [
        (.expression, call 11 50 12 "papi_sleep" true [zero 13])]),
      (.statements, .mk (node 14 .callStatement) [
        (.expression, call 15 4 16 "sub" false [used 17 7 "x"])]),
      (.statements, .mk (node 18 .returnStatement) [(.expression, zero 19)])])]

/-- A handler that calls it. -/
def caller : Tree :=
  .mk (node 20 .functionDefinition) [
    (.declaration, declared 21 .functionDecl "p_plugin_handler" 22 23 [
      parameter 24 25 "c", parameter 26 27 "ps", parameter 28 29 "st", parameter 30 31 "cmd",
      parameter 32 33 "r", parameter 34 35 "wf", parameter 36 37 "fb"]),
    (.body, .mk (node 38 .statementList) [
      (.statements, .mk (node 39 .callStatement) [
        (.expression, call 40 4 41 "sub" false [used 42 36 "fb"])]),
      (.statements, .mk (node 43 .returnStatement) [(.expression, zero 44)])])]

/-- A compilation with both. -/
def compilation : Compilation where
  log := { nextId := 54 }
  root := node 0 .root
  builtins := some (.mk (node 53 .declarationList) [
    (.declarations, .mk ((node 52 .intDecl).named "uint8_t") [])])
  papi := some (.mk (node 45 .pluginSource) [
    (.declarationList, .mk (node 46 .declarationList) [
      (.declarations, declared 50 .papiFunctionDecl "papi_sleep" 47 48 [parameter 49 51 "ms"])])])
  source := some (.mk (node 1 .pluginSource) [
    (.declarationList, .mk (node 2 .declarationList) [
      (.declarations, recursive), (.declarations, caller)])])

theorem compilation_sound : compilation.Sound where
  accounted _ := Multiset.coe_eq_coe.mpr (by decide +kernel)
  root := rfl
  source s hs := by
    obtain rfl := Option.some.inj hs
    decide +kernel
  machines := rfl

end Sample

namespace Compilation

theorem exists_call (rq : Request) (c : Compilation) (p : Machines → Tree → Bool)
    (h : (match cut rq c with
      | .ok _ c' => c'.source.any fun s => s.subtrees.any fun k =>
        k.kind == .call && p c'.machines k
      | .error _ _ => false) = true) :
    ∃ c' s' k, cut rq c = .ok () c' ∧ c'.source = some s' ∧ k ∈ s'.subtrees ∧ k.kind = .call ∧
      p c'.machines k = true := by
  cases hrun : cut rq c with
  | error e c' =>
    rw [hrun] at h
    cases h
  | ok u c' =>
    rw [hrun] at h
    cases hs : c'.source with
    | none =>
      simp only [hs] at h
      cases h
    | some s' =>
      simp only [hs, Option.any_some, any_eq_true, Bool.and_eq_true, beq_iff_eq] at h
      obtain ⟨k, hk, hcall, hp⟩ := h
      exact ⟨c', s', k, rfl, hs, hk, hcall, hp⟩

/-- In the example the handler passes a machine. -/
theorem handler_call_passes :
    ∃ c' s' k, Sample.compilation.Sound ∧ Sample.compilation.log.failed = false ∧
      cut {} Sample.compilation = .ok () c' ∧ c'.source = some s' ∧ k ∈ s'.subtrees ∧
      k.kind = .call ∧ k.takesMachine = true ∧
      ∃ before f behind, Cutting.definitions s' = before ++ f :: behind ∧
        Cutting.visits (.ofPrefix "p") (Cutting.nameOf f) = true ∧
        (∃ body, f.child? .body = some body ∧ k ∈ body.subtrees) ∧
        ∃ g ∈ before, Cutting.declared? g = k.callee? ∧ (c'.machines.extended k.callee? = true ∨
          (Cutting.nameOf g = some (PluginNames.ofPrefix "p").handler ∧
            c'.machines.hasStates k.callee? = true)) := by
  obtain ⟨c', s', k, hrun, hs', hk, hcall, hmach⟩ :=
    exists_call {} Sample.compilation (fun _ k => k.takesMachine) (by decide +kernel)
  exact ⟨c', s', k, Sample.compilation_sound, rfl, hrun, hs', hk, hcall, hmach,
    (calls_pass_machines {} Sample.compilation c' s' k Sample.compilation_sound rfl hrun hs' hk
      hcall).mp hmach⟩

/-- In the example the call in the function itself passes no machine, though the function is
declared with one. -/
theorem recursive_call_passes_none :
    ∃ c' s' k, cut {} Sample.compilation = .ok () c' ∧ c'.source = some s' ∧
      k ∈ s'.subtrees ∧ k.kind = .call ∧ k.takesMachine = false ∧
        c'.machines.extended k.callee? = true := by
  obtain ⟨c', s', k, hrun, hs', hk, hcall, hp⟩ :=
    exists_call {} Sample.compilation (fun ms k => !k.takesMachine && ms.extended k.callee?)
      (by decide +kernel)
  rw [Bool.and_eq_true, Bool.not_eq_true'] at hp
  exact ⟨c', s', k, hrun, hs', hk, hcall, hp.1, hp.2⟩

end Compilation

end Resumable
