import Resumable.Proofs.Accounting

/-!
# The functions of a program

Functions are cut in the order in which they stand in the source, and a function gets its machine
when it has been cut. So the machines that are there when a function is cut are those of the
functions before it.

* `Cutting.DefinesAll.split`: the cutter with which a function was cut had cut the functions before
  it.
* `Cutting.DefinesAll.hasStates_iff`: a function has a machine at that moment if it stands before
  and has one in the end.
* `Compilation.cut_source`: the functions of a compilation are cut so.
-/

namespace Resumable

open List Resumable.Tree

variable {c c' c₁ : Cutter} {f f' t s' g : Tree} {fs gs before' fs' : List Tree} {i : NodeId}

namespace Cutting

/-- The functions of a tree that are cut, in order; of a whole program only the source is cut. -/
def definitions : Tree → List Tree
  | .mk n cs =>
    if n.kind = .functionDefinition then [.mk n cs]
    else if shut n.kind then []
    else go (n.kind = .root) cs
where
  go (sourceOnly : Bool) : Children → List Tree
    | [] => []
    | (r, t) :: rest =>
      (if sourceOnly && r ≠ .source then [] else definitions t) ++ go sourceOnly rest

/-- The number of the declaration of a function. -/
def declared? (f : Tree) : Option NodeId := (f.child? .declaration).map (·.id)

/-- The name of a function. -/
def nameOf (f : Tree) : Option String := (f.child? .declaration).bind (·.node.name?)

/-! ## Where functions stand -/

mutual

/-- The functions of a program are parts of it. -/
theorem mem_definitions : (t : Tree) → ∀ f ∈ definitions t,
    f ∈ t.subtrees ∧ f.kind = .functionDefinition
  | .mk n cs, f, hf => by
    rw [definitions] at hf
    split at hf
    · next hk =>
      obtain rfl := mem_singleton.mp hf
      exact ⟨mem_subtrees_self _, hk⟩
    split at hf
    · cases hf
    · obtain ⟨p, hp, hmem, hk⟩ := mem_definitions_go _ cs f hf
      exact ⟨mem_subtrees_mk.mpr (.inr ⟨p, hp, hmem⟩), hk⟩

theorem mem_definitions_go (b : Bool) : (cs : Children) → ∀ f ∈ definitions.go b cs,
    ∃ p ∈ cs, f ∈ p.2.subtrees ∧ f.kind = .functionDefinition
  | [], f, hf => by cases hf
  | (r, t) :: rest, f, hf => by
    rw [definitions.go] at hf
    rcases mem_append.mp hf with hf | hf
    · split at hf
      · cases hf
      · obtain ⟨hmem, hk⟩ := mem_definitions t f hf
        exact ⟨(r, t), mem_cons_self, hmem, hk⟩
    · obtain ⟨p, hp, hrest⟩ := mem_definitions_go b rest f hf
      exact ⟨p, mem_cons_of_mem _ hp, hrest⟩

end

mutual

theorem sublist_definitions : (t : Tree) → ((definitions t).flatMap ids).Sublist t.ids
  | .mk n cs => by
    rw [definitions]
    split
    · rw [flatMap_singleton]
    split
    · exact nil_sublist _
    · exact (sublist_definitions_go _ cs).trans (sublist_cons_self _ _)

theorem sublist_definitions_go (b : Bool) : (cs : Children) →
    ((definitions.go b cs).flatMap ids).Sublist (ids.go cs)
  | [] => List.Sublist.refl _
  | (r, t) :: rest => by
    rw [definitions.go, flatMap_append, ids.go]
    refine List.Sublist.append ?_ (sublist_definitions_go b rest)
    split
    · exact nil_sublist _
    · exact sublist_definitions t

end

theorem id_mem_of_declared? (h : declared? f = some i) : i ∈ f.ids := by
  obtain ⟨d, hd, rfl⟩ := Option.map_eq_some_iff.mp h
  exact id_mem_ids (mem_subtrees_child (Resolve.mem_of_lookup hd))

theorem declared?_ne (hnd : ((fs ++ gs).flatMap ids).Nodup) (hf : f ∈ fs) (hg : g ∈ gs)
    (hi : declared? f = some i) : declared? g ≠ some i := by
  intro hi'
  rw [flatMap_append] at hnd
  exact (disjoint_of_nodup_append hnd) (mem_flatMap.mpr ⟨f, hf, id_mem_of_declared? hi⟩)
    (mem_flatMap.mpr ⟨g, hg, id_mem_of_declared? hi'⟩)

/-- A function is known by its declaration. -/
theorem declared?_inj (hnd : (fs.flatMap ids).Nodup) (hf : f ∈ fs) (hg : g ∈ fs)
    (hi : declared? f = some i) (hi' : declared? g = some i) : f = g := by
  obtain ⟨before, behind, rfl⟩ := append_of_mem hf
  rcases mem_append.mp hg with hg | hg
  · exact absurd hi (declared?_ne hnd hg mem_cons_self hi')
  · rcases mem_cons.mp hg with rfl | hg
    · rfl
    · rw [append_cons] at hnd
      exact absurd hi' (declared?_ne hnd (by simp) hg hi)

/-! ## Functions one behind the other -/

/-- Functions are cut one behind the other. -/
inductive DefinesAll : Cutter → List Tree → List Tree → Cutter → Prop
  | nil {c : Cutter} : DefinesAll c [] [] c
  | cons {c c₁ c₂ : Cutter} {f f' : Tree} {fs fs' : List Tree} (h : DefinesCleanly c f f' c₁)
      (hs : DefinesAll c₁ fs fs' c₂) : DefinesAll c (f :: fs) (f' :: fs') c₂

theorem DefinesAll.append {c₂ : Cutter} {gs' : List Tree} (h : DefinesAll c fs fs' c₁)
    (h' : DefinesAll c₁ gs gs' c₂) : DefinesAll c (fs ++ gs) (fs' ++ gs') c₂ := by
  induction h with
  | nil => exact h'
  | cons h hs ih => exact .cons h (ih h')

theorem DefinesAll.split {all behind' : List Tree}
    (h : DefinesAll c all (before' ++ f' :: behind') c') :
    ∃ before f behind c₁ c₂, all = before ++ f :: behind ∧ DefinesAll c before before' c₁ ∧
      DefinesCleanly c₁ f f' c₂ ∧ DefinesAll c₂ behind behind' c' := by
  induction before' generalizing c all with
  | nil =>
    cases h with
    | cons h hs => exact ⟨[], _, _, _, _, rfl, .nil, h, hs⟩
  | cons g' before' ih =>
    cases h with
    | cons h hs =>
      obtain ⟨before, f, behind, c₁, c₂, rfl, hbefore, hf, hbehind⟩ := ih hs
      exact ⟨_ :: before, f, behind, c₁, c₂, rfl, .cons h hbefore, hf, hbehind⟩

theorem CutsFunction.node {main : Bool} (h : CutsFunction main c f f' c') :
    f'.node = f.node ∧ f'.child? .declaration = f.child? .declaration := by
  cases h <;> exact ⟨rfl, rfl⟩

/-- Cutting leaves the declaration alone. -/
theorem DefinesCleanly.node (h : DefinesCleanly c f f' c') :
    f'.node = f.node ∧ f'.child? .declaration = f.child? .declaration := by
  cases h with
  | unnamed hn | setUp hn hd hv => exact ⟨rfl, rfl⟩
  | starter hn hv hb hfirst hfailed hgrows => exact ⟨rfl, rfl⟩
  | function hn hd hv h => exact h.cuts.node

theorem CutsTree.kind {t' : Tree} (h : CutsTree c t t' c') : t'.kind = t.kind := by
  cases h with
  | definition hk h => rw [Tree.kind, h.node.1]; rfl
  | shut hk => rfl
  | inner hk hs h => rfl

theorem definitions_function (hk : f.kind = .functionDefinition) : definitions f = [f] := by
  obtain ⟨n, cs⟩ := f
  rw [definitions]
  exact if_pos hk

theorem definitions_inner {n : Node} {cs : Children}
    (hk : n.kind ≠ .functionDefinition) (hs : shut n.kind = false) :
    definitions (.mk n cs) = definitions.go (n.kind = .root) cs := by
  rw [definitions, if_neg hk, if_neg (by simp [hs])]

theorem definitions_shut (hs : shut t.kind = true) : definitions t = [] := by
  obtain ⟨n, cs⟩ := t
  have hk : n.kind ≠ .functionDefinition := by
    intro hk
    rw [Tree.kind, Tree.node, hk] at hs
    cases hs
  rw [definitions, if_neg hk]
  exact if_pos hs

mutual

/-- The functions of a tree are cut one after the other. -/
theorem CutsTree.defines : ∀ {c c' : Cutter} {t t' : Tree}, CutsTree c t t' c' →
    DefinesAll c (definitions t) (definitions t') c'
  | _, _, f, f', .definition hk h => by
    have hk' : f'.kind = .functionDefinition := by rw [Tree.kind, h.node.1]; exact hk
    rw [definitions_function hk, definitions_function hk']
    exact .cons h .nil
  | _, _, _, _, .shut hk => by
    rw [definitions_shut hk]
    exact .nil
  | _, _, _, _, .inner hk hs h => by
    rw [definitions_inner hk hs, definitions_inner hk hs]
    exact h.defines

theorem CutsTrees.defines {b : Bool} {c c' : Cutter} {cs cs' : Children}
    (h : CutsTrees b c cs cs' c') : DefinesAll c (definitions.go b cs) (definitions.go b cs') c' :=
  match h with
  | .nil => .nil
  | .skip hr h => by
    rw [definitions.go, definitions.go, if_pos (by simpa using hr)]
    exact h.defines
  | .cons (b := b) (r := r) hr h hcs => by
    have hvisit : ¬ ((b && decide (r ≠ .source)) = true) := by simpa using hr
    rw [definitions.go, definitions.go, if_neg hvisit, if_neg hvisit]
    exact h.defines.append hcs.defines

end

/-! ## The machines of functions -/

/-- A machine is that of a function; the main machine is that of the handler. -/
structure MachineOf (names : Option PluginNames) (f : Tree) (m : Machine) : Prop where
  function : declared? f = some m.function
  main : m.main = true ↔ nameOf f = names.map (·.handler)

/-- A function that is cut adds at most its own machine. -/
theorem DefinesCleanly.machines (h : DefinesCleanly c f f' c') :
    ∃ ms, c'.machines = ⟨c.machines.names, c.machines.list ++ ms⟩ ∧
      ∀ m ∈ ms, MachineOf c.machines.names f' m := by
  have hsame : ∃ ms, c.machines = ⟨c.machines.names, c.machines.list ++ ms⟩ ∧
      ∀ m ∈ ms, MachineOf c.machines.names f' m := ⟨[], by simp, by simp⟩
  cases h with
  | unnamed hn | setUp hn hd hv => exact hsame
  | starter hn hv hb hfirst hfailed hgrows => exact hsame
  | @function _ _ _ d names hn hd hv h =>
    cases h.cuts with
    | rejected hmain hb ho =>
      -- A handler that is rejected does not end cleanly.
      rw [h.ends hmain _ hb] at ho
      cases ho
    | stateless hb hskip hwalk hs =>
      have hm := hwalk.later.machines
      rw [hm]
      exact hsame
    | @machine c₁ _ n b first d' cs rest last skip o names' hb hskip hwalk hs hfirst hnames hm
        hlast =>
      obtain rfl : d' = d := Option.some.inj hd
      obtain ⟨struct, -, hadd⟩ := add_inv hm
      have hlater : c₁.machines = c.machines := hwalk.later.machines
      rw [hlater] at hadd
      refine ⟨_, hadd, fun m hmem => ?_⟩
      obtain rfl := mem_singleton.mp hmem
      exact ⟨rfl, by simp [nameOf, Tree.child?, Tree.children, hn]⟩

/-- All machines that are added belong to the functions. -/
theorem DefinesAll.machines (h : DefinesAll c fs fs' c') :
    ∃ ms, c'.machines = ⟨c.machines.names, c.machines.list ++ ms⟩ ∧
      ∀ m ∈ ms, ∃ f' ∈ fs', MachineOf c.machines.names f' m := by
  induction h with
  | nil => exact ⟨[], by simp, by simp⟩
  | @cons c c₁ c₂ f f' fs fs' h hs ih =>
    obtain ⟨ms, hms, hown⟩ := h.machines
    obtain ⟨ms', hms', hown'⟩ := ih
    rw [hms] at hms' hown'
    refine ⟨ms ++ ms', by rw [hms', append_assoc], fun m hm => ?_⟩
    rcases mem_append.mp hm with hm | hm
    · exact ⟨f', mem_cons_self, hown m hm⟩
    · obtain ⟨g, hg, hmach⟩ := hown' m hm
      exact ⟨g, mem_cons_of_mem _ hg, hmach⟩

theorem hasStates_iff {ms : Machines} {x : Option NodeId} :
    ms.hasStates x = true ↔ ∃ m ∈ ms.list, some m.function = x := by
  simp [Machines.hasStates]

theorem DefinesAll.hasStates_iff {before rest rest' : List Tree} (hc : c.machines.list = [])
    (h : DefinesAll c before before' c₁) (h' : DefinesAll c₁ rest rest' c')
    (hnd : ((before' ++ rest').flatMap ids).Nodup) (x : Option NodeId) :
    c₁.machines.hasStates x = true ↔
      ∃ g ∈ before', declared? g = x ∧ c'.machines.hasStates x = true := by
  obtain ⟨ms, hms, hown⟩ := h.machines
  obtain ⟨ms', hms', hown'⟩ := h'.machines
  rw [hc, nil_append] at hms
  have hlist : c₁.machines.list = ms := by rw [hms]
  have hlist' : c'.machines.list = ms ++ ms' := by rw [hms', hlist]
  rw [Cutting.hasStates_iff, Cutting.hasStates_iff, hlist, hlist']
  constructor
  · rintro ⟨m, hm, hx⟩
    obtain ⟨g, hg, hmach⟩ := hown m hm
    exact ⟨g, hg, hmach.function.trans hx, m, mem_append_left _ hm, hx⟩
  · rintro ⟨g, hg, hx, m, hm, hmx⟩
    rcases mem_append.mp hm with hm | hm
    · exact ⟨m, hm, hmx⟩
    · -- a machine that was added later is that of a later function
      obtain ⟨g', hg', hmach⟩ := hown' m hm
      exact absurd hmach.function (declared?_ne hnd hg hg' (hx.trans hmx.symm))

end Cutting

namespace Compilation

open Cutting

theorem last_part {rs : List Role} (h : (Role.source :: rs).Sublist parts) : rs = [] := by
  have hmem : Role.source ∉ ([.builtins, .manifest, .papi] : List Role) := by decide
  have hsplit : (Role.source :: rs).Sublist ([.builtins, .manifest, .papi] ++ [.source]) := h
  obtain ⟨as, bs, heq, has, hbs⟩ := sublist_append_iff.mp hsplit
  cases as with
  | nil =>
    rw [nil_append] at heq
    rw [← heq] at hbs
    exact eq_nil_of_sublist_nil (cons_sublist_cons.mp hbs)
  | cons a as =>
    obtain ⟨rfl, -⟩ := List.cons.inj heq
    exact absurd (has.mem mem_cons_self) hmem

theorem source_of_cutsTrees {k k' : Cutter} {cs cs' : Children} {b : Bool}
    (h : CutsTrees b k cs cs' k') (hb : b = true) (hsub : (cs.map (·.1)).Sublist parts)
    (hs' : (Role.source, s') ∈ cs') : ∃ s, (Role.source, s) ∈ cs ∧ CutsTree k s s' k' :=
  match h with
  | .nil => by cases hs'
  | .skip hr h => by
    rcases mem_cons.mp hs' with heq | hs'
    · exact absurd (congrArg Prod.fst heq).symm hr
    · obtain ⟨s, hs, hcut⟩ := source_of_cutsTrees h hb (sublist_of_cons_sublist hsub) hs'
      exact ⟨s, mem_cons_of_mem _ hs, hcut⟩
  | .cons (t := t) hr h hcs => by
    cases hr hb
    obtain rfl := map_eq_nil_iff.mp (last_part hsub)
    cases hcs
    obtain rfl : s' = _ := congrArg Prod.snd (mem_singleton.mp hs')
    exact ⟨t, mem_cons_self, h⟩

/-- The source of a compilation is cut with the cutter that the request asks for. -/
theorem cut_source {rq : Request} {c c' : Compilation} {u : Unit} (h : c.Sound)
    (hok : c.log.failed = false) (hrun : cut rq c = .ok u c') (hs' : c'.source = some s') :
    ∃ s k, c.source = some s ∧ s.uncut = true ∧ CutsTree (cutter rq c) s s' k ∧
      k.log = c'.log ∧ k.machines = c'.machines ∧ s'.ids.Nodup := by
  obtain ⟨hacc, -, -, k, hcuts, hlog, hms⟩ := cut_inv h hok hrun
  have hmem : (Role.source, s') ∈ c'.tree.children := by simp [tree, Tree.children, hs']
  have hsource : ∃ s, (Role.source, s) ∈ c.tree.children ∧ CutsTree (cutter rq c) s s' k := by
    have hroot : c.tree.kind = .root := h.root
    have hroles := roles_tree c
    -- The tree is that of a program, whose source is one of its parts.
    generalize c.tree = t at hcuts hroot hroles ⊢
    generalize c'.tree = t' at hcuts hmem
    cases hcuts with
    | definition hk | shut hk =>
      rw [hroot] at hk
      cases hk
    | inner hk hs hrow => exact source_of_cutsTrees hrow (decide_eq_true hroot) hroles hmem
  obtain ⟨s, hs, hcut⟩ := hsource
  have hsome := source_of_mem hs rfl
  exact ⟨s, k, hsome, h.source s hsome, hcut, hlog, hms,
    nodup_subtree hacc.nodup.1 (mem_subtrees_child hmem)⟩

end Compilation

end Resumable
