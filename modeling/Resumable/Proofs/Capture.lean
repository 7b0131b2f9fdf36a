import Resumable.Proofs.Fields
import Resumable.Proofs.Restoration
import Resumable.Proofs.Sparse

/-!
# Names of temporaries

The result of a call that is taken out of an expression is kept in a variable that has its name from
the number of the state. The names of one function differ, but they are not reserved: a variable of
the source can have such a name, if it is written down.

* `Cutting.CutsFunction.comes`: where the nodes of a function that was cut come from.
* `Cutting.temporary_inj`: the temporaries of a function have different names.
* `Compilation.temporaries_apart`: a variable with the name of a temporary is kept, or has it in the
  source.
* `Cutting.parameter_captured`: a parameter with such a name is captured.
-/

namespace Resumable

open List Resumable.Tree

variable {n b : Node} {cs cs' rest : Children} {c c' : Cutter} {f f' t d w : Tree} {ms : Machines}
  {skip : Nat} {N : Node → Prop}

namespace Cutting

/-- A call that was taken out has its name from its state. -/
def Temporary (n : Node) : Prop :=
  n.kind = .callSub → ∃ k : Nat, n.number? .nextState = some (k : Int) ∧
    n.name? = some s!"zc_tmp{k}"

theorem temporary_fresh (h : FreshNode n) : Temporary n := by
  intro hn
  cases h with
  | @blank id k o hk | @cut k id o state hk =>
    obtain rfl : k = .callSub := hn
    cases hk
  | takenOut id o state => exact ⟨state, rfl, Node.name?_named _ _⟩
  | result id o x => cases hn
  | wait h => cases h <;> cases hn

/-! ## What is renamed and what is put in -/

/-- Only variables get other names. -/
def RenamesVariables (g : Node → Node) (t : Tree) : Prop :=
  ∀ s ∈ t.subtrees, s.kind ≠ .variableDeclaration → g s.node = s.node

/-- The names that are given go to variables only. -/
theorem renamesVariables_names {first d : Node}
    {names : List (NodeId × Option String)}
    (h : CutsStatements { c with states := 0, persistence := {} } cs' rest c')
    (hnames : keptNames c' (.mk b (withDispatch first d skip cs rest)) = (names, none))
    (hnd : (Tree.mk b (withDispatch first d skip cs rest)).ids.Nodup) :
    RenamesVariables (fun n => match names.lookup n.id with
      | some name => n.setText .name name
      | none => n) (.mk b (withDispatch first d skip cs rest)) := by
  intro s hs hk
  dsimp only
  cases hlook : names.lookup s.node.id with
  | none => rfl
  | some name =>
    -- A number with a name is that of a variable that was declared on the walk.
    have hdeclares := h.declares Persistence.tidy_empty
    have hv := mem_kept_of_keptNames hnames _ (Resolve.mem_of_lookup hlook)
    rcases hdeclares.declared _ (hdeclares.tidy.kept _ hv) with
      hv | ⟨n, hid, hkind, -, p, hp, u, hu, rfl⟩
    · cases hv
    · have hmem := mem_subtrees_trans hu (mem_subtrees_child (t := .mk b _)
        (show p ∈ withDispatch first d skip cs rest by simp [withDispatch, hp]))
      rw [← eq_of_id_eq hnd hmem hs hid] at hk
      exact absurd hkind hk

theorem stands_walk (hN : ∀ n, FreshNode n → N n) (hu : w.uncut = true)
    (hw : .mk n [(.declaration, d), (.body, .mk b cs)] ∈ w.subtrees) (hb : b.kind = .statementList)
    (h : CutsStatements { c with states := 0, persistence := {} } (cs.drop skip) rest c') :
    ∀ p ∈ cs.take skip ++ rest, p.1 = .statements ∧ Stands w (fun _ _ => True) N p.2 := by
  have hbody := child_mem hw (mem_cons_of_mem _ mem_cons_self)
  refine forall_mem_append.mpr ⟨fun p hp => ?_, ?_⟩
  · have hmem := mem_of_mem_take hp
    obtain ⟨hr, hk⟩ := uncut_block (uncut_subtree hu hbody) hb p hmem
    exact ⟨hr, allLeft_same (child_mem hbody hmem) fun _ _ _ => trivial, hk⟩
  · exact ((h.within [] []).left (fun p hp => child_mem hbody (mem_of_mem_drop hp))
      ⟨hu, hN, fun _ => trivial, forall_mem_nil _⟩).1

/-- Where a node of a function that was cut comes from: it stood in the function under its name, it
is a variable that a machine keeps, or it was put in. -/
inductive Comes (f : Tree) (ms : Machines) (n : Node) : Prop
  | same {u : Tree} (hu : u ∈ f.subtrees) (hk : n.kind = u.kind) (h : n.name? = u.node.name?)
  | kept {m : Machine} (hk : n.kind = .variableDeclaration) (hm : m ∈ ms.list) (h : n.id ∈ m.kept)
  | put (hi : n.kind.inserted = true) (h : Temporary n)

theorem comes_of_stands {s : Tree} (h : Stands f (fun _ _ => True) Temporary t)
    (hs : s ∈ t.subtrees) : Comes f ms s.node := by
  rcases (h.1 s hs).stems with ⟨hi, hN⟩ | ⟨u, hmem, hn⟩
  · exact .put hi hN
  · exact .same hmem (by rw [hn]; rfl) (by rw [hn])

/-- The nodes of a function, from those of its body. -/
theorem comes_function {b : Node} {d : Tree} {cs' : Children} (h : ∀ p ∈ cs', ∀ s ∈ p.2.subtrees,
      Comes (.mk n [(.declaration, d), (.body, .mk b cs)]) ms s.node) :
    ∀ s ∈ (Tree.mk n [(.declaration, d), (.body, .mk b cs')]).subtrees,
      Comes (.mk n [(.declaration, d), (.body, .mk b cs)]) ms s.node := by
  intro s hs
  have hself := mem_subtrees_self (.mk n [(.declaration, d), (.body, .mk b cs)])
  rcases mem_subtrees_mk.mp hs with rfl | ⟨p, hp, hs⟩
  · exact .same hself rfl rfl
  simp only [mem_cons, not_mem_nil, or_false] at hp
  rcases hp with rfl | rfl
  · exact .same (mem_subtrees_trans hs (child_mem hself mem_cons_self)) rfl rfl
  rcases mem_subtrees_mk.mp hs with rfl | ⟨p, hp, hs⟩
  · exact .same (child_mem hself (mem_cons_of_mem _ mem_cons_self)) rfl rfl
  · exact h p hp s hs

/-- A node of a function that was cut comes from the source or was put in. -/
theorem CutsFunction.comes {main : Bool} (h : CutsFunction main c f f' c') (hu : f.uncut = true)
    (hnd : f'.ids.Nodup) : ∀ s ∈ f'.subtrees, Comes f c'.machines s.node := by
  cases h with
  | rejected hmain hb ho => exact fun s hs => .same hs rfl rfl
  | stateless hb hskip h hs =>
    exact comes_function fun p hp s hs => comes_of_stands
      (stands_walk (fun _ => temporary_fresh) hu (mem_subtrees_self _) hb h p hp).2 hs
  | @machine c₁ _ n b first d cs rest last skip o names hb hskip h hs hfirst hnames hm hlast =>
    have hvars := renamesVariables_names h hnames (nodup_body (renames_names names) hnd)
    have hbody : (rename names (.mk b [])).node = b :=
      hvars _ (mem_subtrees_self _) (by rw [Tree.kind, Tree.node, hb]; decide)
    rw [hbody]
    have hput : ∀ {m : Node} {k : Kind}, m.kind = k → (k.inserted && k != .callSub) = true →
        ∀ s ∈ (Tree.mk m []).subtrees, Comes (.mk n [(.declaration, d), (.body, .mk b cs)])
          c'.machines s.node := by
      rintro m k rfl hk s hs
      obtain ⟨hi, hm⟩ := Bool.and_eq_true_iff.mp hk
      rcases mem_subtrees_mk.mp hs with rfl | ⟨p, hp, -⟩
      · exact .put hi fun h => absurd h (bne_iff_ne.mp hm)
      · cases hp
    -- the first statement, the prologue, the dispatch and the statements that were cut
    have hrow : ∀ p ∈ withDispatch first (dispatchNode c₁.log.nextId o c₁.states main) skip cs rest,
        ∀ s ∈ p.2.subtrees, Comes (.mk n [(.declaration, d), (.body, .mk b cs)])
          c'.machines s.node := by
      have hwalk := stands_walk (fun _ => temporary_fresh) hu (mem_subtrees_self _) hb h
      simp only [withDispatch, mem_cons, mem_append] at hwalk ⊢
      rintro p (rfl | hp | rfl | hp)
      · cases hfirst with
        | handler | few | sub => exact hput rfl rfl
      · exact fun s hs => comes_of_stands (hwalk p (.inl hp)).2 hs
      · exact hput rfl rfl
      · exact fun s hs => comes_of_stands (hwalk p (.inr hp)).2 hs
    refine comes_function (forall_mem_append.mpr ⟨fun q hq s hs => ?_, ?_⟩)
    · simp only [rename, Tree.mapNodes, mapNodes_go_eq_map] at hq
      obtain ⟨p, hp, rfl⟩ := mem_map.mp hq
      obtain ⟨u, hu', rfl⟩ := mem_subtrees_mapNodes hs
      have hmem := mem_subtrees_trans hu' (mem_subtrees_child (t := .mk b _) hp)
      have hcomes := hrow p hp u hu'
      rw [node_mapNodes]
      by_cases hv : u.kind = .variableDeclaration
      · cases hlook : names.lookup u.node.id with
        | none => exact hcomes
        | some name =>
          obtain ⟨m, hmem, -, hkept⟩ := mem_of_add hm
          have hid := mem_kept_of_keptNames hnames _ (Resolve.mem_of_lookup hlook)
          exact .kept hv hmem (hkept ▸ hid)
      · exact (congrArg (Comes _ c'.machines) (hvars u hmem hv)).mpr hcomes
    · cases hlast with
      | none => exact forall_mem_nil _
      | reset =>
        exact forall_mem_singleton.mpr (hput rfl rfl)

theorem DefinesCleanly.comes (h : DefinesCleanly c f f' c') (hu : f.uncut = true)
    (hnd : f'.ids.Nodup) : ∀ s ∈ f'.subtrees, Comes f c'.machines s.node := by
  cases h with
  | unnamed | setUp => exact fun s hs => .same hs rfl rfl
  | @starter l n b first d cs names hn hv hb hfirst =>
    refine comes_function (forall_mem_cons.mpr ⟨fun s hs => ?_, fun p hp s hs => ?_⟩)
    · rcases mem_subtrees_mk.mp hs with rfl | ⟨p, hp, -⟩
      · cases hfirst with
        | state | few => exact .put rfl (by rintro ⟨⟩)
      · cases hp
    · have hbody := child_mem (mem_subtrees_self (.mk n [(.declaration, d), (.body, .mk b cs)]))
        (mem_cons_of_mem _ mem_cons_self)
      exact .same (mem_subtrees_trans hs (child_mem hbody hp)) rfl rfl
  | function hn hd hv h => exact h.cuts.comes hu hnd

/-! ## Temporaries of one function -/

/-- The labels of a tree are those of its nodes. -/
theorem marks_eq_filterMap (t : Tree) : t.marks = t.subtrees.filterMap (·.node.mark?) := by
  induction t using ofChildren with
  | step n cs ih =>
    have hgo : marks.go cs = (subtrees.go cs).filterMap (·.node.mark?) := by
      induction cs with
      | nil => rfl
      | cons p cs ih' =>
        obtain ⟨r, t⟩ := p
        obtain ⟨ht, hcs⟩ := forall_mem_cons.mp ih
        rw [marks.go, subtrees.go, filterMap_append, ht, ih' hcs]
    rw [marks, subtrees, hgo]
    cases hm : n.mark? <;> simp [node, hm]

/-- The labels of a function differ. -/
theorem DefinesCleanly.nodup_marks (h : DefinesCleanly c f f' c') (hu : f.uncut = true) :
    f'.marks.Nodup := by
  have hf := marks_of_uncut hu
  cases h with
  | unnamed | setUp => rw [hf]; exact nodup_nil
  | starter hn hv hb hfirst =>
    obtain ⟨hn, hd, hb', hcs⟩ := marks_function_eq_nil_iff.mp hf
    rw [marks_function hn hd hb', marks.go, hcs]
    cases hfirst <;> exact nodup_nil
  | function hn hd hv h =>
    obtain ⟨k, hk⟩ := h.cuts.marks hf
    rw [hk]
    split
    · exact nodup_nil
    · refine nodup_cons.mpr ⟨by simp [numbered], ?_⟩
      exact List.Nodup.map (fun j k hjk => by simpa using hjk) nodup_range'

/-- Temporaries of one function with the same name are the same. -/
theorem temporary_inj {u : Tree} (hnd : f.marks.Nodup) (ht : t ∈ f.subtrees) (hu : u ∈ f.subtrees)
    (hkt : t.kind = .callSub) (hku : u.kind = .callSub) (htemp : Temporary t.node)
    (hutemp : Temporary u.node) (h : u.node.name? = t.node.name?) : u = t := by
  obtain ⟨j, hj, hjname⟩ := htemp hkt
  obtain ⟨k, hk, hkname⟩ := hutemp hku
  obtain rfl : k = j := by
    rw [hjname, hkname] at h
    exact Persistence.numbered_injective (Option.some.inj h)
  have hmark : ∀ {s : Tree}, s.kind = .callSub → s.node.number? .nextState = some (k : Int) →
      s.node.mark? = some (.cut (some k)) := by
    intro s hs hnumber
    rw [Node.mark?, show s.node.kind = .callSub from hs, hnumber]
    rfl
  rw [marks_eq_filterMap, List.Nodup, pairwise_filterMap] at hnd
  by_contra hne
  have : Std.Symm fun s s' : Tree => ∀ m, s.node.mark? = some m → ∀ m', s'.node.mark? = some m' →
      m ≠ m' := ⟨fun _ _ h m hm m' hm' => (h m' hm' m hm).symm⟩
  exact hnd.forall hu ht hne _ (hmark hku hk) _ (hmark hkt hj) rfl

end Cutting

/-- The name of a variable stands in the source. -/
theorem Node.Settled.spells {T : TokenKind → String → Prop} {name : String} (h : n.Settled T)
    (hk : n.kind = .variableDeclaration ∨ n.kind = .argumentDecl ∨ n.kind = .variableUse)
    (hname : n.name? = some name) : T .identifier name := by
  rcases h with hcast | hworded
  · rcases hk with hk | hk | hk <;> cases hcast.symm.trans hk
  have hnamed : n.name? = none ∨ n.Named T := by
    unfold Worded at hworded
    rcases hk with hk | hk | hk <;> simp only [hk] at hworded
    · exact .inr hworded
    · exact hworded
    · exact .inr hworded
  rcases hnamed with hnone | ⟨s, htext, hT, -⟩
  · cases hnone.symm.trans hname
  · obtain rfl : s = name := Option.some.inj ((name?_of_text htext).symm.trans hname)
    exact hT

namespace Compilation

open Cutting

/-- Every temporary of an accepted program has a name of its own in its function. A variable, a
parameter or a use of one that has this name as well is kept in the machine, so that it is a field
in the code, or it has the name in the source. -/
theorem temporaries_apart {rq : Request} {c : Compilation} {out : Output} (h : Accepted rq out c) :
    ∃ after, c.source = some after ∧ ∀ f ∈ definitions after,
      (∀ t ∈ f.subtrees, t.kind = .callSub → ∃ k : Nat,
        t.node.number? .nextState = some (k : Int) ∧ t.node.name? = some s!"zc_tmp{k}") ∧
      (∀ t ∈ f.subtrees, ∀ u ∈ f.subtrees, t.kind = .callSub → u.kind = .callSub →
        u.node.name? = t.node.name? → u = t) ∧
      ∀ t ∈ f.subtrees, ∀ u ∈ f.subtrees, t.kind = .callSub →
        u.kind = .variableDeclaration ∨ u.kind = .argumentDecl ∨ u.kind = .variableUse →
        ∀ name, t.node.name? = some name → u.node.name? = some name →
          (u.kind = .variableDeclaration ∧ ∃ m ∈ c.machines.list, u.id ∈ m.kept) ∨
            (Source.ofText rq.source).Spells .identifier name := by
  obtain ⟨src, start, resolved, hc⟩ := h.compiled
  obtain ⟨before, after, k, -, hafter, hsettled, huncut, hcuts, hms, hnd⟩ := hc.source_cut
  refine ⟨after, hafter, fun f' hf' => ?_⟩
  -- the function before it was cut
  obtain ⟨earlier, later, hsplit⟩ := append_of_mem hf'
  obtain ⟨_, f, _, k₁, k₂, hf, -, hclean, hlater⟩ := DefinesAll.split (hsplit ▸ hcuts.defines)
  obtain ⟨hmem, -⟩ := mem_definitions before f (by rw [hf]; simp)
  have hu := uncut_subtree huncut hmem
  have hcomes := hclean.comes hu (nodup_subtree hnd (mem_definitions after f' hf').1)
  have htemp : ∀ t ∈ f'.subtrees, Temporary t.node := fun t ht hk => by
    rcases hcomes t ht with @⟨⟨m, ds⟩, hw, hkind, -⟩ | ⟨hv, -, -⟩ | ⟨-, htemp⟩
    · have hins := uncut_inserted (uncut_subtree hu hw)
      rw [show m.kind = .callSub from hkind.symm.trans hk] at hins
      cases hins
    · cases hk.symm.trans hv
    · exact htemp hk
  refine ⟨htemp, fun t ht u hu' hkt hku hname => ?_,
    fun t ht u hu' hkt hku name htname huname => ?_⟩
  · exact temporary_inj (hclean.nodup_marks hu) ht hu' hkt hku (htemp t ht) (htemp u hu') hname
  · rcases hcomes u hu' with @⟨v, hw, hkind, hsame⟩ | @⟨m, hv, hm, hkept⟩ | ⟨hi, -⟩
    · refine .inr ((hsettled v (mem_subtrees_trans hw hmem)).spells ?_ (hsame.symm.trans huname))
      rwa [show v.node.kind = u.node.kind from hkind.symm]
    · obtain ⟨ms, hlist, -⟩ := hlater.machines
      refine .inl ⟨hv, m, ?_, hkept⟩
      rw [← hms, hlist]
      exact mem_append_left _ hm
    · rcases hku with hku | hku | hku <;> rw [show u.node.kind = _ from hku] at hi <;> cases hi

/-- In the example, the result of a call is an argument of another one. It is the only thing with
its name in the handler, but for variables that are kept and names that are written down. -/
theorem plugin_temporaries_apart : ∃ out c after f t, Accepted Sample.request out c ∧
    c.source = some after ∧ f ∈ definitions after ∧ t ∈ f.subtrees ∧ t.kind = .callSub ∧
    t.node.name? = some "zc_tmp2" ∧
    (∀ u ∈ f.subtrees, u.kind = .callSub → u.node.name? = some "zc_tmp2" → u = t) ∧
    ∀ u ∈ f.subtrees,
      u.kind = .variableDeclaration ∨ u.kind = .argumentDecl ∨ u.kind = .variableUse →
      u.node.name? = some "zc_tmp2" →
        (u.kind = .variableDeclaration ∧ ∃ m ∈ c.machines.list, u.id ∈ m.kept) ∨
          (Source.ofText Sample.request.source).Spells .identifier "zc_tmp2" := by
  obtain ⟨src, resolved, c, out, hc, hseen⟩ := Sample.plugin_compiled
  simp only [Sample.seen, Bool.and_eq_true, any_eq_true, Option.any_eq_true, beq_iff_eq] at hseen
  obtain ⟨⟨-, after, hafter, f, hf, t, ht, hk, hname⟩, -⟩ := hseen
  obtain ⟨after', hafter', hall⟩ := temporaries_apart (.read hc)
  obtain rfl : after' = after := Option.some.inj (hafter'.symm.trans hafter)
  obtain ⟨-, hown, hother⟩ := hall f hf
  exact ⟨out, c, after', f, t, .read hc, hafter, hf, ht, hk, hname,
    fun u hu hku huname => hown t ht u hu hk hku (huname.trans hname.symm),
    fun u hu hku huname => hother t ht u hu hk hku _ hname huname⟩

end Compilation

namespace Cutting

/-- A parameter can have the name of the temporary in which the result of a call is kept. -/
theorem parameter_captured :
    let f := Sample.adding.mapNodes fun n => if n.id = 17 then n.named "zc_tmp1" else n
    let f' := (definition f (callingCutter false)).1
    f.uncut = true ∧ (definition f (callingCutter false)).2.fault = none ∧
      (∃ t ∈ f'.subtrees, t.kind = .argumentDecl ∧ t.node.name? = some "zc_tmp1") ∧
      ∃ t ∈ f'.subtrees, t.kind = .callSub ∧ t.node.name? = some "zc_tmp1" := by
  decide +kernel

end Cutting

end Resumable
