import Resumable.Proofs.Accounting
import Resumable.Proofs.Labels
import Resumable.Proofs.Walk.Places

/-!
# Dispatch and labels agree

A function that was cut is printed with one label for each of its states, and its dispatch with
one jump to each of them. Printing finds the states only if cuts stand in lists of statements and
all names are plain, so both are shown for what cutting leaves.

* `Cutting.Stands.tidy`: what cutting leaves of a statement can be printed statement by statement.
* `Cutting.CutsDefinition.tidy`: so can the body of every function that was cut.
* `Cutting.definition_labels_match_jumps`: the labels and the jumps of a function.
-/

namespace Resumable

open List Text Resumable.Tree

variable {n a b m : Node} {c c' : Cutter} {cs as : Children} {f t body f' d : Tree}
  {stmt o : Origin} {main : Bool} {k : Kind} {names : List (NodeId × Option String)}
  {ms : List Mark}

/-! ## Names -/

theorem Text.signless_append {s t : String} (hs : signless s = true) (ht : signless t = true) :
    signless (s ++ t) = true := by
  unfold signless at *
  rw [String.toList_append, all_append, hs, ht]
  rfl

namespace Node

theorem spelled_blank (id : NodeId) (k : Kind) (o : Origin) : (blank id k o).spelled = true := by
  simp [spelled, blank]

theorem all_assign {κ α : Type} [DecidableEq κ] {q : α → Bool} {k : κ} {a : α}
    {l : List (κ × α)} (hl : l.all (fun p => q p.2) = true) (ha : q a = true) :
    (assign k a l).all (fun p => q p.2) = true := by
  induction l with
  | nil => simp [assign, ha]
  | cons p l ih =>
    obtain ⟨k', a'⟩ := p
    rw [all_cons, Bool.and_eq_true] at hl
    rw [assign]
    split
    · rw [all_cons, ha, hl.2]
      rfl
    · rw [all_cons, hl.1, ih hl.2]
      rfl

/-- A node has no signs in its texts after one of them was replaced by a text without signs. -/
theorem spelled_setText {k : TextKey} {s : Option String} (hn : n.spelled = true)
    (hs : s.all signless = true) : (n.setText k s).spelled = true :=
  all_assign (q := fun s : Option String => s.all signless) hn hs

end Node

/-! ## Tidy trees -/

/-- A statement that can be printed statement by statement. -/
structure Tree.Tidy (t : Tree) : Prop where
  framed : t.framed = true
  spelled : t.spelled = true

theorem tidy_leaf (hk : n.kind.isA .statement = true) (hg : n.kind.generated = false)
    (hn : n.spelled = true) : (mk n []).Tidy :=
  ⟨framed_iff.mpr ⟨⟨hk, hg⟩, by simp⟩, spelled_iff.mpr ⟨hn, by simp⟩⟩

/-- Statements hold statements exactly in those places that allow them. -/
theorem holds_slot (hk : k.isA .statement = true) :
    ∀ s ∈ k.slots, k.holds s.role = s.allowed.isA .statement ∧
      s.allowed ∈ [.statement, .statementList, .expression, .typeRef, .argumentList] := by
  revert hk
  cases k <;> decide

theorem Kind.statement_or_operand :
    ∀ a ∈ [Kind.statement, .statementList, .expression, .typeRef, .argumentList], k.isA a = true →
      if a.isA .statement then k.isA .statement = true else k.operand = true := by
  cases k <;> decide

/-- What stands in an operand is an operand. -/
theorem Kind.operand_slot {k' : Kind} {slot : Slot} (hk : k.operand = true) (hs : slot ∈ k.slots)
    (ha : k'.isA slot.allowed = true) : k'.operand = true := by
  have hsimple := all_eq_true.mp (simple_of_operand hk) slot hs
  simp only [Bool.or_eq_true, beq_iff_eq] at hsimple
  have hkind := statement_or_operand (k := k') slot.allowed
  rcases hsimple with (h | h) | h <;> rw [h] at ha hkind <;> exact hkind (by decide) ha

/-- A tree of operands has no marks. -/
theorem marks_of_kinds (h : ∀ s ∈ t.subtrees, s.kind.operand = true) : t.marks = [] := by
  induction t using ofChildren with
  | step n cs ih =>
    refine marks_eq_nil_iff.mpr ⟨?_, gathers_marks.eq_nil.mpr fun p hp => ih p hp fun s hs =>
      h s (mem_subtrees_trans hs (mem_subtrees_child (t := mk n cs) hp))⟩
    have hk : n.kind ≠ .machine ∧ n.kind.cuts = false := by
      have hk : n.kind.operand = true := h _ (mem_subtrees_self _)
      revert hk
      cases n.kind <;> decide
    simp [Node.mark?, hk]

namespace Cutting

variable {w : Tree} {P : Option NodeId → Bool → Prop}

theorem spelled_cutNode (k : Kind) (id : NodeId) (o : Origin) (state : Nat) :
    (cutNode k id o state).spelled = true :=
  Node.spelled_blank id k o

/-- The nodes that cutting puts in have no signs in their texts. -/
theorem spelled_fresh (h : FreshNode n) : n.spelled = true := by
  cases h with
  | blank id o hk | result id o x => exact Node.spelled_blank id _ o
  | cut => exact spelled_cutNode _ _ _ _
  | takenOut id o state =>
    exact Node.spelled_setText (spelled_cutNode .callSub id o state)
      (signless_append (s := "zc_tmp") rfl (signless_number state))
  | wait h =>
    cases h with
    | sleep d hd hname => exact spelled_cutNode _ _ _ _
    | @transfer d f start event spot hd hname hf hspot =>
      have hplain : signless start = true ∧ signless event = true := by
        unfold transferOf? at hf
        split at hf <;> cases hf <;> decide
      exact Node.spelled_setText (Node.spelled_setText (Node.spelled_blank _ .papiWait _) hplain.1)
        hplain.2

/-- What cutting leaves of a statement can be printed statement by statement. -/
theorem Stands.tidy (hu : w.uncut = true) (hw : w.spelled = true)
    (h : Stands w P (·.spelled = true) t) : t.Tidy := by
  obtain ⟨hleft, hk⟩ := h
  have hslots := fun s hs => (hleft s hs).slots hu
  refine ⟨?_, spelled_iff_subtrees.mpr fun s hs => ?_⟩
  · -- By induction on the statement. Its places decide which of its children are statements.
    induction t using ofChildren with
    | step n cs ih =>
      have hself := mem_subtrees_self (mk n cs)
      refine framed_iff.mpr ⟨⟨hk, ?_⟩, fun p hp => ?_⟩
      · rcases (hleft _ hself).stems with ⟨hi, -⟩ | ⟨⟨m, ds⟩, hm, hn⟩
        · replace hi : n.kind.inserted = true := hi
          revert hi
          cases n.kind <;> decide
        · rw [show n = m from hn]
          exact uncut_generated (uncut_subtree hu hm)
      · have hbelow : ∀ s ∈ p.2.subtrees, s ∈ (mk n cs).subtrees := fun s hs =>
          mem_subtrees_trans hs (mem_subtrees_child (t := mk n cs) hp)
        obtain ⟨slot, hslot, hrole, ha⟩ := hslots _ hself p hp
        obtain ⟨hholds, hallowed⟩ := holds_slot hk slot hslot
        have hkind := Kind.statement_or_operand _ hallowed ha
        rw [hrole, show n.kind.holds slot.role = _ from hholds]
        split
        · next hstmt =>
          exact ih p hp (fun s hs => hleft s (hbelow s hs)) (by simpa [hstmt] using hkind)
            fun s hs => hslots s (hbelow s hs)
        · next hstmt =>
          -- In the other places there are operands only.
          exact marks_of_kinds (kinds_of_slots (P := (·.operand = true))
            (fun _ hk _ hs _ ha => Kind.operand_slot hk hs ha) (fun s hs => hslots s (hbelow s hs))
            (by simpa [hstmt] using hkind))
  · -- A node was put in, or it stood in the function.
    rcases (hleft s hs).stems with ⟨-, hN⟩ | ⟨u, hmem, hn⟩
    · exact hN
    · rw [hn]
      exact spelled_iff_subtrees.mp hw u hmem

theorem tidy_of_uncut (hu : t.uncut = true) (hk : t.kind.isA .statement = true)
    (hs : t.spelled = true) : t.Tidy :=
  Stands.tidy (P := fun _ _ => True) hu hs
    ⟨allLeft_same (mem_subtrees_self t) fun _ _ _ => trivial, hk⟩

theorem tidy_block (hk : n.kind = .statementList) (hn : n.spelled = true)
    (hcs : ∀ p ∈ cs, p.2.Tidy) :
    (mk n cs).Tidy := by
  refine ⟨framed_iff.mpr ⟨by rw [hk]; decide, fun p hp => ?_⟩,
    spelled_iff.mpr ⟨hn, fun p hp => (hcs p hp).spelled⟩⟩
  rw [hk]
  exact (hcs p hp).framed

theorem framed_statements (hk : n.kind = .statementList) (h : (mk n cs).framed = true) :
    ∀ p ∈ cs, p.2.framed = true := by
  intro p hp
  have hp := (framed_iff.mp h).2 p hp
  rw [hk] at hp
  exact hp

/-! ## Names of kept variables -/

theorem freeName_eq (taken : List (Option String)) (base : String) (steps i : Nat) :
    ∃ j : Nat, (Persistence.freeName taken base steps i).1 = base ++ toString j := by
  induction steps generalizing i with
  | zero => exact ⟨i, rfl⟩
  | succ steps ih =>
    rw [Persistence.freeName]
    split
    · exact ih (i + 1)
    · exact ⟨i + 1, rfl⟩

/-- The numbers that make names different add no signs. -/
theorem signless_distinct (h : ∀ p ∈ names, p.2.all signless = true) (taken : List (Option String))
    (i : Nat) : ∀ p ∈ (Persistence.distinct.go taken i names).1, p.2.all signless = true := by
  induction names generalizing taken i with
  | nil => simp [Persistence.distinct.go]
  | cons q names ih =>
    obtain ⟨v, name⟩ := q
    obtain ⟨hname, hrest⟩ := forall_mem_cons.mp h
    unfold Persistence.distinct.go
    split
    · cases name with
      | none => exact h
      | some base =>
        obtain ⟨j, hj⟩ := freeName_eq taken base (taken.length + 1) i
        refine forall_mem_cons.mpr ⟨?_, ih hrest _ _⟩
        rw [hj]
        exact signless_append hname (signless_number j)
    · exact forall_mem_cons.mpr ⟨hname, ih hrest _ _⟩

theorem signless_keptNames (hb : body.spelled = true) :
    ∀ p ∈ (keptNames c body).1, p.2.all signless = true := by
  refine signless_distinct (fun p hp => ?_) _ _
  obtain ⟨v, -, rfl⟩ := mem_map.mp hp
  cases hl : (body.subtrees.map fun t => (t.id, t.node.name?)).lookup v with
  | none => rfl
  | some name =>
    obtain ⟨l₁, l₂, hlist, -⟩ := lookup_eq_some_iff.mp hl
    have hmem : (v, name) ∈ body.subtrees.map fun t => (t.id, t.node.name?) := by
      rw [hlist]
      simp
    obtain ⟨s, hs, hname⟩ := mem_map.mp hmem
    cases hname
    cases hn : s.node.name? with
    | none => rfl
    | some text =>
      exact Node.signless_of_name (spelled_iff_subtrees.mp hb s hs) hn

mutual

theorem framed_mapNodes {g : Node → Node} (hk : ∀ n, (g n).kind = n.kind)
    (hm : ∀ n, (g n).mark? = n.mark?) : (t : Tree) → (t.mapNodes g).framed = t.framed
  | mk n cs => by rw [mapNodes, framed, framed, hk, framed_mapNodes_go hk hm n.kind cs]

theorem framed_mapNodes_go {g : Node → Node} (hk : ∀ n, (g n).kind = n.kind)
    (hm : ∀ n, (g n).mark? = n.mark?) (k : Kind) :
    (cs : Children) → framed.go k (mapNodes.go g cs) = framed.go k cs
  | [] => rfl
  | (r, t) :: rest => by
    rw [mapNodes.go, framed.go, framed.go, framed_mapNodes hk hm t, marks_mapNodes hm t,
      framed_mapNodes_go hk hm k rest]

end

mutual

theorem spelled_mapNodes {g : Node → Node}
    (hg : ∀ n : Node, n.spelled = true → (g n).spelled = true) :
    (t : Tree) → t.spelled = true → (t.mapNodes g).spelled = true
  | mk n cs, h => by
    rw [spelled, Bool.and_eq_true] at h
    rw [mapNodes, spelled, hg n h.1, spelled_mapNodes_go hg cs h.2]
    rfl

theorem spelled_mapNodes_go {g : Node → Node}
    (hg : ∀ n : Node, n.spelled = true → (g n).spelled = true) :
    (cs : Children) → spelled.go cs = true → spelled.go (mapNodes.go g cs) = true
  | [], _ => rfl
  | (_, t) :: rest, h => by
    rw [spelled.go, Bool.and_eq_true] at h
    rw [mapNodes.go, spelled.go, spelled_mapNodes hg t h.1, spelled_mapNodes_go hg rest h.2]
    rfl

end

/-- Other names without signs do no harm. -/
theorem tidy_rename (hnames : ∀ p ∈ names, p.2.all signless = true) (ht : t.Tidy) :
    (rename names t).Tidy := by
  refine ⟨?_, spelled_mapNodes (fun n hn => ?_) t ht.spelled⟩
  · refine (framed_mapNodes (fun n => ?_) (mark?_rename names) t).trans ht.framed
    split <;> rfl
  · split
    · next name hname =>
      obtain ⟨l₁, l₂, hl, -⟩ := lookup_eq_some_iff.mp hname
      refine Node.spelled_setText hn (hnames (n.id, name) ?_)
      rw [hl]
      simp
    · exact hn

/-! ## Functions -/

/-- The first statement of a handler gets names of its parameters. -/
theorem signless_parameterName {params : List Tree} {i : Nat} {name : Option String}
    (hf : f.spelled = true) (hp : parameters f = .ok params)
    (hn : parameterName params i = .ok name) : name.all signless = true := by
  have hchild : ∀ {t c : Tree} {r : Role}, t.spelled = true → t.child r = .ok c →
      c.spelled = true := by
    intro t c r ht hc
    unfold child at hc
    split at hc <;> cases hc
    next h => exact spelled_child ht h
  -- The parameters stand in a list in the declaration of the function.
  unfold parameters at hp
  cases hd : f.child .declaration with
  | error e =>
    rw [hd] at hp
    cases hp
  | ok d =>
    rw [hd] at hp
    cases hl : d.child .parameters with
    | error e =>
      dsimp only [bind, Except.bind] at hp
      rw [hl] at hp
      cases hp
    | ok l =>
      dsimp only [bind, Except.bind] at hp
      rw [hl] at hp
      cases hp
      have hspelled := hchild (hchild hf hd) hl
      unfold parameterName at hn
      split at hn
      · next p hp =>
        have hmem := mem_of_getElem? hp
        cases name with
        | none => rfl
        | some s =>
          exact Node.signless_of_text
            (spelled_node (Scene.spelled_of_mem_inRole hspelled hmem)) hn
      · cases hn

theorem tidy_first (h : FirstNode f main n) (hf : f.spelled = true) : (mk n []).Tidy := by
  cases h with
  | handler hp hs hw =>
    exact tidy_leaf rfl rfl (Node.spelled_setText (Node.spelled_setText (Node.spelled_blank _ _ _)
      (signless_parameterName hf hp hs)) (signless_parameterName hf hp hw))
  | few => exact tidy_leaf rfl rfl (Node.spelled_blank _ _ _)
  | sub => exact tidy_leaf rfl rfl (Node.spelled_blank _ _ _)

/-- A function whose body can be printed statement by statement. -/
inductive TidyFunction : Tree → Prop
  | mk {n : Node} {d body : Tree} (hk : n.kind = .functionDefinition)
      (hd : d.kind.isA .functionDecl = true) (hs : d.spelled = true) (hm : d.marks = [])
      (hb : body.Tidy) : TidyFunction (.mk n [(.declaration, d), (.body, body)])

theorem tidyFunction_of_body (hu : (mk n [(.declaration, d), (.body, mk b cs)]).uncut = true)
    (hk : n.kind = .functionDefinition)
    (hs : (mk n [(.declaration, d), (.body, mk b cs)]).spelled = true) (hb : body.Tidy) :
    TidyFunction (mk n [(.declaration, d), (.body, body)]) :=
  .mk hk (uncut_declared hu hk) ((spelled_iff.mp hs).2 _ mem_cons_self)
    (marks_of_uncut (uncut_child hu mem_cons_self)) hb

theorem tidyFunction_of_uncut (hu : f.uncut = true) (hk : f.kind = .functionDefinition)
    (hs : f.spelled = true) : TidyFunction f := by
  obtain ⟨n, fs⟩ := f
  obtain ⟨d, b, cs, rfl, hb⟩ := uncut_function hu hk
  have hmem : (Role.body, mk b cs) ∈ [(.declaration, d), (.body, mk b cs)] :=
    mem_cons_of_mem _ mem_cons_self
  refine tidyFunction_of_body hu hk hs (tidy_of_uncut (uncut_child hu hmem) ?_
    ((spelled_iff.mp hs).2 _ hmem))
  rw [kind, node, hb]
  decide

theorem tidy_statements (hu : (mk b cs).uncut = true) (hb : b.kind = .statementList)
    (hs : (mk b cs).spelled = true) : ∀ p ∈ cs, p.2.Tidy :=
  fun p hp => tidy_of_uncut (uncut_child hu hp) (uncut_block hu hb p hp).2
    ((spelled_iff.mp hs).2 p hp)

theorem body_of_function (hu : (mk n [(.declaration, d), (.body, mk b cs)]).uncut = true)
    (hs : (mk n [(.declaration, d), (.body, mk b cs)]).spelled = true) :
    (mk b cs).uncut = true ∧ (mk b cs).spelled = true := by
  have hmem : (Role.body, mk b cs) ∈ [(.declaration, d), (.body, mk b cs)] :=
    mem_cons_of_mem _ mem_cons_self
  exact ⟨uncut_child hu hmem, (spelled_iff.mp hs).2 _ hmem⟩

theorem tidy_rest {rest : Children} {skip : Nat}
    (h : CutsStatements c (cs.drop skip) rest c') (hu : (mk b cs).uncut = true)
    (hs : (mk b cs).spelled = true) : ∀ p ∈ rest, p.2.Tidy := by
  obtain ⟨hrest, -⟩ := (h.within [] []).left (w := mk b cs) (P := fun _ _ => True)
    (fun p hp => mem_subtrees_child (mem_of_mem_drop hp))
    ⟨hu, fun _ => spelled_fresh, fun _ => trivial, forall_mem_nil _⟩
  exact fun p hp => (hrest p hp).2.tidy hu hs

theorem tidy_last {source : Tree} {last : Children} (h : LastNodes source body main last)
    : ∀ p ∈ last, p.2.Tidy := by
  cases h with
  | none => simp
  | @reset id o =>
    intro p hp
    rw [mem_singleton] at hp
    rw [hp]
    exact tidy_leaf rfl rfl (Node.spelled_blank id .beforeReturn o)

/-- The body of a function that was cut can be printed statement by statement. -/
theorem CutsFunction.tidy (h : CutsFunction main c f f' c') (hu : f.uncut = true)
    (hk : f.kind = .functionDefinition) (hs : f.spelled = true) : TidyFunction f' := by
  cases h with
  | rejected hmain hb ho => exact tidyFunction_of_uncut hu hk hs
  | @stateless _ n b d cs rest skip hb hskip h hstates =>
    obtain ⟨hub, hsb⟩ := body_of_function hu hs
    refine tidyFunction_of_body hu hk hs (tidy_block hb (spelled_iff.mp hsb).1 fun p hp => ?_)
    rcases mem_append.mp hp with hp | hp
    · exact tidy_statements hub hb hsb p (mem_of_mem_take hp)
    · exact tidy_rest h hub hsb p hp
  | @machine c₁ _ n b first d cs rest last skip o names hb hskip h hstates hfirst hnames hm hlast =>
    obtain ⟨hub, hsb⟩ := body_of_function hu hs
    have hbody : (mk b (withDispatch first (dispatchNode c₁.log.nextId o c₁.states main) skip cs
        rest)).Tidy := by
      refine tidy_block hb (spelled_iff.mp hsb).1 ?_
      refine forall_mem_cons.mpr ⟨tidy_first hfirst hs, fun p hp => ?_⟩
      rcases mem_append.mp hp with hp | hp
      · exact tidy_statements hub hb hsb p (mem_of_mem_take hp)
      · rcases mem_cons.mp hp with rfl | hp
        · exact tidy_leaf rfl rfl (Node.spelled_blank c₁.log.nextId .machine o)
        · exact tidy_rest h hub hsb p hp
    -- The variables that are kept get their names when all statements are there.
    have hnames' := signless_keptNames (c := c₁) hbody.spelled
    rw [hnames] at hnames'
    obtain ⟨hframed, hspelled⟩ := tidy_rename hnames' hbody
    have hlist : (rename names (mk b [])).node.kind = .statementList := by
      rw [← hb]
      simp only [rename, mapNodes, node]
      split <;> rfl
    have hcs := framed_statements hlist hframed
    refine tidyFunction_of_body hu hk hs (tidy_block hlist (spelled_iff.mp hspelled).1 ?_)
    intro p hp
    rcases mem_append.mp hp with hp | hp
    · exact ⟨hcs p hp, (spelled_iff.mp hspelled).2 p hp⟩
    · exact tidy_last hlast p hp

theorem CutsDefinition.tidy (h : CutsDefinition c f f' c') (hu : f.uncut = true)
    (hk : f.kind = .functionDefinition) (hs : f.spelled = true) : TidyFunction f' := by
  cases h with
  | unnamed | setUp => exact tidyFunction_of_uncut hu hk hs
  | starter hb hfirst =>
    obtain ⟨hub, hsb⟩ := body_of_function hu hs
    refine tidyFunction_of_body hu hk hs (tidy_block hb (spelled_iff.mp hsb).1 ?_)
    refine forall_mem_cons.mpr ⟨?_, tidy_statements hub hb hsb⟩
    cases hfirst with
    | state hp hname =>
      exact tidy_leaf rfl rfl (Node.spelled_setText (Node.spelled_blank _ _ _)
        (signless_parameterName hs hp hname))
    | few => exact tidy_leaf rfl rfl (Node.spelled_blank _ _ _)
  | function h => exact h.tidy hu hk hs

/-! ## Labels and jumps -/

theorem emits_tidyFunction (h : TidyFunction f) (hm : ∀ m ∈ f.marks, Print.Known m)
    (parent : Option Kind) : Print.Emits f f.marks (Print.visit parent f) := by
  obtain ⟨hk, hd, hds, hdm, hb⟩ := h
  refine Print.emits_function hk hd hds hdm hb.spelled hb.framed (fun m hmem => hm m ?_) parent
  simp [marks, marks.go, hmem]

theorem known_of_numbered {n : Nat}
    (h : ms = if n = 0 then [] else .dispatch (some (n : Int)) :: numbered 0 n) :
    ∀ m ∈ ms, Print.Known m := by
  intro m hm
  rw [h] at hm
  split at hm
  · simp at hm
  · rcases mem_cons.mp hm with rfl | hm
    · exact ⟨n, .inl rfl⟩
    · obtain ⟨k, -, rfl⟩ := mem_map.mp hm
      exact ⟨k, .inr rfl⟩

/-- In a row of cuts every number up to the last one occurs once. -/
theorem count_numbered (n k : Nat) :
    (numbered 0 n).count (.cut (some (k : Int))) = if 1 ≤ k ∧ k ≤ n then 1 else 0 := by
  have hinj : Function.Injective fun k : Nat => Mark.cut (some (k : Int)) := by
    intro i j h
    exact Int.ofNat.inj (Option.some.inj (Mark.cut.inj h))
  rw [numbered, count_map_of_injective _ _ hinj, List.Nodup.count nodup_range']
  refine if_congr (mem_range'_1.trans ?_) rfl rfl
  omega

theorem countP_numbered (n k : Nat) : (numbered 0 n).countP (·.reaches k) = 0 := by
  rw [countP_eq_zero]
  intro m hm
  obtain ⟨j, -, rfl⟩ := mem_map.mp hm
  simp [Mark.reaches]

/-- So there is one label and one jump for each of them. -/
theorem counted_numbered {n : Nat} {lines : List String}
    (h : ms = if n = 0 then [] else .dispatch (some (n : Int)) :: numbered 0 n)
    (hc : Counted lines ms) (k : Nat) :
    lines.countP (isLabel k) = (if 1 ≤ k ∧ k ≤ n then 1 else 0) ∧
      lines.count (jumpLine k) = (if 1 ≤ k ∧ k ≤ n then 1 else 0) := by
  rw [hc.labels, hc.jumps, h]
  by_cases hn : n = 0
  · have hk : ¬(1 ≤ k ∧ k ≤ n) := by omega
    rw [if_pos hn, if_neg hk]
    exact ⟨rfl, rfl⟩
  · have hreach : Mark.reaches k (.dispatch (some (n : Int))) = decide (1 ≤ k ∧ k ≤ n) := by
      simp [Mark.reaches]
    rw [if_neg hn, count_cons, countP_cons, count_numbered, countP_numbered, hreach]
    simp

/-- The places where a function is cut have the numbers from one to the last state, in the order
of the text and behind the dispatch, which knows the last state. The printed function has one label
and one jump for each of these numbers, and no other ones. -/
theorem definition_labels_match_jumps {f : Tree} {c : Cutter} (hu : f.uncut = true)
    (hk : f.kind = .functionDefinition) (hs : f.spelled = true)
    (hf : (definition f c).2.fault = none) :
    ∃ n : Nat,
      (definition f c).1.marks = (if n = 0 then [] else
        .dispatch (some (n : Int)) ::
          (List.range' 1 n).map fun k : Nat => .cut (some (k : Int))) ∧
      ∀ (parent : Option Kind) (p p' : Printer), p.Spelled (definition f c).1 →
        p.listing.current = "" → Print.visit parent (definition f c).1 p = .ok () p' →
        ∃ new, p'.listing.lines = p.listing.lines ++ new ∧ ∀ k : Nat,
          new.countP (isLabel k) = (if 1 ≤ k ∧ k ≤ n then 1 else 0) ∧
            new.count (jumpLine k) = (if 1 ≤ k ∧ k ≤ n then 1 else 0) := by
  have hcut := cutsDefinition_of_definition hu hk (rfl : definition f c = _) hf
  obtain ⟨n, hmarks⟩ := hcut.marks (marks_of_uncut hu)
  refine ⟨n, hmarks, fun parent p p' hp hc hprint => ?_⟩
  have hemits := emits_tidyFunction (hcut.tidy hu hk hs) (known_of_numbered hmarks) parent
  obtain ⟨new, hlines, hcount⟩ := hemits hp hc hprint
  exact ⟨new, hlines, counted_numbered hmarks hcount⟩

-- The plugin is accepted, and its functions have no signs, nor has what they are printed with.
example : (match Compilation.resolve Sample.plugin with
    | .ok _ r => (r.tree.subtrees.all fun f => f.kind != .functionDefinition || f.spelled) &&
      match Compilation.cut Sample.request r with
      | .ok _ c => c.machines.list.all (·.spelled) && c.tree.subtrees.all fun f =>
          f.kind != .functionDefinition || f.knownIn (IdMap.empty.addTree c.tree)
      | .error _ _ => false
    | .error _ _ => false) = true := by
  decide +kernel

end Cutting

/-- The printer that comes to the handler of the example. -/
def Sample.printer : Printer where
  log := {}
  listing := { file := "plugin.c" }
  product := .code
  index := Sample.index
  machines := {}
  known := some (Cutting.definition handler (cutter true)).2.machines

theorem Sample.spelled_printer :
    printer.Spelled (Cutting.definition handler (cutter true)).1 where
  index := by decide +kernel
  known ms h := by
    rw [← Option.some.inj h]
    decide +kernel
  machine m h := nomatch h

namespace Cutting

/-- The handler of the example has three states if every statement ends one. It is printed with
three labels and three jumps. -/
theorem handler_labels_match_jumps :
    let f := (definition Sample.handler (Sample.cutter true)).1
    Sample.handler.uncut = true ∧ Sample.handler.spelled = true ∧
      f.marks = [.dispatch (some 3), .cut (some 1), .cut (some 2), .cut (some 3)] ∧
      ∃ p' new, Print.visit none f Sample.printer = .ok () p' ∧
        p'.listing.lines = Sample.printer.listing.lines ++ new ∧ ∀ k : Nat,
          new.countP (isLabel k) = (if 1 ≤ k ∧ k ≤ 3 then 1 else 0) ∧
            new.count (jumpLine k) = (if 1 ≤ k ∧ k ≤ 3 then 1 else 0) := by
  intro f
  have hmarks : f.marks = [.dispatch (some 3), .cut (some 1), .cut (some 2), .cut (some 3)] := by
    decide +kernel
  obtain ⟨n, hn, hlines⟩ := definition_labels_match_jumps (c := Sample.cutter true)
    (by decide : Sample.handler.uncut = true) rfl (by decide) (by decide +kernel)
  have hthree : n = 3 := by
    rw [show f.marks = _ from hmarks] at hn
    split at hn
    · cases hn
    · have hlast := Mark.dispatch.inj (List.cons.inj hn).1
      exact (Int.ofNat.inj (Option.some.inj hlast)).symm
  subst hthree
  have hprint : Step.ended (Print.visit none f Sample.printer) = true := by decide +kernel
  obtain ⟨_, p', hp'⟩ := Step.exists_of_ended hprint
  obtain ⟨new, hnew, hcount⟩ := hlines none Sample.printer p' Sample.spelled_printer rfl hp'
  exact ⟨by decide, by decide, hmarks, p', new, hp', hnew, hcount⟩

end Cutting

end Resumable
