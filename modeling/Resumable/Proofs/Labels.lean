import Mathlib.Data.List.Count
import Resumable.Proofs.Emission

/-!
# Labels and dispatch

The printed code of a function has a label for each place where it is cut and, in its dispatch, a
jump for each state. Both are counted here, statement by statement.

* `Scene.shows_rule`: a statement is printed with the labels and jumps of its marks, if its parts
  are.
* `Print.emits_function`: a function is printed with the labels and jumps of its marks.
-/

namespace Resumable

open Entry List Text Resumable.Tree

variable {s : Scene} {t d : Tree} {cs : Children} {r : Role} {test : List Entry}
  {index : IdMap Tree}

/-- A tree has no signs in its texts, nor in what it is printed with of what it links to. -/
structure Tree.Printable (index : IdMap Tree) (t : Tree) : Prop where
  texts : t.spelled = true
  known : t.knownIn index = true

namespace Tree.Printable

variable {n : Node}

theorem node (h : t.Printable index) : t.node.spelled = true := spelled_node h.texts

theorem spelledIn (h : t.Printable index) : t.SpelledIn index where
  texts := h.texts
  names := all_eq_true.mpr fun s hs => all_eq_true.mpr fun d hd =>
    (Bool.and_eq_true_iff.mp (all_eq_true.mp (all_eq_true.mp h.known s hs) d hd)).1

theorem of_mem (h : t.Printable index) (hd : d ∈ t.subtrees) : d.Printable index where
  texts := spelled_iff_subtrees.mpr fun s hs =>
    spelled_iff_subtrees.mp h.texts s (mem_subtrees_trans hs hd)
  known := all_eq_true.mpr fun s hs => all_eq_true.mp h.known s (mem_subtrees_trans hs hd)

theorem part {p : Role × Tree} (h : (Tree.mk n cs).Printable index) (hp : p ∈ cs) :
    p.2.Printable index :=
  h.of_mem (mem_subtrees_child (t := .mk n cs) hp)

theorem child (h : t.Printable index) (hd : t.child? r = some d) : d.Printable index := by
  obtain ⟨n, cs⟩ := t
  exact h.part (mem_of_lookup hd)

/-- The type that a called function returns has no signs either. -/
theorem returned {k : LinkKey} {id : NodeId} {type : Tree} (h : t.Printable index)
    (hid : t.node.link? k = some id) (hd : index.get? id = some d)
    (htype : d.child? .returnType = some type) : type.SpelledIn index := by
  have hknown := all_eq_true.mp (all_eq_true.mp h.known t (mem_subtrees_self t)) d
    (Node.mem_linkedTo hid hd)
  rw [htype, Option.all_some, Bool.and_eq_true, Bool.and_eq_true] at hknown
  exact ⟨hknown.2.1, hknown.2.2⟩

end Tree.Printable

/-- A scene in which only names without signs are known for machines. -/
structure Scene.Spelled (index : IdMap Tree) (s : Scene) : Prop where
  index : s.index = index
  known : ∀ ms, s.known = some ms → ∀ m ∈ ms.list, m.spelled = true
  machine : ∀ m, s.machine = some m → m.spelled = true

namespace Scene

variable {s : Scene} {t : Tree} {n : Node} {k : Nat} {Q : String → Prop} {ms : List Mark}
  {es fs : List Entry}

theorem Spelled.spelledIn (hs : s.Spelled index) (ht : t.SpelledIn index) :
    t.SpelledIn s.index :=
  hs.index ▸ ht

/-! ## Types and expressions -/

theorem spells_typeIn (hs : s.Spelled index) (ht : t.Printable index) (r : Role) :
    Spells (s.typeIn t r) :=
  spells_pieces (Printing.plainPieces_typeIn fun _ hc => hs.spelledIn (ht.child hc).spelledIn)

theorem spells_expressionIn (hs : s.Spelled index) (ht : t.Printable index) (r : Role) :
    Spells (s.expressionIn t r) :=
  spells_pieces (Printing.plainPieces_expressionIn (hs.spelledIn ht.spelledIn) r)

theorem spells_optionalExpression (hs : s.Spelled index) (ht : t.Printable index) (r : Role)
    {before : String} (hb : plain before = true) : Spells (s.optionalExpression t r before) := by
  unfold optionalExpression
  split
  · exact (spells_expressionIn hs ht r).cons hb
  · exact spells_nil

theorem spells_typed (hs : s.Spelled index) (ht : t.Printable index) (r : Role) :
    Spells (s.typed t r) :=
  (spells_typeIn hs ht r).append ((spells_textOf (ht.node) .name).cons rfl)

/-! ## Leaving a function -/

theorem lays_leave : Lays Empty Empty [] s.leave := by
  unfold leave
  split
  · exact lays_nil.line (quiet_of_plain rfl)
  · exact lays_nil.line (quiet_of_plain rfl)

theorem lays_suspend (result : String) : Lays Empty Empty [] (s.suspend result) := by
  unfold suspend
  split
  · exact lays_nil.head (head?_append (head?_append rfl)) (by decide) (by decide)
  · exact lays_leave.head (head?_append (head?_append rfl)) (by decide) (by decide)

theorem lays_passOn : Lays Empty Empty [] s.passOn := by
  unfold passOn
  split
  · exact lays_nil.line (quiet_of_plain rfl)
  · exact lays_leave

/-! ## Waits -/

theorem lays_next (next : String) (h : Lays Empty Q ms es) :
    Lays Empty Q ms (.line s!"sa_state->sa_next = {next};" :: es) :=
  h.head (head?_append (head?_append rfl)) (by decide) (by decide)

theorem lays_end {o : Origin} {useFirst : Bool} : Lays Plain Empty [] [.stop o useFirst] :=
  lays_nil.stop

/-- A wait is printed with the label of its state in front of the test that is repeated. -/
theorem lays_waitHere {next : String} (hn : next = toString k) (ht : Spells test) :
    Lays Empty Empty [.cut (some (k : Int))] (s.waitHere next test) := by
  have hlabel : Lays Empty Empty [.cut (some (k : Int))]
      (.piece s!"label_{next}:" :: test ++ [.stop .unknown false, .line "\x7b"]) :=
    lays_label hn ht .unknown false (lays_nil.line (quiet_of_plain rfl))
  have hend : Lays Empty Empty [] [.line "\x7d"] := lays_nil.line (quiet_of_plain rfl)
  have hwait := lays_suspend (s := s) "PLUGIN_WAITING"
  have h := lays_next next (((hlabel.behind hwait).before hwait).before hend)
  rw [waitHere]
  simp only [append_assoc, cons_append] at h ⊢
  exact h

theorem spells_firstArgument (hs : s.Spelled index) (ht : t.Printable index) :
    Spells (s.firstArgument t) := by
  unfold firstArgument
  split
  · next args ha =>
    refine spells_pieces fun ps hps => ?_
    exact Printing.plainPieces_of_mem_argumentsOf (hs.spelledIn ht.spelledIn) ha _
      (Printing.argumentAt_inv hps) ps
      rfl
  · exact spells_nil

theorem spells_argumentList (hs : s.Spelled index) (ht : t.Printable index) :
    Spells (s.argumentList t) := by
  unfold argumentList
  split
  · next args ha =>
    refine spells_pieces fun ps hps => ?_
    cases hm : args.mapM id with
    | error e =>
      rw [hm] at hps
      cases hps
    | ok ls =>
      rw [hm] at hps
      cases hps
      refine Printing.plain_argumentPieces fun l hl => ?_
      exact Printing.plainPieces_of_mem_argumentsOf (hs.spelledIn ht.spelledIn) ha _
        (Printing.mapM_id_inv hm l hl) l
        rfl
  · exact spells_nil

theorem shownNumber_eq {key : NumberKey} (h : n.number? key = some (k : Int)) :
    Print.shownNumber n key = toString k := by
  rw [Print.shownNumber, h]
  rfl

theorem lays_papiSleep (hs : s.Spelled index) (ht : t.Printable index)
    (hk : t.node.number? .nextState = some (k : Int)) :
    Lays Empty Empty [.cut (some (k : Int))] (s.papiSleep t) :=
  (((lays_waitHere (shownNumber_eq hk) (spells_piece rfl)).behind
    ((spells_firstArgument hs ht).lays (lays_end.piece rfl))).piece rfl).begin

/-- A wait for a transfer is printed with one label, and three lines without any. -/
theorem lays_papiWait (hs : s.Spelled index) (ht : t.Printable index)
    (hk : t.node.number? .nextState = some (k : Int)) :
    Lays Empty Empty [.cut (some (k : Int))] (s.papiWait t) := by
  have hn := ht.node
  have harg := spells_firstArgument hs ht
  have htest : Spells (.piece "if(papi_wait_handler_is_waiting_for_" :: textOf t.node .waitFor ++
      .piece "(sa_wf, " :: s.firstArgument t ++ [.piece "))"]) :=
    (((spells_textOf hn _).append (harg.cons rfl)).append (spells_piece rfl)).cons rfl
  have hcall : Lays Empty Empty [] (textOf t.node .name ++ s.argumentList t ++
      [.piece ";", .stop t.node.origin false]) :=
    (((spells_textOf hn _).append (spells_argumentList hs ht)).lays (lays_end.piece rfl)).begin
  have hadd : Lays Empty Empty [] (.piece "papi_wait_handler_add_wait_for_" ::
      textOf t.node .waitFor ++ .piece "(sa_wf, " :: s.firstArgument t ++
      [.piece ");", .stop .unknown false]) :=
    ((((spells_textOf hn _).append (harg.cons rfl)).lays (lays_end.piece rfl)).piece rfl).begin
  have h := ((lays_waitHere (s := s) (shownNumber_eq hk) htest).behind hadd).behind hcall
  simpa [papiWait] using h

/-! ## The dispatch -/

/-- The dispatch has one jump for each state from the first one to the last. -/
theorem counted_jumps (last : Int) :
    Counted ((List.range last.toNat).map fun i => jumpLine (i + 1)) [.dispatch (some last)] where
  labels k := by
    rw [countP_eq_zero.mpr, count_eq_zero.mpr]
    · simp
    · intro x hx
      obtain ⟨i, -, rfl⟩ := mem_map.mp hx
      simp [isLabel_jumpLine]
  jumps k := by
    rw [countP_singleton]
    cases k with
    | zero =>
      rw [count_eq_zero.mpr]
      · rfl
      · intro hmem
        obtain ⟨i, -, hi⟩ := mem_map.mp hmem
        exact absurd (jumpLine_injective hi) (Nat.succ_ne_zero i)
    | succ k =>
      -- Different states have different lines, so each of them is counted once.
      have hinj : Function.Injective fun i => jumpLine (i + 1) := fun i j hij =>
        Nat.succ.inj (jumpLine_injective hij)
      have hreach : Mark.reaches (k + 1) (.dispatch (some last)) = decide (k < last.toNat) := by
        rw [Bool.eq_iff_iff]
        simp only [Mark.reaches, Bool.and_eq_true, decide_eq_true_eq]
        omega
      rw [count_map_of_injective (List.range last.toNat) _ hinj k, nodup_range.count,
        hreach]
      simp

/-- The case in which a function begins is no jump. -/
theorem quiet_caseZero : Quiet "case 0: break;" := by
  intro k
  constructor
  · rw [Bool.eq_false_iff]
    intro hl
    obtain ⟨rest, hrest⟩ := isLabel_iff.mp hl
    exact absurd (List.cons.inj hrest).1 (by decide)
  · intro h
    have hl := congrArg String.toList h
    rw [toList_jumpLine] at hl
    have hcase : "case 0: break;".toList = "case 0".toList ++ ':' :: " break;".toList := rfl
    have hfree : signless "case 0" = true := by decide
    have hsigns : ∀ ch ∈ "case 0".toList, isSign ch = false := fun ch hch => by
      simpa using all_eq_true.mp hfree ch hch
    obtain ⟨-, hrest⟩ := split_colon hsigns (isSign_of_mem_numbered rfl) (hcase ▸ hl)
    exact absurd (List.cons.inj (List.cons.inj hrest).2).1 (by decide)

theorem lays_dispatch {last : Int} (h : n.number? .lastState = some last) :
    Lays Empty Empty [.dispatch (some last)] (dispatch n) := by
  have hjumps := lays_lines (counted_jumps last)
  rw [map_map] at hjumps
  have hend : Lays Empty Empty [] [.line "default: ZEPTO_ASSERT(0);", .line "\x7d"] :=
    (lays_nil.line (quiet_of_plain rfl)).head (show _ = some 'd' from rfl) (by decide) (by decide)
  unfold dispatch
  rw [h]
  exact (hjumps.behind ((lays_nil.line quiet_caseZero).line (quiet_of_plain rfl))).before hend

/-! ## Calls of functions with states -/

theorem lays_enterSub (next : String) : Lays Empty Empty [] (enterSub next) :=
  (lays_next next lays_nil).line (quiet_of_plain rfl)

/-- A call that was taken out is printed with one label, in front of the call. -/
theorem lays_callSub (hs : s.Spelled index) (ht : t.Printable index)
    (hk : t.node.number? .nextState = some (k : Int)) :
    Lays Empty Empty [.cut (some (k : Int))] (s.callSub t) := by
  have hn := ht.node
  -- The variable has the type that the function returns.
  have htype : Spells (s.calledType t) := by
    unfold calledType
    split
    · next d hd =>
      obtain ⟨call, hcall, hlink⟩ := Option.bind_eq_some_iff.mp hd
      obtain ⟨id, hid, hget⟩ := Option.bind_eq_some_iff.mp hlink
      rw [hs.index] at hget
      exact spells_pieces (Printing.plainPieces_typeIn fun _ hc =>
        hs.spelledIn ((ht.child hcall).returned hid hget hc))
    · exact spells_nil
  have hcall : Spells (s.calledType t ++ (.piece " " :: textOf t.node .name) ++
      (.piece " = " :: s.expressionIn t .expression)) :=
    (htype.append ((spells_textOf hn _).cons rfl)).append
      ((spells_expressionIn hs ht _).cons rfl)
  have hrest : Lays Empty Empty [] (s.calledType t ++ (.piece " " :: textOf t.node .name) ++
      (.piece " = " :: s.expressionIn t .expression) ++ [.piece ";", .stop t.node.origin false,
        .line "if(*(uint8_t*)(sa_state + 1) != 0)"] ++ s.passOn) :=
    lays_passOn.behind (hcall.lays (((lays_nil.line (quiet_of_plain rfl)).stop).piece rfl)).begin
  have hlabel := hrest.labelLine (shownNumber_eq hk)
    (show ": ;/*nop*/".toList = ':' :: " ;/*nop*/".toList from rfl)
  have h := hlabel.behind (lays_enterSub (Print.shownNumber t.node .nextState))
  rw [callSub]
  simp only [append_assoc, cons_append] at h ⊢
  exact h

/-! ## The first statements -/

theorem plain_structName (hs : s.Spelled index) : plain s.structName = true := by
  refine plain_of_signless ?_
  unfold structName
  cases hm : s.machine with
  | none => rfl
  | some m =>
    have hspelled := hs.machine m hm
    unfold Machine.spelled at hspelled
    cases hname : m.structName with
    | none => simp [hname, shown]; rfl
    | some name => simpa [hname, shown] using hspelled

theorem lays_mainFirst (hs : s.Spelled index) (hn : n.spelled = true) :
    Lays Empty Empty [] (s.mainFirst n) := by
  have hname := plain_structName hs
  have hstate := plain_of_signless (signless_shownText hn .handlerState)
  refine (((lays_nil.head (show _ = some 'w' from head?_append (head?_append rfl)) (by decide)
    (by decide)).line (quiet_of_plain ?_))).append ?_
  · exact plain_append (plain_append (plain_append (plain_append (plain_append hname rfl) hname)
      rfl) hstate) rfl
  · split
    · exact (lays_nil.line (quiet_of_plain rfl)).line (quiet_of_plain rfl)
    · exact lays_nil

/-! ## Declarations -/

theorem lays_variableDeclaration (hs : s.Spelled index) (ht : t.Printable index) :
    Lays Empty Empty [] (s.variableDeclaration t) := by
  unfold variableDeclaration
  split
  · split
    · exact (Lays.piece (((spells_textOf (ht.node) _).append
        ((spells_expressionIn hs ht _).cons rfl)).lays (lays_end.piece rfl)) rfl).begin
    · exact lays_nil
  · exact (((spells_typed hs ht _).append (spells_optionalExpression hs ht _ rfl)).lays
      (lays_end.piece rfl)).begin

/-! ## Parts of a statement -/

/-- Entries with the labels and jumps of some marks, which leave a scene of the same kind. -/
def Shows (index : IdMap Tree) (ms : List Mark) (e : List Entry × Scene) : Prop :=
  Lays Empty Empty ms e.1 ∧ e.2.Spelled index

theorem Shows.around {inner : List Entry × Scene} (he : Lays Empty Empty [] es)
    (h : Shows index ms inner) (hf : Lays Empty Empty [] fs) :
    Shows index ms (around es inner fs) := by
  have hall := (he.append h.1).append hf
  rw [nil_append, append_nil] at hall
  exact ⟨hall, h.2⟩

variable {parent : Option Kind} {cs : Children}

/-- Statements are printed one after the other, with all their marks. -/
theorem shows_all (hs : s.Spelled index)
    (h : ∀ p ∈ cs, ∀ s : Scene, s.Spelled index → Shows index p.2.marks (entries parent p.2 s)) :
    Shows index (marks.go cs) (all (entries.go parent cs) s) := by
  induction cs generalizing s with
  | nil => exact ⟨lays_nil, hs⟩
  | cons p cs ih =>
    obtain ⟨r, t⟩ := p
    obtain ⟨hhere, hs'⟩ := h (r, t) mem_cons_self s hs
    obtain ⟨hrest, hs''⟩ := ih hs' fun q hq => h q (mem_cons_of_mem _ hq)
    exact ⟨hhere.append hrest, hs''⟩

theorem filter_go : (entries.go parent cs).filter (·.role == r) =
    entries.go parent (cs.filter (·.1 == r)) := by
  induction cs with
  | nil => rfl
  | cons p cs ih =>
    obtain ⟨r', t⟩ := p
    simp only [entries.go, filter_cons]
    split
    · rw [entries.go, ih]
    · exact ih

theorem shows_inRole (hs : s.Spelled index)
    (h : ∀ p ∈ cs, p.1 = r → ∀ s : Scene, s.Spelled index →
      Shows index p.2.marks (entries parent p.2 s)) :
    Shows index (marks.go (cs.filter (·.1 == r))) (inRole (entries.go parent cs) r s) := by
  rw [inRole, filter_go]
  refine shows_all hs fun p hp => ?_
  obtain ⟨hmem, hr⟩ := mem_filter.mp hp
  exact h p hmem (by simpa using hr)

end Scene

/-! ## Statements -/

/-- Where a statement can hold other ones. -/
def Kind.holds : Kind → Role → Bool
  | statementList, _ => true
  | ifElse, r => r == .thenBranch || r == .elseBranch
  | whileLoop, r | doWhileLoop, r | forLoop, r => r == .body
  | _, _ => false

/-- Whether statements stand only where a statement can hold them, and marks only in statements. -/
def Tree.framed : Tree → Bool
  | mk n cs => n.kind.isA .statement && !n.kind.generated && go n.kind cs
where
  /-- Whether the statements among the children are so, and the other ones have no marks. -/
  go (k : Kind) : Children → Bool
    | [] => true
    | (r, t) :: rest => (if k.holds r then t.framed else t.marks.isEmpty) && go k rest

theorem Tree.framed_go_iff {k : Kind} :
    framed.go k cs = true ↔
      ∀ p ∈ cs, if k.holds p.1 then p.2.framed = true else p.2.marks = [] := by
  induction cs with
  | nil => simp [framed.go]
  | cons p cs ih =>
    obtain ⟨r, t⟩ := p
    rw [framed.go, Bool.and_eq_true, ih, forall_mem_cons]
    split <;> simp

theorem Tree.framed_iff {n : Node} :
    (mk n cs).framed = true ↔ (n.kind.isA .statement = true ∧ n.kind.generated = false) ∧
      ∀ p ∈ cs, if n.kind.holds p.1 then p.2.framed = true else p.2.marks = [] := by
  rw [framed, Bool.and_eq_true, Bool.and_eq_true, Bool.not_eq_true', framed_go_iff]

theorem Tree.marks_go_filter_append (q : Role × Tree → Bool) (cs : Children) :
    (marks.go (cs.filter q) ++ marks.go (cs.filter fun p => !q p)).Perm (marks.go cs) := by
  rw [← marks_go_append, gathers_marks.eq_flatMap, gathers_marks.eq_flatMap]
  exact (filter_append_perm q cs).flatMap_right _

namespace Print

/-- A mark whose number is known. -/
def Known (m : Mark) : Prop := ∃ k : Nat, m = .dispatch (some (k : Int)) ∨ m = .cut (some (k : Int))

end Print

namespace Scene

open Resumable.Tree Print

section

variable {s : Scene} {n : Node} {cs : Children} {parent : Option Kind}

theorem marks_of_bare (hf : (Tree.mk n cs).framed = true) (hk : ∀ r, n.kind.holds r = false) :
    (Tree.mk n cs).marks = n.mark?.toList := by
  have hcs : marks.go cs = [] := gathers_marks.eq_nil.mpr fun p hp => by
    simpa [hk] using (framed_iff.mp hf).2 p hp
  rw [marks, hcs, append_nil]

theorem nextState_of_known (hm : ∀ m ∈ (Tree.mk n cs).marks, Known m) (hk : n.kind.cuts = true) :
    ∃ k : Nat, n.number? .nextState = some (k : Int) ∧ n.mark? = some (.cut (some (k : Int))) := by
  have hne : n.kind ≠ .machine := by
    intro h
    rw [h] at hk
    cases hk
  have hmark : n.mark? = some (.cut (n.number? .nextState)) := by
    rw [Node.mark?, if_neg hne, if_pos hk]
  obtain ⟨k, h | h⟩ := hm (.cut (n.number? .nextState)) (by rw [marks, hmark]; simp)
  · cases h
  · have hnext : n.number? .nextState = some (k : Int) := Mark.cut.inj h
    exact ⟨k, hnext, by rw [hmark, hnext]⟩

theorem lastState_of_known (hm : ∀ m ∈ (Tree.mk n cs).marks, Known m) (hk : n.kind = .machine) :
    ∃ last : Int, n.number? .lastState = some last ∧ n.mark? = some (.dispatch (some last)) := by
  have hmark : n.mark? = some (.dispatch (n.number? .lastState)) := by
    rw [Node.mark?, if_pos hk]
  obtain ⟨k, h | h⟩ := hm (.dispatch (n.number? .lastState)) (by rw [marks, hmark]; simp)
  · have hlast : n.number? .lastState = some (k : Int) := Mark.dispatch.inj h
    exact ⟨k, hlast, by rw [hmark, hlast]⟩
  · cases h

/-- The children of a statement that hold statements show the marks of these. -/
def Parts (index : IdMap Tree) (parent : Option Kind) (k : Kind) (cs : Children) : Prop :=
  ∀ p ∈ cs, k.holds p.1 = true → ∀ s : Scene, s.Spelled index →
    Shows index p.2.marks (entries parent p.2 s)

/-- The marks of a loop are those of its body. -/
theorem shows_body (hs : s.Spelled index) (hk : ∀ r, n.kind.holds r = (r == .body))
    (hn : n.mark? = none) (hf : (Tree.mk n cs).framed = true)
    (hparts : Parts index parent n.kind cs) :
    Shows index (Tree.mk n cs).marks (inRole (entries.go parent cs) .body s) := by
  have hcs := (framed_iff.mp hf).2
  have hfilter : marks.go (cs.filter (·.1 == .body)) = marks.go cs := by
    refine gathers_marks.filter fun p hp => or_iff_not_imp_left.mpr fun hq => ?_
    have hrole : p.1 ≠ .body := by simpa using hq
    simpa [hk, hrole] using hcs p hp
  rw [marks, hn, ← hfilter]
  exact shows_inRole hs fun p hp hr => hparts p hp (by simp [hk, hr])

/-- The marks of a branch are those of its two blocks, in either order of its children. -/
theorem marks_branches (hk : n.kind = .ifElse) (hf : (Tree.mk n cs).framed = true) :
    (marks.go (cs.filter (·.1 == .thenBranch)) ++ marks.go (cs.filter (·.1 == .elseBranch))).Perm
      (Tree.mk n cs).marks := by
  have hcs := (framed_iff.mp hf).2
  have hrest : marks.go ((cs.filter fun p => !(p.1 == .thenBranch)).filter
      (·.1 == .elseBranch)) = marks.go (cs.filter fun p => !(p.1 == .thenBranch)) := by
    -- What is in neither branch has no labels.
    refine gathers_marks.filter fun p hp => or_iff_not_imp_left.mpr fun hq => ?_
    obtain ⟨hmem, hne⟩ := mem_filter.mp hp
    have hrole : n.kind.holds p.1 = false := by
      rw [hk]
      simp only [Bool.not_eq_true', beq_eq_false_iff_ne, beq_iff_eq] at hne hq
      simp [Kind.holds, hne, hq]
    simpa [hrole] using hcs p hmem
  have hsame : (cs.filter fun p => !(p.1 == .thenBranch)).filter (·.1 == .elseBranch) =
      cs.filter (·.1 == .elseBranch) := by
    rw [filter_filter]
    refine filter_congr fun p _ => ?_
    by_cases hr : p.1 = .elseBranch <;> simp [hr]
  have hperm := marks_go_filter_append (·.1 == .thenBranch) cs
  rw [← hrest, hsame] at hperm
  rw [marks, Node.mark?, hk]
  exact hperm

/-- A branch is printed with the marks of both blocks, if there is a second one. -/
theorem shows_branches (hs : s.Spelled index) (hk : n.kind = .ifElse)
    (hf : (Tree.mk n cs).framed = true) (ht : Lays Empty Empty [] test)
    (hparts : Parts index parent n.kind cs) :
    let yes := around test (inRole (entries.go parent cs) .thenBranch s) []
    Shows index (Tree.mk n cs).marks (if ((Tree.mk n cs).child? .elseBranch).isSome then
      around (yes.1 ++ [.piece "else", .stop .unknown false])
        (inRole (entries.go parent cs) .elseBranch yes.2) [] else yes) := by
  intro yes
  have hyes : Shows index (marks.go (cs.filter (·.1 == .thenBranch))) yes :=
    .around ht (shows_inRole hs fun p hp hr => hparts p hp (by simp [hk, Kind.holds, hr])) lays_nil
  have hperm := marks_branches hk hf
  split
  · obtain ⟨hno, hs'⟩ : Shows index (marks.go (cs.filter (·.1 == .elseBranch)))
        (inRole (entries.go parent cs) .elseBranch yes.2) :=
      shows_inRole hyes.2 fun p hp hr => hparts p hp (by simp [hk, Kind.holds, hr])
    have helse : Lays Empty Empty [] [.piece "else", .stop .unknown false] :=
      (lays_end.piece rfl).begin
    exact ⟨(((hyes.1.before helse).append hno).before lays_nil).perm hperm, hs'⟩
  · next hnone =>
    -- Without a second block there are no marks in it.
    have hempty : cs.filter (·.1 == .elseBranch) = [] := by
      rw [filter_eq_nil_iff]
      intro p hp hr
      refine hnone ?_
      rw [child?, Option.isSome_iff_ne_none, Ne, lookup_eq_none_iff]
      intro hall
      have hne := hall p hp
      rw [beq_iff_eq] at hr
      simp [hr] at hne
    rw [hempty, show marks.go [] = [] from rfl, append_nil] at hperm
    exact ⟨hyes.1.perm hperm, hyes.2⟩

/-- A statement is printed with a label for each cut and a jump for each case in it, if the lists
of statements in it are. -/
theorem shows_rule {inner : Option Kind} (hs : s.Spelled index)
    (ht : (Tree.mk n cs).Printable index) (hf : (Tree.mk n cs).framed = true)
    (hm : ∀ m ∈ (Tree.mk n cs).marks, Known m)
    (hparts : Parts index inner n.kind cs) :
    Shows index (Tree.mk n cs).marks (s.rule parent (Tree.mk n cs) (entries.go inner cs)) := by
  have hn : n.spelled = true := ht.node
  have hexpr : ∀ r, Spells (s.expressionIn (Tree.mk n cs) r) := spells_expressionIn hs ht
  have hopt : ∀ r {b}, plain b = true → Spells (s.optionalExpression (Tree.mk n cs) r b) :=
    spells_optionalExpression hs ht
  have htest : ∀ (r : Role) {a b : String} {o : Origin} {useFirst : Bool}, plain a = true →
      plain b = true → Lays Empty Empty [] (.piece a :: s.expressionIn (Tree.mk n cs) r ++
        [.piece b, .stop o useFirst]) := fun r a b o useFirst ha hb =>
    (((hexpr r).lays (lays_end.piece hb)).piece ha).begin
  -- All kinds but those of statements are ruled out.
  obtain ⟨⟨hstmt, hgen⟩, -⟩ := framed_iff.mp hf
  unfold rule
  cases hk : n.kind <;> rw [hk] at hstmt hgen
  all_goals first | exact absurd hstmt (by decide) | exact absurd hgen (by decide) | skip
  all_goals simp only [node, hk]
  case statementList =>
    have hmarks : (Tree.mk n cs).marks = marks.go cs := by
      rw [marks, Node.mark?, hk]
      rfl
    rw [hmarks]
    exact .around (lays_nil.line (quiet_of_plain rfl))
      (shows_all hs fun p hp => hparts p hp (by rw [hk]; rfl))
      (lays_nil.line (quiet_of_plain rfl))
  case ifElse => exact shows_branches hs hk hf (htest _ rfl rfl) hparts
  case whileLoop =>
    exact .around (htest _ rfl rfl) (shows_body hs (by rw [hk]; exact fun _ => rfl)
      (by rw [Node.mark?, hk]; rfl) hf hparts) lays_nil
  case doWhileLoop =>
    have hbody := shows_body hs (by rw [hk]; exact fun _ => rfl) (by rw [Node.mark?, hk]; rfl) hf
      hparts
    exact .around (lays_end.piece rfl).begin hbody
      ((((spells_expressionIn hbody.2 ht _).lays (lays_end.piece rfl)).piece rfl).begin)
  case forLoop =>
    refine .around (Lays.begin ?_) (shows_body hs (by rw [hk]; exact fun _ => rfl)
      (by rw [Node.mark?, hk]; rfl) hf hparts) lays_nil
    exact (((((hopt _ rfl).append ((hopt _ rfl).cons rfl)).append ((hopt _ rfl).cons rfl)).lays
      (lays_end.piece rfl)).piece rfl)
  -- what is left holds no statements, and is printed in the same scene
  all_goals
    rw [marks_of_bare hf (by rw [hk]; exact fun _ => rfl)]
    refine ⟨?_, hs⟩
  -- These have a mark of their own.
  case machine =>
    obtain ⟨last, hnum, hmark⟩ := lastState_of_known hm hk
    rw [hmark]
    exact lays_dispatch hnum
  case debugState =>
    obtain ⟨k, hnum, hmark⟩ := nextState_of_known hm (by rw [hk]; rfl)
    rw [hmark]
    have hlabel := lays_nil.labelLine (shownNumber_eq hnum)
      (show ": /* nop */ ;".toList = ':' :: " /* nop */ ;".toList from rfl)
    exact lays_next _ (hlabel.behind (lays_suspend _))
  case beforeSub =>
    obtain ⟨k, hnum, hmark⟩ := nextState_of_known hm (by rw [hk]; rfl)
    rw [hmark]
    have hlabel := lays_nil.labelLine (shownNumber_eq hnum)
      (show ": ".toList = ':' :: " ".toList from rfl)
    exact hlabel.behind (lays_enterSub _)
  case callSub =>
    obtain ⟨k, hnum, hmark⟩ := nextState_of_known hm (by rw [hk]; rfl)
    rw [hmark]
    exact lays_callSub hs ht hnum
  case papiWait =>
    obtain ⟨k, hnum, hmark⟩ := nextState_of_known hm (by rw [hk]; rfl)
    rw [hmark]
    exact lays_papiWait hs ht hnum
  case papiSleep =>
    obtain ⟨k, hnum, hmark⟩ := nextState_of_known hm (by rw [hk]; rfl)
    rw [hmark]
    exact lays_papiSleep hs ht hnum
  -- The other ones have none.
  all_goals rw [Node.mark?, hk]
  case nop => exact (lays_end.piece rfl).begin
  case returnStatement => exact (((hopt _ rfl).lays (lays_end.piece rfl)).piece rfl).begin
  case variableDeclaration => exact lays_variableDeclaration hs ht
  case expressionStatement | callStatement => exact ((hexpr _).lays (lays_end.piece rfl)).begin
  case typedefStatement =>
    exact (((spells_typed hs ht _).lays (lays_end.piece rfl)).piece rfl).begin
  case mainFirst => exact lays_mainFirst hs hn
  case subFirst =>
    have hname := plain_structName hs
    exact lays_nil.line (quiet_of_plain
      (plain_append (plain_append (plain_append hname rfl) hname) rfl))
  case initFirst =>
    exact lays_nil.head (head?_append (head?_append rfl)) (by decide) (by decide)
  case afterSub => exact lays_passOn.line (quiet_of_plain rfl)
  case beforeReturn => exact lays_nil.line (quiet_of_plain rfl)
  case statement | errorStatement | loop =>
    rw [Printing.bare, hk]
    exact lays_nil

end

/-- Every statement is printed with the labels and jumps of its marks. -/
theorem shows_entries (ht : t.Printable index) (hf : t.framed = true) (hm : ∀ m ∈ t.marks, Known m)
    (parent : Option Kind) (hs : s.Spelled index) : Shows index t.marks (entries parent t s) := by
  induction t using ofSmaller generalizing parent s with
  | step t ih =>
    obtain ⟨n, cs⟩ := t
    -- The marks of a part are among those of the statement, so their numbers are known.
    refine shows_rule hs ht hf hm fun p hp hr s hs => ?_
    have hframed := (framed_iff.mp hf).2 p hp
    rw [if_pos hr] at hframed
    refine ih p.2 (sizeOf_child hp) (ht.part hp) hframed (fun m hmem => ?_) _ hs
    exact hm m (mem_append_right _ (gathers_marks.mem.mpr ⟨p, hp, hmem⟩))

/-! ## Functions -/

theorem spelled_of_mem_inRole {c : Tree} (ht : t.spelled = true) (hc : c ∈ t.inRole r) :
    c.spelled = true := by
  obtain ⟨n, cs⟩ := t
  obtain ⟨⟨r', c'⟩, hp, hpc⟩ := mem_filterMap.mp hc
  dsimp only at hpc
  split at hpc <;> cases hpc
  exact (spelled_iff.mp ht).2 (r', c) hp

theorem Spelled.entering (hs : s.Spelled index) (t : Tree) : (s.entering t).Spelled index := by
  refine ⟨hs.index, hs.known, fun m hm => ?_⟩
  obtain ⟨ms, hms, hfind⟩ := Option.bind_eq_some_iff.mp hm
  exact hs.known ms hms m (mem_of_find?_eq_some hfind)

theorem spells_parameters (hs : s.Spelled index) (ht : t.Printable index) (extra : Bool) :
    Spells (s.parameters t extra) := by
  unfold parameters
  split
  · next list hlist =>
    refine spells_flatMap ?_
    rintro ⟨param, i⟩ hq
    have hparam : param.Printable index :=
      (ht.child hlist).of_mem (mem_subtrees_child (mem_inRole.mp (fst_mem_of_mem_zipIdx hq)))
    refine Spells.append (Spells.append ?_ (spells_typeIn hs hparam _)) ?_
    · split
      · exact spells_piece rfl
      · exact spells_nil
    · split
      · next name hname =>
        have hsign := Node.signless_of_text hparam.node hname
        exact (spells_piece (plain_of_signless hsign)).cons rfl
      · exact spells_nil
  · exact spells_nil

theorem spells_when {b : Bool} {word : String} (hw : plain word = true) :
    Spells (if b = true then [.piece word] else []) := by
  split
  · exact spells_piece hw
  · exact spells_nil

/-- The head of a function has neither labels nor jumps. -/
theorem lays_functionDecl (hs : s.Spelled index) (hd : d.Printable index) (parent : Option Kind) :
    Lays Empty Empty [] (s.functionDecl parent d) := by
  have hend : Spells (if parent = some .functionDefinition then [] else [.piece ";"]) := by
    split
    · exact spells_nil
    · exact spells_piece rfl
  unfold functionDecl
  refine Lays.begin (Spells.lays ?_ lays_end)
  exact ((((((spells_when rfl).append (spells_when rfl)).append (spells_typeIn hs hd _)).append
    ((spells_textOf hd.node _).cons rfl)).append ((spells_when rfl).cons rfl)).append
      (spells_parameters hs hd _)).append (hend.cons rfl)

theorem shows_declared (hs : s.Spelled index) (hk : d.kind.isA .functionDecl = true)
    (hd : d.Printable index) (parent : Option Kind) : Shows index [] (entries parent d s) := by
  have hkinds : d.kind = .functionDecl ∨ d.kind = .papiFunctionDecl ∨ d.kind = .operatorDecl := by
    revert hk
    cases d.kind <;> decide
  have hdecl := lays_functionDecl (hs.entering d) hd parent
  obtain ⟨n, cs⟩ := d
  simp only [kind, node] at hkinds
  rw [entries]
  rcases hkinds with h | h | h
  all_goals
    simp only [rule, node, h]
    exact ⟨hdecl, hs.entering _⟩

end Scene

namespace Print

open Resumable.Tree

/-- A step adds lines with the labels and jumps of some marks, if it is carried out by a printer
that knows what a tree links to. -/
def Emits (t : Tree) (ms : List Mark) (a : Print Unit) : Prop :=
  ∀ ⦃p p' : Printer⦄, p.Spelled t → p.listing.current = "" → a p = .ok () p' →
    ∃ new, p'.listing.lines = p.listing.lines ++ new ∧ Counted new ms

theorem emits_visit {ms : List Mark} {parent : Option Kind}
    (h : ∀ (index : IdMap Tree) (s : Scene), t.knownIn index = true → s.Spelled index →
      Scene.Shows index ms (Scene.entries parent t s)) :
    Emits t ms (visit parent t) := by
  intro p p' hp hc hrun
  obtain ⟨hlays, -⟩ := h p.index p.scene hp.index ⟨rfl, hp.known, hp.machine⟩
  obtain ⟨-, hl⟩ := enters_visit parent t _ rfl hrun
  obtain ⟨-, hnew⟩ := hlays p.listing hc
  rw [hl]
  exact hnew

/-- A function is printed with the labels and jumps of its body. -/
theorem emits_function {n : Node} {body : Tree} (hk : n.kind = .functionDefinition)
    (hd : d.kind.isA .functionDecl = true) (hds : d.spelled = true) (hdm : d.marks = [])
    (hb : body.spelled = true) (hf : body.framed = true) (hm : ∀ m ∈ body.marks, Known m)
    (parent : Option Kind) :
    Emits (mk n [(.declaration, d), (.body, body)])
      (mk n [(.declaration, d), (.body, body)]).marks
      (visit parent (mk n [(.declaration, d), (.body, body)])) := by
  have hmarks : (mk n [(.declaration, d), (.body, body)]).marks = body.marks := by
    simp [marks, marks.go, Node.mark?, hk, Kind.cuts, hdm]
  rw [hmarks]
  refine emits_visit fun index s hknown hs => ?_
  -- Both parts are known to the index, as the function is.
  have hpart : ∀ p ∈ [(Role.declaration, d), (.body, body)], p.2.knownIn index = true :=
    fun p hp => all_eq_true.mpr fun u hu =>
      all_eq_true.mp hknown u (mem_subtrees_mk.mpr (.inr ⟨p, hp, hu⟩))
  obtain ⟨hhead, hs'⟩ := Scene.shows_declared hs hd ⟨hds, hpart _ mem_cons_self⟩ (some n.kind)
  obtain ⟨hbody, hs''⟩ := Scene.shows_entries
    ⟨hb, hpart _ (mem_cons_of_mem _ mem_cons_self)⟩ hf hm (some n.kind) hs'
  rw [Scene.entries, Scene.rule]
  simp only [node, hk] at hbody hhead hs'' ⊢
  exact ⟨(hbody.before Entry.lays_nil).behind hhead, hs''⟩

end Print

end Resumable
