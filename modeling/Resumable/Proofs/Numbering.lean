import Resumable.Proofs.Walk.Function

/-!
# The numbers of the states

Every place where a function is cut has the number of the state that begins there, and the
dispatch of the function knows the last number. The numbers are handed out while statements are
put before and behind the current one, and calls are taken out of the conditions around it. All
the same they count up in the order of the text.

* `Cutting.CutsStatement.marks`: the cuts in and around a statement are numbered in their order.
* `Cutting.CutsDefinition.marks`: so are those of a function, behind a dispatch that knows the last
  number.
-/

namespace Resumable

open List Resumable.Tree

variable {n a w m b : Node} {t f f' d : Tree} {cs as : Children} {c c₁ c' : Cutter} {r : Role}
  {o : Origin} {main : Bool} {p : Role × Tree}

/-! ## Marks -/

/-- What a node has to do with states. -/
inductive Mark where
  | dispatch (last : Option Int)
  | cut (next : Option Int)
deriving Repr, DecidableEq, Inhabited

/-- The kinds of nodes that end a state and begin the next one. -/
def Kind.cuts : Kind → Bool
  | debugState | beforeSub | callSub | papiWait | papiSleep => true
  | _ => false

/-- The mark of a node: it jumps to the states, or it has the label of one. -/
def Node.mark? (n : Node) : Option Mark :=
  if n.kind = .machine then some (.dispatch (n.number? .lastState))
  else if n.kind.cuts then some (.cut (n.number? .nextState))
  else none

namespace Tree

/-- The marks of a tree in the order of the text. -/
def marks : Tree → List Mark
  | mk n cs => n.mark?.toList ++ go cs
where
  go : Children → List Mark
    | [] => []
    | (_, t) :: rest => t.marks ++ go rest

theorem gathers_marks : Gathers marks.go marks := ⟨rfl, fun _ _ => rfl⟩

@[simp] theorem marks_go_append (xs ys : Children) :
    marks.go (xs ++ ys) = marks.go xs ++ marks.go ys := gathers_marks.append xs ys

theorem marks_go_map (r : Role) (ts : List Tree) :
    marks.go (ts.map (r, ·)) = ts.flatMap marks := by
  rw [gathers_marks.eq_flatMap, flatMap_map]

theorem marks_eq_nil_iff : (mk n cs).marks = [] ↔ n.mark? = none ∧ marks.go cs = [] := by
  simp [marks]

/-- There are no marks before cutting. -/
theorem marks_of_uncut (hu : t.uncut = true) : t.marks = [] := by
  induction t using ofSmaller with
  | step t ih =>
    obtain ⟨n, cs⟩ := t
    have hins := uncut_inserted hu
    refine marks_eq_nil_iff.mpr ⟨?_, gathers_marks.eq_nil.mpr fun p hp => ?_⟩
    · unfold Node.mark?
      cases hk : n.kind <;> rw [hk] at hins <;>
        first | exact absurd hins (by decide) | rfl
    · exact ih p.2 (sizeOf_child hp) (uncut_child hu hp)

mutual

/-- A change of nodes that leaves their marks alone leaves those of a tree alone. -/
theorem marks_mapNodes {g : Node → Node} (hg : ∀ n, (g n).mark? = n.mark?) :
    (t : Tree) → (t.mapNodes g).marks = t.marks
  | mk n cs => by rw [mapNodes, marks, marks, hg, marks_mapNodes_go hg cs]

theorem marks_mapNodes_go {g : Node → Node} (hg : ∀ n, (g n).mark? = n.mark?) :
    (cs : Children) → marks.go (mapNodes.go g cs) = marks.go cs
  | [] => rfl
  | (_, t) :: rest => by
    rw [mapNodes.go, marks.go, marks.go, marks_mapNodes hg t, marks_mapNodes_go hg rest]

end

end Tree

/-! ## Labels -/

def Mark.label? : Mark → Option (Option Int)
  | .cut k => some k
  | .dispatch _ => none

/-- The numbers of the labels in a tree, in the order of the text. -/
def Tree.labels (t : Tree) : List (Option Int) := t.marks.filterMap Mark.label?

namespace Tree

/-- Whether there is a label in a tree. -/
def isCut (t : Tree) : Bool := !t.labels.isEmpty

theorem isCut_iff : t.isCut = true ↔ ∃ k, .cut k ∈ t.marks := by
  have hlabel : ∀ m : Mark, m.label? ≠ none ↔ ∃ k, m = .cut k := by
    intro m
    cases m <;> simp [Mark.label?]
  rw [isCut, labels, Bool.not_eq_true', isEmpty_eq_false_iff, Ne, filterMap_eq_nil_iff]
  simp only [not_forall]
  constructor
  · rintro ⟨m, hm, hne⟩
    obtain ⟨k, rfl⟩ := (hlabel m).mp hne
    exact ⟨k, hm⟩
  · rintro ⟨k, hk⟩
    exact ⟨.cut k, hk, (hlabel _).mpr ⟨k, rfl⟩⟩

theorem isCut_of_child (hp : p ∈ cs) (h : p.2.isCut = true) : (mk n cs).isCut = true := by
  obtain ⟨k, hk⟩ := isCut_iff.mp h
  exact isCut_iff.mpr ⟨k, mem_append_right _ (gathers_marks.mem.mpr ⟨p, hp, hk⟩)⟩

theorem not_isCut_child (h : (mk n cs).isCut = false) (hp : p ∈ cs) : p.2.isCut = false := by
  rw [Bool.eq_false_iff] at h ⊢
  exact fun hc => h (isCut_of_child hp hc)

theorem not_isCut_of_marks (h : t.marks = []) : t.isCut = false := by
  rw [isCut, labels, h]
  rfl

theorem mem_of_lookup (h : cs.lookup r = some t) : (r, t) ∈ cs := by
  obtain ⟨xs, ys, rfl, -⟩ := lookup_eq_some_iff.mp h
  simp

theorem isCut_of_part (hr : cs.lookup r = some t) (h : t.isCut = true) : (mk n cs).isCut = true :=
  isCut_of_child (mem_of_lookup hr) h

theorem isCut_of_kind {k : Kind} (hk : t.kind = k) (hc : k.cuts = true) : t.isCut = true := by
  obtain ⟨n, cs⟩ := t
  have hm : k ≠ .machine := by
    rintro rfl
    cases hc
  refine isCut_iff.mpr ⟨n.number? .nextState, mem_append_left _ ?_⟩
  simp [Node.mark?, hm, show n.kind = k from hk, hc]

theorem cuts_of_not_isCut (h : t.isCut = false) : t.kind.cuts = false := by
  rw [Bool.eq_false_iff]
  intro hk
  rw [isCut_of_kind rfl hk] at h
  cases h

end Tree

namespace Cutting

open Resumable.Tree

/-! ## Rows of numbers -/

/-- The cuts of the states behind one number, up to another one. -/
def numbered (a b : Nat) : List Mark :=
  (List.range' (a + 1) (b - a)).map fun k : Nat => .cut (some (k : Int))

@[simp] theorem numbered_self (a : Nat) : numbered a a = [] := by simp [numbered]

@[simp] theorem numbered_succ (a : Nat) :
    numbered a (a + 1) = [.cut (some ((a + 1 : Nat) : Int))] := by
  simp [numbered]

/-- Rows of numbers that follow one another are one row. -/
theorem numbered_append {a b c : Nat} (h : a ≤ b) (h' : b ≤ c) :
    numbered a b ++ numbered b c = numbered a c := by
  have hlen : c - a = b - a + (c - b) := by omega
  have hstart : b + 1 = a + 1 + (b - a) := by omega
  rw [numbered, numbered, numbered, ← map_append, hlen, hstart, range'_append_1]

/-! ## Operands -/

/-- What was put before the current statement between two moments of a walk takes all numbers that
were handed out, and nothing was put behind it. -/
def PutBefore (c c' : Cutter) : Prop :=
  c'.after = c.after ∧ ∃ ts, c'.before = c.before ++ ts ∧
    ts.flatMap marks = numbered c.states c'.states

theorem PutBefore.refl (c : Cutter) : PutBefore c c := ⟨rfl, [], by simp, by simp⟩

theorem PutBefore.trans {c₂ : Cutter} (h : PutBefore c c₁) (h' : PutBefore c₁ c₂) (hl : Later c c₁)
    (hl' : Later c₁ c₂) : PutBefore c c₂ := by
  obtain ⟨ha, ts, hb, hts⟩ := h
  obtain ⟨ha', ts', hb', hts'⟩ := h'
  refine ⟨ha'.trans ha, ts ++ ts', by rw [hb', hb, append_assoc], ?_⟩
  rw [flatMap_append, hts, hts', numbered_append hl.states hl'.states]

theorem marks_insert (hn : n.mark? = none) : (t.insertAt 0 r (.mk n [])).marks = t.marks := by
  obtain ⟨m, cs⟩ := t
  simp [insertAt, marks, marks.go, node, Tree.children, hn]

theorem marks_withMachine {id : NodeId} :
    (withMachine id (.mk n [(.argumentList, .mk a as)])).marks =
      (mk n [(.argumentList, .mk a as)]).marks := by
  have hins := marks_insert (t := .mk a as) (r := .arguments)
    (n := .blank id .machineArgument n.origin) rfl
  simp only [withMachine, mapRole, List.map, marks, marks.go, if_true]
  rw [← marks]
  exact congrArg _ (congrArg (· ++ []) hins)

theorem marks_single_eq_nil_iff :
    (mk n [(r, t)]).marks = [] ↔ n.mark? = none ∧ t.marks = [] := by
  simp [marks, marks.go]

theorem marks_call_eq_nil_iff :
    (mk n [(r, .mk a as)]).marks = [] ↔
      n.mark? = none ∧ a.mark? = none ∧ marks.go as = [] := by
  simp [marks, marks.go]

/-- A call that is taken out is a cut of its own, and it is put in front of the statement. -/
theorem putBefore_taken {stmt : Origin} (h : (mk n [(.argumentList, .mk a as)]).marks = []) :
    PutBefore c (c.cut 3 [takenOut c.log.nextId stmt (c.states + 1)
      (.mk n [(.argumentList, .mk a as)])] []) := by
  refine ⟨append_nil _, _, rfl, ?_⟩
  rw [flatMap_singleton, takenOut, marks, marks.go, marks_withMachine, h, marks.go]
  exact (numbered_succ c.states).symm

mutual

/-- An operand has no marks in the end. Those of the calls that were taken out of it stand in front
of the statement. -/
theorem CutsOperand.marks {stmt : Origin} {c c' : Cutter} {t t' : Tree}
    (h : CutsOperand stmt c t t' c') (ht : t.marks = []) : PutBefore c c' ∧ t'.marks = [] :=
  match h with
  | .bare _ => ⟨.refl c, ht⟩
  | .use _ => ⟨⟨rfl, [], by simp, by simp⟩, ht⟩
  | .inner hk h => by
    obtain ⟨hn, hcs⟩ := marks_eq_nil_iff.mp ht
    obtain ⟨hput, hcs'⟩ := h.marks hcs
    exact ⟨hput, marks_eq_nil_iff.mpr ⟨hn, hcs'⟩⟩
  | .call hk ha h hm => by
    obtain ⟨hn, ha', has⟩ := marks_call_eq_nil_iff.mp ht
    obtain ⟨hput, has'⟩ := h.marks has
    exact ⟨hput, marks_call_eq_nil_iff.mpr ⟨hn, ha', has'⟩⟩
  | .taken hk ha h hm => by
    obtain ⟨hn, ha', has⟩ := marks_call_eq_nil_iff.mp ht
    obtain ⟨hput, has'⟩ := h.marks has
    refine ⟨hput.trans ?_ h.later (later_cut _ _ _ _), rfl⟩
    exact putBefore_taken (marks_call_eq_nil_iff.mpr ⟨hn, ha', has'⟩)

theorem CutsOperands.marks {stmt : Origin} {c c' : Cutter} {cs cs' : Children}
    (h : CutsOperands stmt c cs cs' c') (hcs : marks.go cs = []) :
    PutBefore c c' ∧ marks.go cs' = [] :=
  match h with
  | .nil => ⟨.refl c, rfl⟩
  | .cons h hs => by
    rw [marks.go, append_eq_nil_iff] at hcs
    obtain ⟨hput, ht'⟩ := h.marks hcs.1
    obtain ⟨hput', hcs'⟩ := hs.marks hcs.2
    exact ⟨hput.trans hput' h.later hs.later, by rw [marks.go, ht', hcs']; rfl⟩

end

/-! ## Statements -/

/-- What a statement became, with what was put next to it, takes all numbers that were handed
out. -/
def PutAround (c : Cutter) (t : Tree) (c' : Cutter) : Prop :=
  ∃ before after, c'.before = c.before ++ before ∧ c'.after = c.after ++ after ∧
    (before ++ t :: after).flatMap marks = numbered c.states c'.states

/-- Nothing is put next to a statement with blocks from inside them. -/
def PutInside (c : Cutter) (cs : Children) (c' : Cutter) : Prop :=
  c'.before = c.before ∧ c'.after = c.after ∧ marks.go cs = numbered c.states c'.states

/-- What the operands put in front of a statement comes before all other marks of it. -/
theorem PutBefore.around (h : PutBefore c c₁) (h' : PutAround c₁ t c') (hl : Later c c₁)
    (hl' : Later c₁ c') : PutAround c t c' := by
  obtain ⟨ha, ts, hb, hts⟩ := h
  obtain ⟨before, after, hb', ha', hm⟩ := h'
  refine ⟨ts ++ before, after, by rw [hb', hb, append_assoc], by rw [ha', ha], ?_⟩
  rw [append_assoc, flatMap_append, hts, hm, numbered_append hl.states hl'.states]

theorem putAround_self (ht : t.marks = []) : PutAround c t c :=
  ⟨[], [], by simp, by simp, by simp [ht]⟩

theorem putAround_paused (ht : t.marks = []) : PutAround c t (paused o c) := by
  unfold paused
  split
  · refine ⟨[], _, rfl, rfl, ?_⟩
    rw [nil_append, flatMap_cons, ht]
    exact (numbered_succ c.states).symm
  · exact putAround_self ht

theorem putAround_surrounded (ht : t.marks = []) : PutAround c t (surrounded o c) := by
  refine ⟨_, _, rfl, rfl, ?_⟩
  rw [flatMap_append, flatMap_cons, flatMap_cons, ht]
  exact (numbered_succ c.states).symm

theorem mark?_waitNode (h : WaitNode c n m w) :
    w.mark? = some (.cut (some ((c.states + 1 : Nat) : Int))) := by
  cases h <;> rfl

theorem putAround_waited (hw : WaitNode c n m w) (hcs : marks.go cs = []) :
    PutAround c (.mk w cs) (waited n.id m.id c) := by
  refine ⟨[], [], rfl, rfl, ?_⟩
  rw [nil_append, flatMap_singleton, marks, mark?_waitNode hw, hcs]
  exact (numbered_succ c.states).symm

theorem putAround_wasReset (ht : t.marks = []) : PutAround c t (wasReset o c) := by
  unfold wasReset
  split
  · exact putAround_self ht
  · refine ⟨_, [], rfl, rfl, ?_⟩
    rw [flatMap_append, flatMap_singleton marks t, ht]
    exact (numbered_self _).symm

theorem putAround_compound {ops blocks : Children} (h : PutInside c blocks c') (hn : n.mark? = none)
    (hops : marks.go ops = []) : PutAround c (.mk n (ops ++ blocks)) c' := by
  obtain ⟨hb, ha, hm⟩ := h
  refine ⟨[], [], by rw [hb, append_nil], by rw [ha, append_nil], ?_⟩
  rw [nil_append, flatMap_singleton, marks, hn, marks_go_append, hops, hm]
  rfl

mutual

/-- The cuts before, in and behind a statement have the numbers of the states found in it. -/
theorem CutsStatement.marks {c c' : Cutter} {t t' : Tree} (h : CutsStatement c t t' c')
    (ht : t.marks = []) : PutAround c t' c' :=
  -- One case for each rule. What was put next to the statement decides, as its operands have no
  -- marks.
  match h with
  | .nop _ => putAround_self ht
  | .block hk h => by
    obtain ⟨hn, hcs⟩ := marks_eq_nil_iff.mp ht
    have hblock := putAround_compound (h.marks hcs) hn (show marks.go [] = [] from rfl)
    exact hblock
  | .declaration hk hp hm h => by
    obtain ⟨hn, hcs⟩ := marks_eq_nil_iff.mp ht
    obtain ⟨hput, hcs'⟩ := h.marks hcs
    exact hput.around (putAround_paused (marks_eq_nil_iff.mpr ⟨hn, hcs'⟩))
      ((later_persistence _ _).trans h.later) (later_paused _ _)
  | .machineDeclaration hk hp hcall ha hm h => by
    obtain ⟨hn, hcs⟩ := marks_eq_nil_iff.mp ht
    simp only [marks.go, append_nil, append_eq_nil_iff] at hcs
    obtain ⟨htype, hinit⟩ := hcs
    obtain ⟨hm', ha', has⟩ := marks_call_eq_nil_iff.mp hinit
    obtain ⟨hput, has'⟩ := h.marks has
    refine hput.around (putAround_surrounded ?_) ((later_persistence _ _).trans h.later)
      (later_cut _ _ _ _)
    rw [marks_eq_nil_iff]
    simp only [marks.go, append_nil, append_eq_nil_iff, marks_withMachine]
    exact ⟨hn, htype, marks_call_eq_nil_iff.mpr ⟨hm', ha', has'⟩⟩
  | .expression hk h => by
    obtain ⟨hn, hcs⟩ := marks_eq_nil_iff.mp ht
    obtain ⟨hput, hcs'⟩ := h.marks hcs
    exact hput.around (putAround_paused (marks_eq_nil_iff.mpr ⟨hn, hcs'⟩)) h.later
      (later_paused _ _)
  | .call hk hcall ha h hm hb => by
    obtain ⟨hn, hcs⟩ := marks_single_eq_nil_iff.mp ht
    obtain ⟨hm', ha', has⟩ := marks_call_eq_nil_iff.mp hcs
    obtain ⟨hput, has'⟩ := h.marks has
    refine hput.around (putAround_paused ?_) h.later (later_paused _ _)
    exact marks_single_eq_nil_iff.mpr ⟨hn, marks_call_eq_nil_iff.mpr ⟨hm', ha', has'⟩⟩
  | .machineCall hk hcall ha h hm => by
    obtain ⟨hn, hcs⟩ := marks_single_eq_nil_iff.mp ht
    obtain ⟨hm', ha', has⟩ := marks_call_eq_nil_iff.mp hcs
    obtain ⟨hput, has'⟩ := h.marks has
    refine hput.around (putAround_surrounded (marks_single_eq_nil_iff.mpr ⟨hn, ?_⟩)) h.later
      (later_cut _ _ _ _)
    rw [marks_withMachine]
    exact marks_call_eq_nil_iff.mpr ⟨hm', ha', has'⟩
  | .wait hk hcall ha h hm hb hw => by
    obtain ⟨-, hcs⟩ := marks_single_eq_nil_iff.mp ht
    obtain ⟨-, ha', has⟩ := marks_call_eq_nil_iff.mp hcs
    obtain ⟨hput, has'⟩ := h.marks has
    refine hput.around (putAround_waited hw ?_) h.later (later_waited _ _ _)
    rw [marks.go, marks, ha', has']
    rfl
  | .branch hk h₁ h₂ => by
    obtain ⟨hn, hcs⟩ := marks_eq_nil_iff.mp ht
    rw [marks_go_append, append_eq_nil_iff] at hcs
    obtain ⟨hput, hops'⟩ := h₁.marks hcs.1
    exact hput.around (putAround_compound (h₂.marks hcs.2) hn hops') h₁.later h₂.later
  | .loop hk h₁ h₂ hp => by
    obtain ⟨hn, hcs⟩ := marks_eq_nil_iff.mp ht
    rw [marks_go_append, append_eq_nil_iff] at hcs
    obtain ⟨hput, hops'⟩ := h₁.marks hcs.1
    exact hput.around (putAround_compound (h₂.marks hcs.2) hn hops')
      ((later_persistence _ _).trans h₁.later) (h₂.later.trans (later_persistence _ _))
  | .leave hk h => by
    obtain ⟨hn, hcs⟩ := marks_eq_nil_iff.mp ht
    obtain ⟨hput, hcs'⟩ := h.marks hcs
    exact hput.around (putAround_wasReset (marks_eq_nil_iff.mpr ⟨hn, hcs'⟩)) h.later
      (later_wasReset _ _)

theorem CutsStatements.marks {c c' : Cutter} {cs cs' : Children}
    (h : CutsStatements c cs cs' c') (hcs : marks.go cs = []) : PutInside c cs' c' :=
  match h with
  | .nil => ⟨rfl, rfl, by simp [marks.go]⟩
  | .cons h hs => by
    rw [marks.go, append_eq_nil_iff] at hcs
    obtain ⟨bef, aft, hb, ha, hm⟩ := h.marks hcs.1
    obtain ⟨hb', ha', hm'⟩ := hs.marks hcs.2
    refine ⟨hb', ha', ?_⟩
    rw [marks_go_append, marks_go_map, hb, ha, hm']
    simp only [nil_append]
    rw [hm]
    exact numbered_append h.later.states hs.later.states

theorem CutsBlocks.marks {c c' : Cutter} {cs cs' : Children} (h : CutsBlocks c cs cs' c')
    (hcs : marks.go cs = []) : PutInside c cs' c' :=
  match h with
  | .nil => ⟨rfl, rfl, by simp [marks.go]⟩
  | .cons hk h hs => by
    rw [marks.go, append_eq_nil_iff] at hcs
    obtain ⟨hn, hcs₁⟩ := marks_eq_nil_iff.mp hcs.1
    obtain ⟨hb, ha, hm⟩ := h.marks hcs₁
    obtain ⟨hb', ha', hm'⟩ := hs.marks hcs.2
    refine ⟨hb'.trans hb, ha'.trans ha, ?_⟩
    rw [marks.go, marks, hn, hm, hm']
    exact numbered_append h.later.states hs.later.states

end

/-! ## Functions -/

theorem mark?_first (h : FirstNode f main n) : n.mark? = none := by
  cases h <;> rfl

theorem marks_go_last {source body : Tree} {last : Children}
    (h : LastNodes source body main last) : marks.go last = [] := by
  cases h <;> rfl

theorem mark?_rename (names : List (NodeId × Option String)) (n : Node) :
    (match names.lookup n.id with
      | some name => n.setText .name name
      | none => n).mark? = n.mark? := by
  split <;> rfl

theorem marks_function (hn : n.mark? = none) (hd : d.marks = []) (hb : b.mark? = none) :
    (mk n [(.declaration, d), (.body, .mk b cs)]).marks = marks.go cs := by
  simp [marks, marks.go, hn, hd, hb]

theorem marks_function_eq_nil_iff :
    (mk n [(.declaration, d), (.body, .mk b cs)]).marks = [] ↔
      n.mark? = none ∧ d.marks = [] ∧ b.mark? = none ∧ marks.go cs = [] := by
  simp [marks, marks.go]

theorem marks_withDispatch {first : Node} {id : NodeId} {skip : Nat} {rest : Children}
    (hfirst : first.mark? = none) (hcs : marks.go (cs.take skip) = []) :
    marks.go (withDispatch first (dispatchNode id o c.states main) skip cs rest) =
      .dispatch (some (c.states : Int)) :: marks.go rest := by
  rw [withDispatch, marks.go, marks, hfirst, marks_go_append, hcs]
  rfl

/-- The marks of a function: its dispatch, and behind it the cuts from the first one to the last. -/
theorem CutsFunction.marks (h : CutsFunction main c f f' c') (hf : f.marks = []) :
    ∃ n : Nat, f'.marks = if n = 0 then [] else .dispatch (some (n : Int)) :: numbered 0 n := by
  cases h with
  | rejected hmain hb ho => exact ⟨0, hf⟩
  | @stateless _ n b d cs rest skip hb hskip h hs =>
    obtain ⟨hn, hd, hb', hcs⟩ := marks_function_eq_nil_iff.mp hf
    rw [← take_append_drop skip cs, marks_go_append, append_eq_nil_iff] at hcs
    obtain ⟨-, -, hm⟩ := h.marks hcs.2
    refine ⟨0, ?_⟩
    rw [marks_function hn hd hb', marks_go_append, hcs.1, hm, hs]
    rfl
  | @machine c₁ _ n b first d cs rest last skip o names hb hskip h hs hfirst hnames hm hlast =>
    obtain ⟨hn, hd, hb', hcs⟩ := marks_function_eq_nil_iff.mp hf
    rw [← take_append_drop skip cs, marks_go_append, append_eq_nil_iff] at hcs
    obtain ⟨-, -, hmarks⟩ := h.marks hcs.2
    have hb'' : (rename names (.mk b [])).node.mark? = none := (mark?_rename names b).trans hb'
    -- The dispatch stands before the labels; renaming changes neither.
    refine ⟨c₁.states, ?_⟩
    rw [if_neg hs, marks_function hn hd hb'', marks_go_append, marks_go_last hlast,
      append_nil]
    refine (marks_mapNodes_go (mark?_rename names) _).trans ?_
    rw [marks_withDispatch (mark?_first hfirst) hcs.1, hmarks]

/-- Whatever its name, a function is numbered without gaps behind its dispatch, or has neither
dispatch nor cut. -/
theorem CutsDefinition.marks (h : CutsDefinition c f f' c') (hf : f.marks = []) :
    ∃ n : Nat, f'.marks = if n = 0 then [] else .dispatch (some (n : Int)) :: numbered 0 n := by
  cases h with
  | unnamed | setUp => exact ⟨0, hf⟩
  | starter hb hfirst =>
    obtain ⟨hn, hd, hb', hcs⟩ := marks_function_eq_nil_iff.mp hf
    refine ⟨0, ?_⟩
    rw [marks_function hn hd hb', marks.go, hcs]
    cases hfirst <;> rfl
  | function h => exact h.marks hf

end Cutting

end Resumable
