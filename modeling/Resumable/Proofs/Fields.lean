import Resumable.Proofs.Compiled
import Resumable.Proofs.Definitions
import Resumable.Proofs.Entries
import Resumable.Proofs.Kept

/-!
# The fields of a machine

The variables of a function that outlive its states become fields of a structure. The header
declares them, and the code of the function uses them, both under the names that were chosen when
the function was cut. The two texts are printed from one tree at different times, so what is said
here is that they agree.

* `Cutting.CutsTree.prints`: the text of each function stands in the code.
* `Scene.agrees_of_furnished`: a variable that is kept is declared in the header as the code uses
  it.
* `Compilation.fields_agree`: so it is for all machines of an accepted compilation.
-/

namespace Resumable

open List Resumable.Tree

variable {c start : Compilation} {f f' src : Tree} {m : Machine} {cs : Children} {ps : List Part}
  {n : Node} {rq : Request}

/-! ## What printing knows -/

namespace Scene

variable {s s' s'' : Scene}

/-- The root was visited, so that the machines are known. -/
def Visited (s : Scene) : Prop := s.known = some s.machines

/-- Scenes that differ at most in the function that is being printed. -/
structure Alike (s s' : Scene) : Prop where
  product : s'.product = s.product
  index : s'.index = s.index
  machines : s'.machines = s.machines
  known : s'.known = s.known

theorem Alike.refl (s : Scene) : s.Alike s := ⟨rfl, rfl, rfl, rfl⟩

theorem Alike.trans (h : s.Alike s') (h' : s'.Alike s'') : s.Alike s'' :=
  ⟨h'.product.trans h.product, h'.index.trans h.index, h'.machines.trans h.machines,
    h'.known.trans h.known⟩

theorem Alike.visited (h : s.Alike s') (hs : s.Visited) : s'.Visited := by
  rw [Visited, h.known, h.machines]
  exact hs

theorem alike_entering (s : Scene) (t : Tree) : s.Alike (s.entering t) := ⟨rfl, rfl, rfl, rfl⟩

/-- Printing the part leaves what is known about the program. -/
def Part.Keeps (p : Part) : Prop := ∀ s : Scene, s.Visited → s.Alike (p.entries s).2

theorem all_alike (hps : ∀ p ∈ ps, p.Keeps) (hs : s.Visited) : s.Alike (all ps s).2 := by
  induction ps generalizing s with
  | nil => exact .refl s
  | cons p ps ih =>
    obtain ⟨hp, hps⟩ := forall_mem_cons.mp hps
    have hhead := hp s hs
    exact hhead.trans (ih hps (hhead.visited hs))

theorem inRole_alike (hps : ∀ p ∈ ps, p.Keeps) (r : Role) (hs : s.Visited) :
    s.Alike (inRole ps r s).2 :=
  all_alike (fun p hp => hps p (mem_of_mem_filter hp)) hs

/-- Printing a node leaves what is known about the program. -/
theorem rule_alike (parent : Option Kind) (t : Tree) (hps : ∀ p ∈ ps, p.Keeps) (hs : s.Visited) :
    s.Alike (s.rule parent t ps).2 := by
  have hall := all_alike hps hs
  have hin := fun r => inRole_alike hps r hs
  have hroot : s.Alike { s with known := some s.machines } := ⟨rfl, rfl, rfl, hs.symm⟩
  unfold rule
  dsimp only
  split
  -- The top is where the machines get known.
  case h_1 =>
    split
    · exact hroot.trans (inRole_alike hps _ rfl)
    · exact .refl s
    · exact hin _
  all_goals first
    | exact .refl s
    | exact hall
    | exact hin _
    | exact alike_entering s t
    | skip
  all_goals split
  all_goals first
    | exact .refl s
    | exact hall
    | exact hin _
    | exact (hin _).trans (inRole_alike hps _ ((hin _).visited hs))

theorem entries_go_eq_map (parent : Option Kind) (cs : Children) :
    entries.go parent cs = cs.map fun p => ⟨p.1, entries parent p.2⟩ :=
  Tree.eq_map rfl (fun _ _ _ => rfl) cs

theorem entries_alike (parent : Option Kind) (t : Tree) (hs : s.Visited) :
    s.Alike (entries parent t s).2 := by
  induction t using ofChildren generalizing parent s with
  | step n cs ih =>
    rw [entries, entries_go_eq_map]
    refine rule_alike parent _ (fun p hp => ?_) hs
    obtain ⟨q, hq, rfl⟩ := mem_map.mp hp
    exact fun s' hs' => ih q hq _ hs'

/-- The entries of a part stand among those of the tree. -/
def Stands (s : Scene) (parent : Option Kind) (t f : Tree) : Prop :=
  ∃ parent' s', s.Alike s' ∧ (entries parent' f s').1 <:+: (entries parent t s).1

end Scene

/-! ## Where functions stand in the code -/

namespace Kind

/-- Whether functions may stand below a node of this kind. -/
def holdsFunctions (k : Kind) : Bool :=
  k ∈ [.declarationList, .argumentDeclList, .pluginSource, .functionDefinition]

theorem holdsFunctions_of_isA {k allowed : Kind} (h : k.isA allowed = true)
    (ha : allowed ∈ [.statement, .statementList, .expression, .typeRef, .argumentList]) :
    k.holdsFunctions = false := by
  have hall : [Kind.statement, .statementList, .expression, .typeRef, .argumentList].any k.isA =
      true := any_eq_true.mpr ⟨allowed, ha, h⟩
  clear h ha
  revert hall
  cases k <;> decide

end Kind

/-- A cast, or a node with words of the text. -/
def Node.Settled (T : TokenKind → String → Prop) (n : Node) : Prop :=
  n.kind = .trivialCast ∨ n.Worded T

theorem Node.Settled.slots {T : TokenKind → String → Prop} (h : n.Settled T)
    (hholds : n.kind.holdsFunctions = false) (hs : Cutting.shut n.kind = false) :
    ∀ p ∈ n.kind.slots,
      p.allowed ∈ [.statement, .statementList, .expression, .typeRef, .argumentList] := by
  unfold Settled Worded at h
  cases hk : n.kind
  all_goals
    simp only [hk] at h hholds hs ⊢
    first
      | decide
      | exact absurd h (by decide)
      | exact absurd hholds (by decide)
      | exact absurd hs (by decide)

namespace Cutting

variable {T : TokenKind → String → Prop}

theorem mem_of_mem_go {b : Bool} (h : f ∈ definitions.go b cs) :
    ∃ p ∈ cs, (b = true → p.1 = .source) ∧ f ∈ definitions p.2 := by
  induction cs with
  | nil => cases h
  | cons p cs ih =>
    rw [definitions.go] at h
    rcases mem_append.mp h with h | h
    · split at h
      · cases h
      · next hskip => exact ⟨p, mem_cons_self, by simpa using hskip, h⟩
    · obtain ⟨q, hq, hf⟩ := ih h
      exact ⟨q, mem_cons_of_mem _ hq, hf⟩

/-- Below other nodes there are no functions. -/
theorem definitions_eq_nil {t : Tree} (hu : t.uncut = true)
    (ht : ∀ s ∈ t.subtrees, s.node.Settled T) (hholds : t.kind.holdsFunctions = false) :
    definitions t = [] := by
  induction t using ofChildren with
  | step n cs ih =>
    by_cases hs : shut n.kind = true
    · exact definitions_shut hs
    · have hk : n.kind ≠ .functionDefinition := fun hk => by
        rw [kind, node, hk] at hholds
        cases hholds
      have hslots := (ht _ (mem_subtrees_self _)).slots hholds (Bool.eq_false_iff.mpr hs)
      -- The slots of such a node allow no declarations.
      have hcs : ∀ p ∈ cs, definitions p.2 = [] := by
        intro p hp
        obtain ⟨slot, hslot, -, hallowed⟩ := fills_mem (uncut_fills hu) p hp
        exact ih p hp (uncut_child hu hp)
          (fun s hs => ht s (mem_subtrees_trans hs (mem_subtrees_child (t := .mk n cs) hp)))
          (Kind.holdsFunctions_of_isA hallowed (hslots slot hslot))
      rw [definitions_inner hk (Bool.eq_false_iff.mpr hs)]
      refine eq_nil_iff_forall_not_mem.mpr fun f hf => ?_
      obtain ⟨p, hp, -, hf⟩ := mem_of_mem_go hf
      rw [hcs p hp] at hf
      cases hf

theorem stands_of_part (parent : Option Kind) {p : Role × Tree} (hp : p ∈ cs)
    (h : ∀ s : Scene, s.Visited → s.Stands parent p.2 f) {s : Scene} (hs : s.Visited) :
    ∃ parent' s', s.Alike s' ∧
      (Scene.entries parent' f s').1 <:+: (Scene.all (Scene.entries.go parent cs) s).1 := by
  induction cs generalizing s with
  | nil => cases hp
  | cons q cs ih =>
    rw [Scene.entries.go, Scene.all]
    rcases mem_cons.mp hp with rfl | hp
    · obtain ⟨parent', s', halike, hinfix⟩ := h s hs
      exact ⟨parent', s', halike, hinfix.trans (infix_append' [] _ _)⟩
    · have halike := Scene.entries_alike parent q.2 hs
      obtain ⟨parent', s', halike', hinfix⟩ := ih hp (halike.visited hs)
      exact ⟨parent', s', halike.trans halike', hinfix.trans (suffix_append _ _).isInfix⟩

theorem infix_of_holdsFunctions (hk : n.kind ≠ .functionDefinition)
    (h : n.kind.holdsFunctions = true) (parent : Option Kind) (s : Scene) :
    (Scene.all (Scene.entries.go (some n.kind) cs) s).1 <:+:
      (Scene.entries parent (.mk n cs) s).1 := by
  rw [Scene.entries]
  generalize Scene.entries.go (some n.kind) cs = parts
  simp only [Kind.holdsFunctions, mem_cons, not_mem_nil, or_false,
    decide_eq_true_eq] at h
  unfold Scene.rule
  dsimp only [node]
  rcases h with h | h | h | h
  · simp only [h]
    exact infix_rfl
  · simp only [h]
    exact infix_rfl
  · simp only [h]
    exact infix_append _ _ _
  · exact absurd h hk

mutual

/-- Every function of a tree is printed with it. -/
theorem CutsTree.prints : ∀ {c c' : Cutter} {t t' : Tree}, CutsTree c t t' c' →
    t.uncut = true → (∀ s ∈ t.subtrees, s.node.Settled T) → ∀ f ∈ definitions t',
      ∀ (parent : Option Kind) {s : Scene}, s.Visited → s.Stands parent t' f
  | _, _, t, t', .definition hk h, _, _, f, hf, parent, s, _ => by
    have hk' : t'.kind = .functionDefinition := by rw [kind, h.node.1]; exact hk
    rw [definitions_function hk'] at hf
    rw [mem_singleton.mp hf]
    exact ⟨parent, s, .refl s, infix_rfl⟩
  | _, _, _, _, .shut hk, _, _, f, hf, _, _, _ => by
    rw [definitions_shut hk] at hf
    cases hf
  | c, c', .mk n cs, .mk _ cs', .inner hk hs h, hu, ht, f, hf, parent, s, hvisited => by
    -- A node that may hold functions prints all its children; below any other there are none.
    by_cases hholds : n.kind.holdsFunctions = true
    · have hroot : n.kind ≠ .root := fun hroot => by
        rw [hroot] at hholds
        cases hholds
      rw [definitions_inner hk hs, decide_eq_false hroot] at hf
      rw [decide_eq_false hroot] at h
      obtain ⟨p, hp, hstands⟩ := h.prints rfl (fun p hp => uncut_child hu hp)
        (fun p hp s hs => ht s (mem_subtrees_trans hs (mem_subtrees_child (t := .mk n cs) hp))) f hf
      obtain ⟨parent', s', halike, hinfix⟩ :=
        stands_of_part (some n.kind) hp (fun s hs => hstands _ hs) hvisited
      exact ⟨parent', s', halike, hinfix.trans (infix_of_holdsFunctions hk hholds parent s)⟩
    · have hnil : definitions (.mk n cs) = [] :=
        definitions_eq_nil hu ht (Bool.eq_false_iff.mpr hholds)
      have hdefines := (CutsTree.inner hk hs h).defines
      rw [hnil] at hdefines
      generalize definitions (.mk n cs') = fs at hdefines hf
      cases hdefines
      cases hf

theorem CutsTrees.prints : ∀ {b : Bool} {c c' : Cutter} {cs cs' : Children},
    CutsTrees b c cs cs' c' → b = false → (∀ p ∈ cs, p.2.uncut = true) →
      (∀ p ∈ cs, ∀ s ∈ p.2.subtrees, s.node.Settled T) → ∀ f ∈ definitions.go b cs',
        ∃ p ∈ cs', ∀ (parent : Option Kind) {s : Scene}, s.Visited → s.Stands parent p.2 f
  | _, _, _, _, _, .nil, _, _, _, f, hf => by cases hf
  | _, _, _, _, _, .skip _ _, hb, _, _, _, _ => by cases hb
  | _, _, _, _, _, @CutsTrees.cons _ _ _ _ r _ t' _ _ hr h hcs, hb, hu, ht, f, hf => by
    subst hb
    obtain ⟨hhead, hu⟩ := forall_mem_cons.mp hu
    obtain ⟨hhead', ht⟩ := forall_mem_cons.mp ht
    rw [definitions.go] at hf
    rcases mem_append.mp hf with hf | hf
    · exact ⟨(r, t'), mem_cons_self, h.prints hhead hhead' f hf⟩
    · obtain ⟨p, hp, hstands⟩ := hcs.prints rfl hu ht f hf
      exact ⟨p, mem_cons_of_mem _ hp, hstands⟩

end

/-! ## Machines and their functions -/

/-- A function has one machine. -/
theorem DefinesCleanly.nodup_machines {c c' : Cutter} (h : DefinesCleanly c f f' c')
    (hc : (c.machines.list.map (·.function)).Nodup) :
    (c'.machines.list.map (·.function)).Nodup := by
  cases h with
  | unnamed hn | setUp hn hd hv => exact hc
  | starter hn hv hb hfirst hfailed hgrows => exact hc
  | function hn hd hv h =>
    cases h.cuts with
    | rejected hmain hb ho =>
      rw [h.ends hmain _ hb] at ho
      cases ho
    | stateless hb hskip hwalk hs =>
      have hlater := hwalk.later.machines
      rw [hlater]
      exact hc
    | @machine c₁ _ n b first d' cs rest last skip o names' hb hskip hwalk hs hfirst hnames hm
        hlast =>
      -- A machine is only added if the function has none.
      obtain ⟨struct, hnone, hadd⟩ := add_inv hm
      have hlater : c₁.machines = c.machines := hwalk.later.machines
      rw [hlater] at hadd hnone
      rw [hadd, map_append, nodup_append']
      refine ⟨hc, nodup_singleton _, ?_⟩
      rw [map_singleton, disjoint_singleton]
      intro hmem
      obtain ⟨m, hm, hfun⟩ := mem_map.mp hmem
      have hstates := hasStates_iff.mpr ⟨m, hm, congrArg some hfun⟩
      rw [hstates] at hnone
      cases hnone

theorem DefinesAll.nodup_machines {c c' : Cutter} {fs fs' : List Tree} (h : DefinesAll c fs fs' c')
    (hc : (c.machines.list.map (·.function)).Nodup) :
    (c'.machines.list.map (·.function)).Nodup := by
  induction h with
  | nil => exact hc
  | cons h hs ih => exact ih (h.nodup_machines hc)

end Cutting

/-- The machine of a function is the one that is found. -/
theorem Machines.find?_of_mem {ms : Machines} (hnd : (ms.list.map (·.function)).Nodup)
    (hm : m ∈ ms.list) : ms.find? m.function = some m := by
  obtain ⟨before, behind, heq⟩ := append_of_mem hm
  rw [heq, map_append, map_cons, nodup_append'] at hnd
  rw [Machines.find?, heq, find?_append, find?_eq_none.mpr fun m' hm' => ?_]
  · simp
  · have hne : m'.function ≠ m.function := fun heq =>
      hnd.2.2 (mem_map.mpr ⟨m', hm', heq⟩) mem_cons_self
    simpa using hne

theorem Tree.get?_of_mem {t s : Tree} (hnd : t.ids.Nodup) (hs : s ∈ t.subtrees) :
    (IdMap.empty.addTree t).get? s.id = some s := by
  -- The tree is entered part by part; an entry that is made is not overwritten.
  have hfold : ∀ (ts : List Tree) (m : IdMap Tree), (ts.map id).Nodup →
      (s ∈ ts ∨ m.get? s.id = some s ∧ s.id ∉ ts.map id) →
        (ts.foldl (fun m s => m.insert s.id s) m).get? s.id = some s := by
    intro ts
    induction ts with
    | nil =>
      rintro m - (hs | ⟨hs, -⟩)
      · cases hs
      · exact hs
    | cons u ts ih =>
      intro m hnd h
      rw [map_cons, nodup_cons] at hnd
      refine ih _ hnd.2 ?_
      rcases h with h | ⟨hget, hne⟩
      · rcases mem_cons.mp h with rfl | h
        · exact .inr ⟨by rw [IdMap.get?_insert, if_pos rfl], hnd.1⟩
        · exact .inl h
      · rw [map_cons, mem_cons, not_or] at hne
        exact .inr ⟨by rw [IdMap.get?_insert, if_neg (Ne.symm hne.1), hget], hne.2⟩
  refine hfold t.subtrees _ ?_ (.inl hs)
  rw [map_id_subtrees]
  exact hnd

/-! ## Fields -/

namespace Scene

variable {s : Scene} {t : Tree} {name : String}

theorem textOf_name (h : t.node.text .name = .ok (some name)) :
    Entry.textOf t.node .name = [.piece name] := by
  rw [Entry.textOf, h]

/-- The field of a variable is its type and its name. -/
theorem field_of_name (hget : s.index.get? t.id = some t)
    (h : t.node.text .name = .ok (some name)) :
    s.field t.id = s.typeIn t .declaredType ++
      [.piece " ", .piece name, .piece ";", .stop t.origin false] := by
  rw [field, hget]
  simp [typed, textOf_name h]

/-- In the code the declaration of a variable that is kept is at most an assignment. -/
theorem entries_of_kept (hm : s.machine = some m) (hv : t.id ∈ m.kept)
    (hk : t.kind = .variableDeclaration) (h : t.node.text .name = .ok (some name))
    (parent : Option Kind) :
    (entries parent t s).1 = if (t.child? .initializer).isSome then
      .piece "sa_state->" :: .piece name :: .piece " = " :: s.expressionIn t .initializer ++
        [.piece ";", .stop t.origin false] else [] := by
  have hout : s.printing.outlives t.id = true := by
    simp [Printing.outlives, printing, hm, hv]
  have hrule : (entries parent t s).1 = s.variableDeclaration t := by
    obtain ⟨n, cs⟩ := t
    have hn : n.kind = .variableDeclaration := hk
    rw [entries, rule]
    simp only [node, hn]
  rw [hrule, variableDeclaration, if_pos hout, textOf_name h]
  simp

/-- In the code a variable that is kept is a field of the state. -/
theorem bare_of_kept (hm : s.machine = some m) {u : Tree} (hget : s.index.get? t.id = some t)
    (hv : t.id ∈ m.kept) (h : t.node.text .name = .ok (some name)) (hk : u.kind = .variableUse)
    (hlink : u.node.link? .declaration = some t.id) :
    s.printing.bare u = .ok ["(sa_state->" ++ name ++ ")"] := by
  have hout : s.printing.outlives t.id = true := by
    simp [Printing.outlives, printing, hm, hv]
  have htarget : s.printing.target u.node .declaration = some t := by
    rw [Printing.target, hlink]
    exact hget
  obtain ⟨n, cs⟩ := u
  have hn : n.kind = .variableUse := hk
  have hbare : s.printing.bare (.mk n cs) = s.printing.variableUse n := by
    rw [Printing.bare]
    simp only [hn]
  rw [hbare, Printing.variableUse]
  simp only [node] at htarget
  rw [htarget]
  simp only [hout, if_true, h]
  rfl

/-- A header and the code of a function agree on the variables that the machine of the function
keeps: each has a field in the structure, under its name, and what is printed in the function for
its declaration and for its uses names this field. -/
structure Agrees (header s : Scene) (m : Machine) (f : Tree) (names : List String) : Prop where
  machine : s.machine = some m
  distinct : ("sa_next" :: names).Nodup
  kept : m.kept.Nodup
  length : names.length = m.kept.length
  fields : ∀ v name, (v, name) ∈ m.kept.zip names → ∃ t ∈ f.subtrees, t.id = v ∧
    t.kind = .variableDeclaration ∧ header.field v = header.typeIn t .declaredType ++
      [.piece " ", .piece name, .piece ";", .stop t.origin false]
  declarations : ∀ t ∈ f.subtrees, t.kind = .variableDeclaration →
    ∀ name, (t.id, name) ∈ m.kept.zip names → ∀ parent,
      (entries parent t s).1 = if (t.child? .initializer).isSome then
        .piece "sa_state->" :: .piece name :: .piece " = " :: s.expressionIn t .initializer ++
          [.piece ";", .stop t.origin false] else []
  uses : ∀ t ∈ f.subtrees, t.kind = .variableUse →
    ∀ v name, t.node.link? .declaration = some v → (v, name) ∈ m.kept.zip names →
      s.printing.bare t = .ok ["(sa_state->" ++ name ++ ")"]

/-- Header and code agree about the variables that a machine keeps. -/
theorem agrees_of_furnished {header : Scene} {whole : Tree} {originals names : List String}
    (h : m.Furnished f f' originals names) (hf : f.NamesVariables) (hnd : whole.ids.Nodup)
    (hmem : f' ∈ whole.subtrees) (hm : s.machine = some m)
    (hindex : s.index = IdMap.empty.addTree whole)
    (hheader : header.index = IdMap.empty.addTree whole) : Agrees header s m f' names := by
  have hlen : names.length = m.kept.length := h.behind.length_eq.symm
  have hreserved : ∀ name ∈ names, isReserved name = false := by
    refine h.renamed.not_reserved fun name hname => ?_
    obtain ⟨i, hi, rfl⟩ := mem_iff_getElem.mp hname
    obtain ⟨t, ht, -, hk, htext⟩ := h.before.get (h.before.length_eq ▸ hi) hi
    obtain ⟨name, hname, hfree⟩ := hf t ht hk
    rw [hname] at htext
    cases htext
    exact hfree
  have hnodup : names.Nodup := by simpa using h.renamed.nodup nodup_nil
  -- the declaration of a variable is the only node with its number
  have hdecl : ∀ v name, (v, name) ∈ m.kept.zip names → ∃ t ∈ f'.subtrees, t.id = v ∧
      t.kind = .variableDeclaration ∧ t.node.text .name = .ok (some name) := fun v name hzip =>
    (forall₂_iff_zip.mp h.behind).2 hzip
  have hget : ∀ t ∈ f'.subtrees, (IdMap.empty.addTree whole).get? t.id = some t := fun t ht =>
    get?_of_mem hnd (mem_subtrees_trans ht hmem)
  refine ⟨hm, nodup_cons.mpr ⟨fun hnext => ?_, hnodup⟩, h.nodup, hlen, ?_, ?_, ?_⟩
  · exact absurd (hreserved _ hnext) (by decide)
  · intro v name hzip
    obtain ⟨t, ht, rfl, hk, htext⟩ := hdecl v name hzip
    exact ⟨t, ht, rfl, hk, field_of_name (hheader ▸ hget t ht) htext⟩
  · intro t ht hk name hzip
    obtain ⟨t', ht', hid, -, htext⟩ := hdecl _ name hzip
    obtain rfl : t' = t := Option.some.inj ((hget t' ht').symm.trans (hid ▸ hget t ht))
    exact entries_of_kept hm (of_mem_zip hzip).1 hk htext
  · intro u hu hk v name hlink hzip
    obtain ⟨t, ht, rfl, -, htext⟩ := hdecl v name hzip
    exact bare_of_kept hm (hindex ▸ hget t ht) (of_mem_zip hzip).1 htext hk hlink

end Scene

namespace Compilation

open Cutting

/-- What is known when a text of the compilation is printed. -/
def scene (c : Compilation) (product : Product) : Scene :=
  ⟨product, IdMap.empty.addTree c.tree, c.machines, none, none, none⟩

/-- The text is that of the entries of the tree. -/
theorem text_of_print {c' : Compilation} {product : Product} {file text : String}
    (h : print product file c = .ok text c') :
    (({ file := file } : Listing).enterAll (Scene.entries none c.tree (c.scene product)).1).text =
      .ok text := by
  unfold print at h
  dsimp only at h
  split at h
  · next p hp =>
    cases h
    exact Print.text_inv hp
  · cases h

theorem source_mem {s : Tree} (hs : c.source = some s) : (Role.source, s) ∈ c.tree.children := by
  simp [tree, Tree.children, hs]

theorem entries_code {s : Tree} (hroot : c.root.kind = .root) (hs : c.source = some s) :
    (Scene.entries none c.tree (c.scene .code)).1 = (Scene.entries (some .root) s
      { c.scene .code with known := some c.machines }).1 := by
  have hfilter : ∀ (r : Role) (t : Option Tree), r ≠ .source →
      ((t.map (r, ·)).toList.map fun p : Role × Tree =>
        (⟨p.1, Scene.entries (some .root) p.2⟩ : Scene.Part)).filter (·.role == .source) = [] := by
    intro r t hr
    cases t with
    | none => rfl
    | some t => simp [hr]
  rw [tree, Scene.entries, Scene.rule, Scene.entries_go_eq_map]
  simp only [node, hroot, scene, Scene.inRole, map_append, filter_append]
  rw [hfilter _ _ (by decide), hfilter _ _ (by decide), hfilter _ _ (by decide), hs]
  simp [Scene.all]

theorem entries_stateHeader (hroot : c.root.kind = .root) :
    (Scene.entries none c.tree (c.scene .stateHeader)).1 = (c.scene .stateHeader).stateHeader := by
  rw [tree, Scene.entries, Scene.rule]
  simp only [node, hroot, scene]

theorem Compiled.settled {resolved : Compilation} {out : Output}
    (h : Compiled rq src start resolved c out) :
    ∃ before, resolved.source = some before ∧
      ∀ u ∈ before.subtrees, u.node.Settled (Source.ofText rq.source).Spells := by
  obtain ⟨r, -, -, hsource⟩ := resolve_source h.sound h.passed h.resolves h.source h.worded
  refine ⟨_, hsource, fun u hu => ?_⟩
  rcases Resolution.mem_apply src u hu with hcast | ⟨v, hv, rfl⟩
  · exact .inl hcast
  · rw [Resolution.node_apply]
    exact .inr ((h.worded v hv).congr (Resolution.kind_linked _) (Resolution.texts_linked _))

/-- The source of a compilation before and after its functions are cut. -/
theorem Compiled.source_cut {resolved : Compilation} {out : Output}
    (h : Compiled rq src start resolved c out) :
    ∃ before after k, resolved.source = some before ∧ c.source = some after ∧
      (∀ u ∈ before.subtrees, u.node.Settled (Source.ofText rq.source).Spells) ∧
      before.uncut = true ∧ CutsTree (cutter rq resolved) before after k ∧
      k.machines = c.machines ∧ after.ids.Nodup := by
  obtain ⟨before, hbefore, hsettled⟩ := h.settled
  obtain ⟨hsound, hok, -⟩ := h.sound.resolve h.passed h.resolves
  obtain ⟨l, hcut⟩ := h.cuts
  obtain ⟨after, hafter⟩ := exists_source_of_cut hsound hok hcut hbefore
  obtain ⟨before', k, hbefore', huncut, hcuts, -, hms, hnd⟩ := cut_source hsound hok hcut hafter
  obtain rfl : before' = before := Option.some.inj (hbefore'.symm.trans hbefore)
  exact ⟨before', after, k, hbefore, hafter, hsettled, huncut, hcuts, hms, hnd⟩

theorem namesVariables_of_settled {T : TokenKind → String → Prop} {t : Tree}
    (h : ∀ u ∈ t.subtrees, u.node.Settled T) : t.NamesVariables := by
  intro u hu hk
  have hkind : u.node.kind = .variableDeclaration := hk
  rcases h u hu with hcast | hworded
  · rw [hkind] at hcast
    cases hcast
  · unfold Node.Worded at hworded
    simp only [hkind] at hworded
    obtain ⟨name, htext, -, hfree⟩ := hworded
    exact ⟨name, htext, hfree⟩

theorem function_parts {k k' : Cutter} (hu : f.uncut = true) (hk : f.kind = .functionDefinition)
    (h : DefinesCleanly k f f' k') :
    ∃ n d body, f' = .mk n [(.declaration, d), (.body, body)] ∧ n.kind = .functionDefinition ∧
      d.kind.isA .functionDecl = true := by
  obtain ⟨hnode, hdecl⟩ := h.node
  have hroles : f'.children.map (·.1) = f.children.map (·.1) :=
    (CutsTree.definition hk h).roles
  obtain ⟨n, ds⟩ := f
  obtain ⟨n', ds'⟩ := f'
  obtain rfl : n' = n := hnode
  obtain ⟨d, b, cs, rfl, -⟩ := uncut_function hu hk
  obtain ⟨⟨r₁, d'⟩, rest, rfl, hr₁, hrest⟩ := map_eq_cons_iff.mp hroles
  obtain ⟨⟨r₂, body⟩, rest, rfl, hr₂, hrest⟩ := map_eq_cons_iff.mp hrest
  obtain rfl := map_eq_nil_iff.mp hrest
  obtain rfl : r₁ = .declaration := hr₁
  obtain rfl : r₂ = .body := hr₂
  obtain rfl : d' = d := Option.some.inj hdecl
  exact ⟨n', d', body, rfl, hk, uncut_declared hu hk⟩

/-- The entries of a function are those of its head and of its body. -/
theorem entries_function {d body : Tree} (hn : n.kind = .functionDefinition)
    (hd : d.kind.isA .functionDecl = true) (parent : Option Kind) (s : Scene) :
    (Scene.entries parent (.mk n [(.declaration, d), (.body, body)]) s).1 =
      (s.entering d).functionDecl (some .functionDefinition) d ++
        (Scene.entries (some .functionDefinition) body (s.entering d)).1 := by
  have hhead : Scene.entries (some .functionDefinition) d s =
      ((s.entering d).functionDecl (some .functionDefinition) d, s.entering d) := by
    obtain ⟨m, cs⟩ := d
    rw [Scene.entries, Scene.rule]
    have hm : m.kind.isA .functionDecl = true := hd
    dsimp only [node]
    cases hk : m.kind
    all_goals first
      | rfl
      | (rw [hk] at hm; exact absurd hm (by decide))
  rw [Scene.entries, Scene.rule]
  simp [node, hn, Scene.entries.go, Scene.all, hhead]

/-- The header and the code of a compilation agree on the fields of every machine. -/
theorem fields_agree {rq : Request} {c : Compilation} {out : Output} (h : Accepted rq out c) :
    (∀ (vs : List NodeId) (names : List String), vs.length = names.length →
      ∃ names', Persistence.Renamed [] names names' ∧
        Persistence.distinct (Persistence.withNames vs names) =
          (Persistence.withNames vs names', none)) ∧
    ∃ src start resolved before after, Compiled rq src start resolved c out ∧
      resolved.source = some before ∧ c.source = some after ∧
      (({ file := rq.fileName } : Listing).enterAll (c.scene .stateHeader).stateHeader).text =
        .ok out.stateHeader ∧
      (({ file := rq.fileName } : Listing).enterAll
        (Scene.entries none c.tree (c.scene .code)).1).text = .ok out.code ∧
      ∀ m ∈ c.machines.list,
        (c.scene .stateHeader).machineStruct m <:+: (c.scene .stateHeader).stateHeader ∧
        ∃ f ∈ definitions before, ∃ f' ∈ definitions after, ∃ d body originals names s,
          f'.child? .declaration = some d ∧ f'.child? .body = some body ∧
          s.functionDecl (some .functionDefinition) d ++
            (Scene.entries (some .functionDefinition) body s).1 <:+:
              (Scene.entries none c.tree (c.scene .code)).1 ∧
          m.Furnished f f' originals names ∧
          Scene.Agrees (c.scene .stateHeader) s m f' names := by
  refine ⟨fun vs names hlen => Persistence.distinct_spec names hlen, ?_⟩
  obtain ⟨src, start, resolved, hc⟩ := h.compiled
  obtain ⟨before, after, k, hbefore, hafter, hsettled, huncut, hcuts, hms, hnd⟩ := hc.source_cut
  obtain ⟨hsound, hok, -⟩ := hc.sound.resolve hc.passed hc.resolves
  obtain ⟨l, hcut⟩ := hc.cuts
  obtain ⟨hacc, -, -, k', hcuts', -⟩ := cut_inv hsound hok hcut
  have hroot : c.root.kind = .root := hcuts'.kind.trans hsound.root
  have hdefines := hcuts.defines
  refine ⟨src, start, resolved, before, after, hc, hbefore, hafter, ?_, ?_, fun m hm => ⟨?_, ?_⟩⟩
  · obtain ⟨l₁, l₂, hheader⟩ := hc.header
    have htext := text_of_print hheader
    rwa [entries_stateHeader (c := { c with log := l₁ }) hroot] at htext
  · obtain ⟨l₁, l₂, hcode⟩ := hc.code
    have htext := text_of_print hcode
    exact htext
  · refine (List.infix_of_mem_flatten (List.mem_map_of_mem hm)).trans ?_
    rw [← List.flatMap_def]
    exact List.infix_append _ _ _
  · have hnames : ∀ f ∈ definitions before, f.NamesVariables := fun f hf =>
      namesVariables_of_settled fun u hu =>
        hsettled u (mem_subtrees_trans hu (mem_definitions before f hf).1)
    have hcutter : (cutter rq resolved).machines.list = [] := by
      rw [cutter, hsound.machines]
      rfl
    have hnd' : ∀ f' ∈ definitions after, f'.ids.Nodup := fun f' hf' =>
      nodup_subtree hnd (mem_definitions after f' hf').1
    have hm' : m ∈ k.machines.list := by rw [hms]; exact hm
    rcases hdefines.furnished hnames hnd' m hm' with hold | ⟨f, hf, f', hf', originals, names, hfur⟩
    · rw [hcutter] at hold
      cases hold
    -- the function that was cut, with its parts
    obtain ⟨earlier, later, hsplit⟩ := List.append_of_mem hf'
    obtain ⟨_, g, _, k₁, k₂, hg, -, hclean, -⟩ := DefinesAll.split (hsplit ▸ hdefines)
    obtain ⟨hgmem, hgk⟩ := mem_definitions before g (by rw [hg]; simp)
    obtain ⟨n, d, body, rfl, hn, hd⟩ := function_parts (uncut_subtree huncut hgmem) hgk hclean
    -- its place in the code, and the machine that is found there
    obtain ⟨parent, s, halike, hinfix⟩ := hcuts.prints huncut hsettled _ hf' (some .root)
      (s := { c.scene .code with known := some c.machines }) rfl
    rw [entries_function hn hd, ← entries_code hroot hafter] at hinfix
    have hmachines : (c.machines.list.map (·.function)).Nodup := by
      have hkm := hdefines.nodup_machines (by rw [hcutter]; exact List.nodup_nil)
      rwa [hms] at hkm
    have hfind : (s.entering d).machine = some m := by
      have hid : d.id = m.function := Option.some.inj hfur.function
      rw [Scene.entering, halike.known, hid]
      exact Machines.find?_of_mem hmachines hm
    have hmem : Tree.mk n [(.declaration, d), (.body, body)] ∈ c.tree.subtrees :=
      mem_subtrees_trans (mem_definitions after _ hf').1 (mem_subtrees_child (source_mem hafter))
    exact ⟨f, hf, _, hf', d, body, originals, names, s.entering d, rfl, rfl, hinfix, hfur,
      Scene.agrees_of_furnished hfur (hnames f hf) hacc.nodup.1 hmem hfind halike.index rfl⟩

end Compilation

/-! ## An example -/

namespace Compilation

/-- A check for a compilation that goes through. -/
theorem exists_compiled (hsound : start.Sound) (hpassed : start.log.failed = false)
    (hsource : start.source = some src) (hworded : src.Worded (Source.ofText rq.source).Spells)
    (p : Compilation → Compilation → Bool) (h : (match resolve start with
      | .ok _ r =>
        match cut rq r with
        | .ok _ c => Step.ended (print .stateHeader rq.fileName c) &&
            Step.ended (print .code rq.fileName c) && p r c
        | .error _ _ => false
      | .error _ _ => false) = true) :
    ∃ resolved c out, Compiled rq src start resolved c out ∧ p resolved c = true := by
  cases hresolve : resolve start with
  | error e r =>
    rw [hresolve] at h
    cases h
  | ok u r =>
    rw [hresolve] at h
    dsimp only at h
    cases hcut : cut rq r with
    | error e c =>
      rw [hcut] at h
      cases h
    | ok u c =>
      rw [hcut] at h
      simp only [Bool.and_eq_true] at h
      obtain ⟨⟨hheader, hcode⟩, hp⟩ := h
      obtain ⟨header, c₁, hheader⟩ := Step.exists_of_ended hheader
      obtain ⟨code, c₂, hcode⟩ := Step.exists_of_ended hcode
      obtain ⟨l₁, rfl⟩ := print_inv hheader
      obtain ⟨l₂, rfl⟩ := print_inv hcode
      exact ⟨r, c, ⟨"", header, code, ""⟩, ⟨hsound, hpassed, hsource, hworded, hresolve,
        ⟨c.log, hcut⟩, ⟨c.log, l₁, hheader⟩, ⟨c.log, l₂, hcode⟩⟩, hp⟩

end Compilation

namespace Sample

open Cutting

/-- What is seen in the compilation of the example: a machine keeps both variables, the result of a
call is in a temporary, and the handler is found under its name. -/
def seen (resolved c : Compilation) : Bool :=
  (c.machines.list.any fun m => m.kept == [71, 82]) &&
    (c.source.any fun after => (definitions after).any fun f => f.subtrees.any fun t =>
      t.kind == .callSub && t.node.name? == some "zc_tmp2") &&
    resolved.source.any fun before => (definitions before).any fun f =>
      nameOf f == c.machines.names.map (·.handler) && (f.child? .body).isSome

theorem plugin_compiled : ∃ src resolved c out,
    Compilation.Compiled request src plugin resolved c out ∧ seen resolved c = true := by
  have hworded : ∀ src, plugin.source = some src →
      src.Worded (Source.ofText request.source).Spells := by
    intro src hsrc
    obtain rfl := Option.some.inj hsrc
    refine Tree.worded_of_wordedBy ((Source.ofText request.source).visible.toList.map
      fun tok => (tok.kind, tok.text)) (fun w hw => ?_) (by decide +kernel)
    obtain ⟨tok, htok, rfl⟩ := List.mem_map.mp hw
    exact ⟨tok, htok, rfl, rfl⟩
  refine ⟨_, Compilation.exists_compiled plugin_sound rfl rfl (hworded _ rfl) seen ?_⟩
  decide +kernel

end Sample

/-- In the example two variables of one name have their fields. -/
theorem Compilation.plugin_has_fields :
    ∃ out c m f d body names s, Accepted Sample.request out c ∧ m ∈ c.machines.list ∧
      m.kept = [71, 82] ∧ f.child? .declaration = some d ∧ f.child? .body = some body ∧
      (({ file := "plugin.c" } : Listing).enterAll (c.scene .stateHeader).stateHeader).text =
        .ok out.stateHeader ∧
      (c.scene .stateHeader).machineStruct m <:+: (c.scene .stateHeader).stateHeader ∧
      (({ file := "plugin.c" } : Listing).enterAll
        (Scene.entries none c.tree (c.scene .code)).1).text = .ok out.code ∧
      s.functionDecl (some .functionDefinition) d ++
        (Scene.entries (some .functionDefinition) body s).1 <:+:
          (Scene.entries none c.tree (c.scene .code)).1 ∧
      Scene.Agrees (c.scene .stateHeader) s m f names := by
  obtain ⟨src, resolved, c, out, hc, hseen⟩ := Sample.plugin_compiled
  simp only [Sample.seen, Bool.and_eq_true, List.any_eq_true, beq_iff_eq] at hseen
  obtain ⟨⟨⟨m, hm, hkept⟩, -⟩, -⟩ := hseen
  obtain ⟨-, _, _, _, before, after, -, -, -, hheader, hcode, hall⟩ := fields_agree (.read hc)
  obtain ⟨hstruct, f, -, f', -, d, body, originals, names, s, hd, hbody, hin, -, hagrees⟩ :=
    hall m hm
  exact ⟨out, c, m, f', d, body, names, s, .read hc, hm, hkept, hd, hbody, hheader, hstruct, hcode,
    hin, hagrees⟩

end Resumable
