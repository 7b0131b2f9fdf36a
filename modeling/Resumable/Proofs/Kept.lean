import Resumable.Proofs.Course
import Resumable.Proofs.Naming
import Resumable.Proofs.Passing

/-!
# The variables that a machine keeps

A machine keeps variables of its own function, each of them once, and they get names that differ
from one another. The function that was cut declares them under these names.

* `Cutting.CutsStatement.declares`: what is declared on a walk stands in the source and in what is
  made.
* `Cutting.keptNames_spec`: the variables that are kept get different names.
* `Cutting.DefinesAll.furnished`: every machine keeps variables of its function under such names.
-/

namespace Resumable

open List

variable {v : NodeId} {t t' s f' f : Tree} {c c' : Cutter} {cs : Children} {name : String}
  {xs : List NodeId}

/-! ## What a walk keeps -/

namespace Persistence

/-- What is kept or used in a loop has been declared, and nothing is kept twice. -/
structure Tidy (p : Persistence) : Prop where
  nodup : p.kept.Nodup
  kept : ∀ v ∈ p.kept, v ∈ p.declared.map (·.1)
  used : ∀ l ∈ p.loops, ∀ v ∈ l.2, v ∈ p.declared.map (·.1)

variable {p p' : Persistence} {v : NodeId} {state : Int}

theorem tidy_empty : Tidy {} := ⟨nodup_nil, nofun, nofun⟩

theorem nodup_adjoin (h : xs.Nodup) (x : NodeId) : (adjoin xs x).Nodup := by
  unfold adjoin
  split
  · exact h
  · next hx => exact nodup_append'.mpr ⟨h, nodup_singleton x, by simpa using hx⟩

theorem nodup_foldl_adjoin (h : xs.Nodup) (used : List NodeId) : (used.foldl adjoin xs).Nodup := by
  induction used generalizing xs with
  | nil => exact h
  | cons x used ih => exact ih (nodup_adjoin h x)

theorem declared_of_declare (hp : p.declare v state = .ok p') :
    p' = { p with declared := p.declared ++ [(v, state)] } := by
  unfold declare at hp
  split at hp
  · cases hp
  · cases hp
    rfl

theorem Tidy.declare (h : p.Tidy) (hp : p.declare v state = .ok p') : p'.Tidy := by
  rw [declared_of_declare hp]
  refine ⟨h.nodup, fun w hw => ?_, fun l hl w hw => ?_⟩
  · rw [map_append]
    exact mem_append_left _ (h.kept w hw)
  · rw [map_append]
    exact mem_append_left _ (h.used l hl w hw)

theorem declared_use (p : Persistence) (v : Option NodeId) (state : Int) :
    (p.use v state).declared = p.declared := by
  unfold use
  repeat' split
  all_goals rfl

/-- A use keeps a variable at most once. -/
theorem Tidy.use (h : p.Tidy) (v : Option NodeId) (state : Int) : (p.use v state).Tidy := by
  unfold Persistence.use
  split
  · exact h
  · next v =>
    split
    · exact h
    · next start hstart =>
      have hv : v ∈ p.declared.map (·.1) := mem_map.mpr ⟨_, Resolve.mem_of_lookup hstart, rfl⟩
      split
      · exact h
      · next hnew =>
        split
        · -- A variable of an earlier state is kept, and was not kept before.
          refine ⟨?_, fun w hw => ?_, h.used⟩
          · exact nodup_append'.mpr ⟨h.nodup, nodup_singleton v, by simpa using hnew⟩
          · rcases mem_append.mp hw with hw | hw
            · exact h.kept w hw
            · rwa [mem_singleton.mp hw]
        · split
          · exact h
          · next s used outer hloops =>
            refine ⟨h.nodup, h.kept, fun l hl w hw => ?_⟩
            rcases mem_cons.mp hl with rfl | hl
            · rcases Moment.mem_adjoin.mp hw with hw | rfl
              · exact h.used (s, used) (by rw [hloops]; exact mem_cons_self) w hw
              · exact hv
            · exact h.used l (by rw [hloops]; exact mem_cons_of_mem _ hl) w hw

theorem Tidy.beginLoop (h : p.Tidy) (state : Int) : (p.beginLoop state).Tidy := by
  refine ⟨h.nodup, h.kept, fun l hl w hw => ?_⟩
  rcases mem_cons.mp hl with rfl | hl
  · cases hw
  · exact h.used l hl w hw

theorem declared_of_endLoop (hp : p.endLoop state = .ok p') : p'.declared = p.declared := by
  unfold endLoop at hp
  split at hp
  · cases hp
  · cases hp
    rfl

/-- The end of a loop keeps the variables that it uses, each once. -/
theorem Tidy.endLoop (h : p.Tidy) (hp : p.endLoop state = .ok p') : p'.Tidy := by
  unfold Persistence.endLoop at hp
  split at hp
  · cases hp
  · next start used outer hloops =>
    cases hp
    refine ⟨nodup_foldl_adjoin h.nodup _, fun w hw => ?_, fun l hl w hw => ?_⟩
    · rcases Moment.mem_foldl_adjoin.mp hw with hw | hw
      · exact h.kept w hw
      · split at hw
        · cases hw
        · obtain ⟨l, hl, hw⟩ := mem_flatMap.mp hw
          exact h.used l (mem_reverse.mp hl) w hw
    · exact h.used l (by rw [hloops]; exact mem_cons_of_mem _ hl) w hw

end Persistence

namespace Cutting

open Persistence

variable {c c' : Cutter}

/-! ## Along a walk -/

@[simp] theorem persistence_paused (o : Origin) (c : Cutter) :
    (paused o c).persistence = c.persistence := by
  unfold paused
  split <;> rfl

@[simp] theorem persistence_wasReset (o : Origin) (c : Cutter) :
    (wasReset o c).persistence = c.persistence := by
  unfold wasReset
  split <;> rfl

mutual

/-- In an operand nothing is declared. -/
theorem CutsOperand.keepsTidy {stmt : Origin} {c c' : Cutter} {t t' : Tree}
    (h : CutsOperand stmt c t t' c') (hc : c.persistence.Tidy) :
    c'.persistence.Tidy ∧ c'.persistence.declared = c.persistence.declared :=
  match h with
  | .bare _ => ⟨hc, rfl⟩
  | .use _ => ⟨hc.use _ _, declared_use _ _ _⟩
  | .inner _ h => h.keepsTidy hc
  | .call _ _ h _ => h.keepsTidy hc
  | .taken _ _ h _ => h.keepsTidy hc

theorem CutsOperands.keepsTidy {stmt : Origin} {c c' : Cutter} {cs cs' : Children}
    (h : CutsOperands stmt c cs cs' c') (hc : c.persistence.Tidy) :
    c'.persistence.Tidy ∧ c'.persistence.declared = c.persistence.declared :=
  match h with
  | .nil => ⟨hc, rfl⟩
  | .cons h hs => by
    obtain ⟨hc₁, hd₁⟩ := h.keepsTidy hc
    obtain ⟨hc₂, hd₂⟩ := hs.keepsTidy hc₁
    exact ⟨hc₂, hd₂.trans hd₁⟩

end

/-- The declaration of a variable stands in both of two rows of trees. -/
def DeclaredIn (v : NodeId) (cs cs' : Children) : Prop :=
  ∃ n : Node, n.id = v ∧ n.kind = .variableDeclaration ∧
    (∃ p ∈ cs, ∃ s ∈ p.2.subtrees, s.node = n) ∧ ∃ p ∈ cs', ∃ s ∈ p.2.subtrees, s.node = n

/-- Between two moments of a walk, only variables were declared whose declarations stand in some
trees and in what these become. -/
structure Declares (p p' : Persistence) (cs cs' : Children) : Prop where
  tidy : p'.Tidy
  declared : ∀ v ∈ p'.declared.map (·.1), v ∈ p.declared.map (·.1) ∨ DeclaredIn v cs cs'

/-- A declaration stands in everything around it. -/
theorem DeclaredIn.mono {cs' ds ds' : Children} (h : DeclaredIn v cs cs')
    (hs : ∀ p ∈ cs, ∃ q ∈ ds, p.2 ∈ q.2.subtrees) (hs' : ∀ p ∈ cs', ∃ q ∈ ds', p.2 ∈ q.2.subtrees) :
    DeclaredIn v ds ds' := by
  obtain ⟨n, hid, hk, ⟨p, hp, s, hmem, hn⟩, p', hp', s', hmem', hn'⟩ := h
  obtain ⟨q, hq, hpq⟩ := hs p hp
  obtain ⟨q', hq', hpq'⟩ := hs' p' hp'
  exact ⟨n, hid, hk, ⟨q, hq, s, Tree.mem_subtrees_trans hmem hpq, hn⟩, q', hq', s',
    Tree.mem_subtrees_trans hmem' hpq', hn'⟩

section

variable {p p' p₁ p₂ : Persistence} {cs cs' ds ds' es es' : Children}

theorem declares_none (h : p'.Tidy ∧ p'.declared = p.declared) : Declares p p' cs cs' :=
  ⟨h.1, fun _ hv => .inl (h.2 ▸ hv)⟩

theorem Declares.between (h : Declares p₁ p₂ cs cs') (hp : p₁.declared = p.declared)
    (hp' : p'.Tidy ∧ p'.declared = p₂.declared) : Declares p p' cs cs' := by
  refine ⟨hp'.1, fun v hv => ?_⟩
  rw [hp'.2] at hv
  rw [← hp]
  exact h.declared v hv

theorem Declares.up (h : Declares p p' cs cs') (n n' : Node) (r r' : Role)
    (hds : ∀ q ∈ cs, q ∈ ds) (hds' : ∀ q ∈ cs', q ∈ ds') :
    Declares p p' [(r, .mk n ds)] [(r', .mk n' ds')] := by
  refine ⟨h.tidy, fun v hv => (h.declared v hv).imp_right fun hin => hin.mono ?_ ?_⟩
  · exact fun q hq => ⟨_, mem_singleton_self _, Tree.mem_subtrees_child (hds q hq)⟩
  · exact fun q hq => ⟨_, mem_singleton_self _, Tree.mem_subtrees_child (hds' q hq)⟩

/-- Declarations of two parts of a walk. -/
theorem Declares.trans (h : Declares p p₁ cs cs') (h' : Declares p₁ p' ds ds')
    (hcs : ∀ q ∈ cs, q ∈ es) (hcs' : ∀ q ∈ cs', q ∈ es') (hds : ∀ q ∈ ds, q ∈ es)
    (hds' : ∀ q ∈ ds', q ∈ es') : Declares p p' es es' := by
  have hmem : ∀ {as bs : Children}, (∀ q ∈ as, q ∈ bs) →
      ∀ q ∈ as, ∃ q' ∈ bs, q.2 ∈ q'.2.subtrees := fun hsub q hq =>
    ⟨q, hsub q hq, Tree.mem_subtrees_self _⟩
  refine ⟨h'.tidy, fun v hv => ?_⟩
  rcases h'.declared v hv with hv | hin
  · exact (h.declared v hv).imp_right fun hin => hin.mono (hmem hcs) (hmem hcs')
  · exact .inr (hin.mono (hmem hds) (hmem hds'))

theorem declares_variable {n : Node} {state : Int} {r r' : Role}
    (hk : n.kind = .variableDeclaration) (hp : p.declare n.id state = .ok p₁)
    (h : p'.Tidy ∧ p'.declared = p₁.declared) :
    Declares p p' [(r, .mk n cs)] [(r', .mk n cs')] := by
  refine ⟨h.1, fun v hv => ?_⟩
  rw [h.2, declared_of_declare hp, map_append] at hv
  rcases mem_append.mp hv with hv | hv
  · exact .inl hv
  · have hself : ∀ (r : Role) (ds : Children), ∃ q ∈ [(r, Tree.mk n ds)],
        ∃ s ∈ q.2.subtrees, s.node = n := fun r ds =>
      ⟨_, mem_singleton_self _, _, Tree.mem_subtrees_self _, rfl⟩
    exact .inr ⟨n, (mem_singleton.mp hv).symm, hk, hself r cs, hself r' cs'⟩

end

mutual

/-- A walk over a statement declares variables that stand in it. -/
theorem CutsStatement.declares {c c' : Cutter} {t t' : Tree} (r r' : Role)
    (h : CutsStatement c t t' c') (hc : c.persistence.Tidy) :
    Declares c.persistence c'.persistence [(r, t)] [(r', t')] :=
  match h with
  | .nop _ => declares_none ⟨hc, rfl⟩
  | .block _ h => (h.declares hc).up _ _ _ _ (fun _ h => h) fun _ h => h
  | .declaration hk hp _ h =>
    declares_variable hk hp (by simpa using h.keepsTidy (hc.declare hp))
  | .machineDeclaration hk hp _ _ _ h =>
    declares_variable hk hp (h.keepsTidy (hc.declare hp))
  | .expression _ h | .call _ _ _ h _ _ | .leave _ h =>
    declares_none (by simpa using h.keepsTidy hc)
  | .machineCall _ _ _ h _ | .wait _ _ _ h _ _ _ => declares_none (h.keepsTidy hc)
  | .branch _ h₁ h₂ => by
    obtain ⟨hc₁, hd₁⟩ := h₁.keepsTidy hc
    have hblocks := h₂.declares hc₁
    exact (hblocks.between hd₁ ⟨hblocks.tidy, rfl⟩).up _ _ _ _
      (fun _ => mem_append_right _) fun _ => mem_append_right _
  | .loop _ h₁ h₂ hp => by
    -- The operands declare nothing; the end of the loop keeps variables that are declared.
    obtain ⟨hc₁, hd₁⟩ := h₁.keepsTidy (hc.beginLoop _)
    have hblocks := h₂.declares hc₁
    refine (hblocks.between ?_ ⟨hblocks.tidy.endLoop hp, declared_of_endLoop hp⟩).up _ _ _ _
      (fun _ => mem_append_right _) fun _ => mem_append_right _
    exact hd₁

theorem CutsStatements.declares {c c' : Cutter} {cs cs' : Children}
    (h : CutsStatements c cs cs' c') (hc : c.persistence.Tidy) :
    Declares c.persistence c'.persistence cs cs' :=
  match h with
  | .nil => declares_none ⟨hc, rfl⟩
  | .cons (r := r) h hs => by
    have hhere := h.declares r .statements hc
    refine hhere.trans (hs.declares hhere.tidy) ?_ ?_ (fun _ => mem_cons_of_mem _) fun _ =>
      mem_append_right _
    · simp
    · simp

theorem CutsBlocks.declares {c c' : Cutter} {cs cs' : Children}
    (h : CutsBlocks c cs cs' c') (hc : c.persistence.Tidy) :
    Declares c.persistence c'.persistence cs cs' :=
  match h with
  | .nil => declares_none ⟨hc, rfl⟩
  | .cons (r := r) (n := n) _ h hs => by
    have hblock := h.declares hc
    have hup := hblock.up n n r r (fun _ h => h) fun _ h => h
    exact hup.trans (hs.declares hblock.tidy) (by simp) (by simp)
      (fun _ => mem_cons_of_mem _) fun _ => mem_cons_of_mem _

end

end Cutting

/-! ## Fields -/

/-- The tree declares the variable under this name. -/
def Tree.DeclaresAs (t : Tree) (v : NodeId) (name : String) : Prop :=
  ∃ s ∈ t.subtrees, s.id = v ∧ s.kind = .variableDeclaration ∧
    s.node.text .name = .ok (some name)

/-- All variables of the tree have names. -/
def Tree.NamesVariables (t : Tree) : Prop :=
  ∀ s ∈ t.subtrees, s.kind = .variableDeclaration →
    ∃ name, s.node.text .name = .ok (some name) ∧ isReserved name = false

/-- The variables that a machine keeps have names in its function before cutting, and the names of
fields, which were chosen from them one behind the other, in the function that was cut. -/
structure Machine.Furnished (m : Machine) (f f' : Tree) (originals names : List String) : Prop where
  function : Cutting.declared? f' = some m.function
  nodup : m.kept.Nodup
  before : List.Forall₂ f.DeclaresAs m.kept originals
  behind : List.Forall₂ f'.DeclaresAs m.kept names
  renamed : Persistence.Renamed [] originals names

theorem lookup_of_mem {α β : Type} [DecidableEq α] {l : List (α × β)} {a : α} {b : β}
    (hnd : (l.map (·.1)).Nodup) (h : (a, b) ∈ l) : l.lookup a = some b := by
  induction l with
  | nil => cases h
  | cons p l ih =>
    obtain ⟨hp, hl⟩ := nodup_cons.mp hnd
    rw [lookup_cons]
    rcases mem_cons.mp h with rfl | h
    · rw [beq_self_eq_true]
    · have hne : a ≠ p.1 := by
        rintro rfl
        exact hp (mem_map.mpr ⟨_, h, rfl⟩)
      rw [beq_false_of_ne hne]
      exact ih hl h

namespace Tree

theorem mapNodes_mem_subtrees (g : Node → Node) (h : s ∈ t.subtrees) :
    s.mapNodes g ∈ (t.mapNodes g).subtrees := by
  induction t using ofChildren with
  | step n cs ih =>
    rcases mem_subtrees_mk.mp h with rfl | ⟨p, hp, hs⟩
    · exact mem_subtrees_self _
    · rw [mapNodes, mapNodes_go_eq_map]
      exact mem_subtrees_mk.mpr (.inr ⟨_, mem_map_of_mem hp, ih p hp hs⟩)

/-- A node is looked up under its number. -/
theorem lookup_name (hnd : t.ids.Nodup) (hs : s ∈ t.subtrees) :
    (t.subtrees.map fun u => (u.id, u.node.name?)).lookup s.id = some s.node.name? := by
  refine lookup_of_mem ?_ (mem_map.mpr ⟨s, hs, rfl⟩)
  rw [map_map, show (fun p : NodeId × Option String => p.1) ∘ (fun u : Tree =>
    (u.id, u.node.name?)) = Tree.id from rfl, map_id_subtrees]
  exact hnd

end Tree

namespace Persistence

theorem lookup_withNames {vs : List NodeId} {names : List String} (hnd : vs.Nodup)
    (hlen : vs.length = names.length) (h : (v, name) ∈ vs.zip names) :
    (withNames vs names).lookup v = some (some name) := by
  refine lookup_of_mem ?_ ?_
  · rwa [withNames, map_fst_zip (by simp [hlen])]
  · rw [withNames, zip_map_right]
    exact mem_map.mpr ⟨(v, name), h, rfl⟩

end Persistence

namespace Cutting

/-- The variables that are kept get names that differ. -/
theorem keptNames_spec {body : Tree} {originals : List String} (hnd : body.ids.Nodup)
    (h : List.Forall₂ body.DeclaresAs c.persistence.kept originals) :
    ∃ names, Persistence.Renamed [] originals names ∧
      keptNames c body = (Persistence.withNames c.persistence.kept names, none) := by
  obtain ⟨names, hrenamed, hnames⟩ := Persistence.distinct_spec originals h.length_eq
  refine ⟨names, hrenamed, ?_⟩
  rw [← hnames]
  refine congrArg Persistence.distinct ?_
  have hlookup : List.Forall₂ (fun v name => ((body.subtrees.map fun u => (u.id,
      u.node.name?)).lookup v).join = some name) c.persistence.kept originals := by
    refine h.imp fun v name hv => ?_
    obtain ⟨s, hs, rfl, -, htext⟩ := hv
    rw [Tree.lookup_name hnd hs, Option.join_some, Node.name?_of_text htext]
  clear hnames hrenamed h
  generalize c.persistence.kept = kept at hlookup ⊢
  induction hlookup with
  | nil => rfl
  | cons hhead htail ih => rw [map_cons, hhead, ih]; rfl

/-- The nodes of a body stand in the function to which nothing but names and a last statement
were added. -/
theorem nodup_body {g : Node → Node} (hg : Renames g) {n b : Node} {d : Tree} {last : Children}
    (hnd : (Tree.mk n [(.declaration, d),
      (.body, .mk (g b) (Tree.mapNodes.go g cs ++ last))]).ids.Nodup) :
    (Tree.mk b cs).ids.Nodup := by
  have hwhole := Tree.nodup_subtree hnd (Tree.mem_subtrees_child
    (p := (.body, .mk (g b) (Tree.mapNodes.go g cs ++ last))) (by simp [Tree.children]))
  have hbag : (Tree.mk b cs).bag ≤ (Tree.mk (g b) (Tree.mapNodes.go g cs ++ last)).bag := by
    rw [← Tree.bag_mapNodes hg.id, Tree.mapNodes, Tree.bag_mk, Tree.bag_mk, Tree.under_append]
    exact add_le_add_right (Multiset.le_add_right _ _) _
  exact Multiset.coe_nodup.mp (Multiset.nodup_of_le hbag (Multiset.coe_nodup.mpr hwhole))

/-- A variable whose declaration the walk came past has its name in the source and in what this
becomes. -/
theorem DeclaredIn.declaresAs {cs' : Children} (h : DeclaredIn v cs cs') (ht : t.NamesVariables)
    (hcs : ∀ p ∈ cs, p.2 ∈ t.subtrees) (hcs' : ∀ p ∈ cs', p.2 ∈ t'.subtrees) :
    ∃ name, t.DeclaresAs v name ∧ t'.DeclaresAs v name := by
  obtain ⟨n, hid, hk, ⟨p, hp, s, hs, rfl⟩, p', hp', s', hs', hn⟩ := h
  have hmem := Tree.mem_subtrees_trans hs (hcs p hp)
  obtain ⟨name, htext, -⟩ := ht s hmem hk
  refine ⟨name, ⟨s, hmem, hid, hk, htext⟩, s', Tree.mem_subtrees_trans hs' (hcs' p' hp'), ?_⟩
  rw [Tree.id, Tree.kind, hn]
  exact ⟨hid, hk, htext⟩

theorem declaresAs_of_children (h : t.DeclaresAs v name) (hk : t.kind ≠ .variableDeclaration)
    (ht : ∀ p ∈ t.children, p.2 ∈ t'.subtrees) : t'.DeclaresAs v name := by
  obtain ⟨s, hs, hdecl⟩ := h
  obtain ⟨n, cs⟩ := t
  rcases Tree.mem_subtrees_mk.mp hs with rfl | ⟨p, hp, hsp⟩
  · exact absurd hdecl.2.1 hk
  · exact ⟨s, Tree.mem_subtrees_trans hsp (ht p hp), hdecl⟩

/-- A variable that is renamed is declared under its new name. -/
theorem declaresAs_rename {name' : String} {names : List (NodeId × Option String)}
    (h : t.DeclaresAs v name) (hv : names.lookup v = some (some name')) :
    (rename names t).DeclaresAs v name' := by
  obtain ⟨s, hs, rfl, hk, -⟩ := h
  have hg := renames_names names
  refine ⟨_, Tree.mapNodes_mem_subtrees _ hs, ?_, ?_, ?_⟩
  · rw [Tree.id, Tree.node_mapNodes]
    exact hg.id _
  · exact (hg.kind_mapNodes s).trans hk
  · rw [Tree.node_mapNodes]
    have hid : names.lookup s.node.id = some (some name') := hv
    simp [hid]

/-- The machine of a function keeps its variables under different names. -/
theorem CutsCleanly.furnished {main : Bool} (h : CutsCleanly main c f f' c') (hf : f.NamesVariables)
    (hnd : f'.ids.Nodup) :
    c'.machines = c.machines ∨ ∃ m originals names,
      c'.machines = ⟨c.machines.names, c.machines.list ++ [m]⟩ ∧
        m.Furnished f f' originals names := by
  cases h.cuts with
  | rejected hmain hb ho =>
    rw [h.ends hmain _ hb] at ho
    cases ho
  | stateless hb hskip hwalk hs => exact .inl hwalk.later.machines
  | @machine c₁ _ n b first d cs rest last skip o names' hb hskip hwalk hs hfirst hnames hm hlast =>
    obtain ⟨struct, -, hadd⟩ := add_inv hm
    have hdeclares := hwalk.declares Persistence.tidy_empty
    have hbehind : ∀ p ∈ rest, p ∈ withDispatch first
        (dispatchNode c₁.log.nextId o c₁.states main) skip cs rest := fun p hp => by
      simp [withDispatch, hp]
    generalize withDispatch first (dispatchNode c₁.log.nextId o c₁.states main) skip cs rest = bs
      at hnames hnd hbehind ⊢
    -- each variable that is kept has its declaration in the source and in the body
    have hkept : ∀ v ∈ c₁.persistence.kept, ∃ name,
        (Tree.mk n [(.declaration, d), (.body, .mk b cs)]).DeclaresAs v name ∧
          (Tree.mk b bs).DeclaresAs v name := by
      intro v hv
      rcases hdeclares.declared v (hdeclares.tidy.kept v hv) with hv | hin
      · cases hv
      · refine hin.declaresAs hf (fun p hp => ?_) fun p hp => ?_
        · refine Tree.mem_subtrees_trans (Tree.mem_subtrees_child (t := .mk b cs)
            (mem_of_mem_drop hp)) (Tree.mem_subtrees_child (p := (.body, .mk b cs)) ?_)
          exact mem_cons_of_mem _ (mem_singleton_self _)
        · exact Tree.mem_subtrees_child (t := .mk b bs) (hbehind p hp)
    choose! original hbefore hin using hkept
    have hall : ∀ {R : NodeId → String → Prop}, (∀ v ∈ c₁.persistence.kept, R v (original v)) →
        List.Forall₂ R c₁.persistence.kept (c₁.persistence.kept.map original) := fun hR =>
      forall₂_map_right_iff.mpr (forall₂_same.mpr hR)
    have hndbody := nodup_body (renames_names names') hnd
    obtain ⟨names, hrenamed, heq⟩ := keptNames_spec hndbody (hall hin)
    obtain rfl : names' = Persistence.withNames c₁.persistence.kept names :=
      congrArg Prod.fst (hnames.symm.trans heq)
    have hlen : c₁.persistence.kept.length = names.length := by
      rw [hrenamed.length_eq, length_map]
    refine .inr ⟨_, _, names, hwalk.later.machines ▸ hadd, rfl, hdeclares.tidy.nodup,
      hall hbefore, ?_, hrenamed⟩
    refine forall₂_iff_zip.mpr ⟨hlen, fun {v name} hzip => ?_⟩
    have hv := (of_mem_zip hzip).1
    have hlookup := Persistence.lookup_withNames hdeclares.tidy.nodup hlen hzip
    refine declaresAs_of_children (declaresAs_rename (hin v hv) hlookup) ?_ fun p hp => ?_
    · rw [show (rename _ (Tree.mk b bs)).kind = b.kind from (renames_names _).kind b, hb]
      decide
    · refine Tree.mem_subtrees_trans ?_ (Tree.mem_subtrees_child
        (mem_cons_of_mem _ (mem_singleton_self _)))
      exact Tree.mem_subtrees_child (mem_append_left _ hp)

theorem DefinesCleanly.furnished (h : DefinesCleanly c f f' c') (hf : f.NamesVariables)
    (hnd : f'.ids.Nodup) :
    ∀ m ∈ c'.machines.list, m ∈ c.machines.list ∨
      ∃ originals names, m.Furnished f f' originals names := by
  intro m hm
  cases h with
  | unnamed hn | setUp hn hd hv => exact .inl hm
  | starter hn hv hb hfirst hfailed hgrows => exact .inl hm
  | function hn hd hv h =>
    rcases h.furnished hf hnd with heq | ⟨m', originals, names, heq, hm'⟩
    · exact .inl (heq ▸ hm)
    · rw [heq] at hm
      rcases mem_append.mp hm with hm | hm
      · exact .inl hm
      · rw [mem_singleton.mp hm]
        exact .inr ⟨originals, names, hm'⟩

theorem DefinesAll.furnished {fs fs' : List Tree} (h : DefinesAll c fs fs' c')
    (hfs : ∀ f ∈ fs, f.NamesVariables) (hnd : ∀ f' ∈ fs', f'.ids.Nodup) :
    ∀ m ∈ c'.machines.list, m ∈ c.machines.list ∨ ∃ f ∈ fs, ∃ f' ∈ fs', ∃ originals names,
      m.Furnished f f' originals names := by
  induction h with
  | nil => exact fun m hm => .inl hm
  | cons h hs ih =>
    intro m hm
    obtain ⟨hf, hfs⟩ := forall_mem_cons.mp hfs
    obtain ⟨hndf, hnd⟩ := forall_mem_cons.mp hnd
    rcases ih hfs hnd m hm with hm | ⟨g, hg, g', hg', hfurnished⟩
    · rcases h.furnished hf hndf m hm with hm | hfurnished
      · exact .inl hm
      · exact .inr ⟨_, mem_cons_self, _, mem_cons_self, hfurnished⟩
    · exact .inr ⟨g, mem_cons_of_mem _ hg, g', mem_cons_of_mem _ hg', hfurnished⟩

end Cutting

end Resumable
