import Resumable.Compilation
import Resumable.Proofs.Constructed.Program
import Resumable.Proofs.Given
import Resumable.Proofs.Shape
import Resumable.Proofs.Walk.Program

/-!
# The nodes of a compilation

A compilation hands out the numbers of nodes in order. At the end of every stage, each number that
was handed out is the number of one node of the tree, or of one node that was taken out of it. A
node is told its parent when it is put into a place; at the end of every stage, this is the node
that holds it.

* `Tree.linked_attach`: a tree whose nodes have the right parents is changed, and those that are new
  in their places are told their parents. Then all of them have the right parents again, if no node
  stands in two places.
* `Compilation.cut_inv`: what cutting makes of a sound compilation.
* `Compilation.stages_account`: the nodes of a compilation at the end of each stage.
-/

namespace Resumable

open List

variable {c c' : Compilation} {rq : Request} {t : Tree} {u : Unit} {m : Manifest}

/-- The source has a token of this kind with this text. -/
def Source.Spells (s : Source) (k : TokenKind) (word : String) : Prop :=
  ∃ tok ∈ s.visible.toList, tok.kind = k ∧ tok.text = word

/-- A text is parsed, and the tree is made from the parse tree. -/
def Source.Reads (s : Source) (t : Tree) : Prop :=
  ∃ p, s.parse .compilationUnit = .ok p ∧ t.Read s.Spells .pluginSource

/-! ## Parents -/

namespace Tree

/-- Every node that is held has the node that holds it as its parent. -/
def Linked (t : Tree) (parents : IdMap NodeId) : Prop :=
  ∀ s ∈ t.subtrees, ∀ p ∈ s.children, parents.get? p.2.id = some s.id

theorem mem_holdings {h : Holding} :
    h ∈ t.holdings ↔ ∃ s ∈ t.subtrees, ∃ p ∈ s.children, h = ⟨s.id, p.1, p.2.id⟩ := by
  simp only [holdings, mem_flatMap, mem_map, eq_comm]

/-- A node that is told only of one parent, or that is told nothing and has this parent, has it in
the end. -/
theorem get?_foldl_holdings {hs : List Holding} {parents : IdMap NodeId} {x a : NodeId}
    (hall : ∀ h ∈ hs, h.held = x → h.holder = a)
    (h : parents.get? x = some a ∨ ∃ h ∈ hs, h.held = x) :
    (hs.foldl (fun ps h => ps.insert h.held h.holder) parents).get? x = some a := by
  induction hs generalizing parents with
  | nil => simpa using h
  | cons k hs ih =>
    obtain ⟨hk, hrest⟩ := forall_mem_cons.mp hall
    refine ih hrest ?_
    rw [IdMap.get?_insert]
    split
    next hx => exact .inl (congrArg some (hk hx))
    next hx =>
      refine h.imp_right fun ⟨k', hk', hx'⟩ => ?_
      rcases mem_cons.mp hk' with rfl | hk'
      · exact absurd hx' hx
      · exact ⟨k', hk', hx'⟩

/-- Where nodes that are new in their places are told their parents, all have the right ones. -/
theorem linked_attach {before after : Tree} {parents : IdMap NodeId} (h : before.Linked parents)
    (hnd : after.ids.Nodup) : after.Linked (before.attach after parents) := by
  intro s hs p hp
  refine get?_foldl_holdings (fun k hk hx => ?_) ?_
  · obtain ⟨s', hs', p', hp', rfl⟩ := mem_holdings.mp (mem_of_mem_filter hk)
    exact congrArg Tree.id (held_once hnd hs' hs hp' hp hx).1
  · by_cases hold : (IdMap.empty.addTree before).holds ⟨s.id, p.1, p.2.id⟩ = true
    · -- it has not moved
      obtain ⟨b, hb, hin⟩ := (Option.any_eq_true _ _).mp hold
      obtain ⟨x, hx, hid⟩ := any_eq_true.mp hin
      rcases Resolve.get?_addTree hb with hb | ⟨hb, hbid⟩
      · cases hb
      · have hx : (p.1, x) ∈ b.children := by simpa [inRole] using hx
        have hparent := h b hb _ hx
        rw [hbid, show x.id = p.2.id from eq_of_beq hid] at hparent
        exact .inl hparent
    · exact .inr ⟨_, mem_filter.mpr ⟨mem_holdings.mpr ⟨s, hs, p, hp, rfl⟩, by simpa using hold⟩,
        rfl⟩

end Tree

namespace Compilation

open Step Resumable.Tree

instance : LawfulLog Compilation := ⟨fun _ _ => rfl, fun _ => rfl, fun _ _ _ => rfl⟩

/-! ## The whole tree and its parts -/

/-- The places of the parts of a program, in their order. -/
def parts : List Role := [.builtins, .manifest, .papi, .source]

theorem flatMap_lookup {rs : List Role} {cs : Children} (hrs : rs.Nodup)
    (h : (cs.map (·.1)).Sublist rs) :
    (rs.flatMap fun r => ((cs.lookup r).map (r, ·)).toList) = cs := by
  induction rs generalizing cs with
  | nil =>
    rw [sublist_nil, map_eq_nil_iff] at h
    rw [h]
    rfl
  | cons r rs ih =>
    obtain ⟨hr, hnd⟩ := nodup_cons.mp hrs
    rw [flatMap_cons]
    rcases sublist_cons_iff.mp h with hsub | ⟨ss, heq, hsub⟩
    · have hnone : cs.lookup r = none := by
        rw [lookup_eq_none_iff]
        intro p hp
        have hne : r ≠ p.1 := by
          rintro rfl
          exact hr (hsub.mem (mem_map_of_mem hp))
        simpa using hne
      rw [hnone, ih hnd hsub]
      rfl
    · obtain ⟨⟨r', t⟩, ds, rfl, hr', rfl⟩ := map_eq_cons_iff.mp heq
      obtain rfl : r' = r := hr'
      -- the other parts are found behind the first one
      have hrest : (rs.flatMap fun s => ((((r', t) :: ds).lookup s).map (s, ·)).toList) =
          rs.flatMap fun s => ((ds.lookup s).map (s, ·)).toList := by
        refine flatMap_congr fun s hs => ?_
        have hne : (s == r') = false := by
          rw [beq_eq_false_iff_ne]
          rintro rfl
          exact hr hs
        rw [lookup_cons, hne]
      rw [hrest, ih hnd hsub, lookup_cons_self]
      rfl

theorem roles_tree (c : Compilation) : (c.tree.children.map (·.1)).Sublist parts := by
  have hpart : ∀ (r : Role) (t : Option Tree),
      (((t.map (r, ·)).toList).map (·.1)).Sublist [r] := by
    intro r t
    cases t <;> simp
  simp only [tree, Tree.children, map_append]
  exact (((hpart _ _).append (hpart _ _)).append (hpart _ _)).append (hpart _ _)

/-- A tree with parts in these places can be taken apart and put together. -/
theorem tree_setTree (c : Compilation) (h : (t.children.map (·.1)).Sublist parts) :
    (c.setTree t).tree = t := by
  obtain ⟨n, cs⟩ := t
  have hcs := flatMap_lookup (show parts.Nodup by decide) h
  simp only [parts, flatMap_cons, flatMap_nil, append_nil] at hcs
  simp only [tree, setTree, Tree.node, Tree.child?]
  rw [append_assoc, append_assoc]
  exact congrArg (Tree.mk n) hcs

theorem tree_place (f : Compilation → Compilation) (c : Compilation) :
    (place f c).tree = (f c).tree := rfl

theorem source_of_mem {p : Role × Tree} (hp : p ∈ c.tree.children) (hr : p.1 = .source) :
    c.source = some p.2 := by
  obtain ⟨r, t⟩ := p
  obtain rfl : r = .source := hr
  simpa [tree, Tree.children] using hp

/-- The nodes of a compilation are the root and those of its parts. -/
theorem bag_tree (c : Compilation) :
    c.tree.bag = {c.root.id} + (bags c.builtins.toList + bags c.manifest.toList +
      bags c.papi.toList + bags c.source.toList) := by
  have hpart : ∀ (r : Role) (t : Option Tree), under ((t.map (r, ·)).toList) = bags t.toList := by
    intro r t
    cases t <;> simp
  simp only [tree, bag_mk, under_append, hpart]

/-! ## What the stages keep up -/

/-- All numbers that were handed out are those of nodes in the tree or of nodes taken out. -/
def Accounted (c : Compilation) : Prop :=
  c.tree.bag + (c.log.removed : Multiset NodeId) = (List.range c.log.nextId : Multiset NodeId)

/-- A compilation before cutting. Nodes may be lost once an error has been reported. -/
structure Sound (c : Compilation) : Prop where
  accounted : c.log.failed = false → c.Accounted
  root : c.root.kind = .root
  source : ∀ s, c.source = some s → s.uncut = true
  machines : c.machines = {}

/-- A stage that hands on what it draws keeps the account. -/
theorem Accounted.gains (h : c.Accounted) (hgains : c.log.Gains c'.log c.tree.bag c'.tree.bag) :
    c'.Accounted := by
  have hrange : (List.range c.log.nextId : Multiset NodeId) + c.log.drawn c'.log =
      (List.range c'.log.nextId : Multiset NodeId) := by
    have hle := hgains.le
    rw [Log.drawn, Multiset.coe_add, range_eq_range', range_eq_range']
    have happ := Log.range'_append_range' (Nat.zero_le c.log.nextId) hle
    rw [Nat.sub_zero, Nat.sub_zero] at happ
    rw [happ]
  rw [Accounted, hgains.has, h, hrange]

theorem Accounted.setTree (h : c.Accounted) {l : Log} (ms : Machines)
    (hroles : (t.children.map (·.1)).Sublist parts) (hgains : c.log.Gains l c.tree.bag t.bag) :
    Accounted { c.setTree t with log := l, machines := ms } := by
  refine h.gains ⟨hgains.le, ?_⟩
  have htree : tree { c.setTree t with log := l, machines := ms } = t := c.tree_setTree hroles
  rw [htree]
  exact hgains.has

theorem Accounted.nodup (h : c.Accounted) :
    c.tree.ids.Nodup ∧ ∀ i ∈ c.tree.ids, i < c.log.nextId := by
  have hle : c.tree.bag ≤ (List.range c.log.nextId : Multiset NodeId) :=
    h ▸ Multiset.le_add_right _ _
  refine ⟨Multiset.coe_nodup.mp (Multiset.nodup_of_le hle (Multiset.coe_nodup.mpr
    nodup_range)), fun i hi => ?_⟩
  exact mem_range.mp (Multiset.mem_coe.mp (Multiset.mem_of_le hle (Multiset.mem_coe.mpr hi)))

/-- If no error has been reported, every node has the node that holds it as its parent. -/
def Linked (c : Compilation) : Prop := c.log.failed = false → c.tree.Linked c.parents

/-- At first the root holds nothing. -/
theorem linked_bare (l : Log) (root : Node) :
    Linked { ({} : Compilation) with log := l, root := root } := by
  intro _ s hs p hp
  rw [mem_singleton.mp hs] at hp
  cases hp

/-- A step keeps the tree, or the nodes of the new one are told their parents. -/
def Places (c c' : Compilation) : Prop :=
  (c'.log.failed = false → c.log.failed = false) ∧
    (c'.tree = c.tree ∧ c'.parents = c.parents ∨
      c'.parents = c.tree.attach c'.tree c.parents)

/-- A stage that changes the tree and then attaches it keeps the parents right. -/
theorem Places.linked (h : c.Places c') (hl : c.Linked)
    (hacc : c'.log.failed = false → c'.Accounted) : c'.Linked := by
  intro hok
  obtain ⟨hfailed, ⟨htree, hparents⟩ | hparents⟩ := h
  · rw [htree, hparents]
    exact hl (hfailed hok)
  · rw [hparents]
    exact linked_attach (hl (hfailed hok)) (hacc hok).nodup.1

theorem onLog_inv {α : Type} {s : Step Log α} {a : α} (h : onLog s c = .ok a c') :
    ∃ l, s c.log = .ok a l ∧ c' = { c with log := l } := by
  unfold onLog at h
  cases hrun : s c.log with
  | error e l =>
    rw [hrun] at h
    cases h
  | ok b l =>
    rw [hrun] at h
    cases h
    exact ⟨l, rfl, rfl⟩

/-- A text that is read, with its tree. -/
theorem read_inv {text : String} {src : Source} (h : read rq text c = .ok (src, t) c') :
    src = Source.ofText text ∧ src.Reads t ∧ c.log.failed = false ∧ c'.log.failed = false ∧
      c.log.Grows c'.log 0 t.bag ∧ c' = { c with log := c'.log, dropped := c'.dropped } := by
  unfold read at h
  split at h
  · obtain ⟨x, c₁, hthrow, -⟩ := Step.bind_inv h
    cases hthrow
  · dsimp only at h
    obtain ⟨x, c₁, hdrop, h₁⟩ := Step.bind_inv h
    cases hdrop
    cases hp : (Source.ofText text).parse .compilationUnit with
    | error e =>
      rw [hp] at h₁
      cases h₁
    | ok p =>
      rw [hp] at h₁
      obtain ⟨-, hconf⟩ := Source.conforms_of_parse
        (P := Lexed (Source.ofText text).Spells) hp fun tok htok => ⟨tok, htok, rfl, rfl⟩
      -- the tree is printed or not before the syntax tree is made
      have hunit : ∀ c₂ : Compilation, (do
          return (Source.ofText text, ← onLog (Construction.unit rq.pluginPrefix p)) :
            Stage (Source × Tree)) c₂ = .ok (src, t) c' →
          src = Source.ofText text ∧ src.Reads t ∧ c₂.log.failed = false ∧ c'.log.failed = false ∧
            c₂.log.Grows c'.log 0 t.bag ∧ c' = { c₂ with log := c'.log } := by
        intro c₂ h₂
        obtain ⟨u, c₃, hu, h₃⟩ := Step.bind_inv h₂
        cases h₃
        obtain ⟨l, hrun, rfl⟩ := onLog_inv hu
        obtain ⟨hread, hok₀, hok, hgrows⟩ := Construction.unit_read _ hconf hrun
        exact ⟨rfl, ⟨p, hp, hread⟩, hok₀, hok, hgrows, rfl⟩
      dsimp only at h₁
      split at h₁
      · obtain ⟨x, c₂, hprint, h₂⟩ := Step.bind_inv h₁
        cases hprint
        obtain ⟨rfl, hread, hok₀, hok, hgrows, heq⟩ := hunit _ h₂
        exact ⟨rfl, hread, hok₀, hok, ⟨hgrows.removed, hgrows.le, hgrows.has⟩, by rw [heq]; rfl⟩
      · obtain ⟨rfl, hread, hok₀, hok, hgrows, heq⟩ := hunit _ h₁
        exact ⟨rfl, hread, hok₀, hok, hgrows, by rw [heq]⟩

/-! ## The stages before cutting -/

/-- A stage that adds one tree keeps a compilation sound. -/
theorem Sound.add (h : c.Sound) (hclean : c.log.Clean c'.log t.bag)
    (hbag : c'.tree.bag = c.tree.bag + t.bag) (hroot : c'.root = c.root)
    (hsource : ∀ s, c'.source = some s → c.source = some s ∨ s.uncut = true)
    (hmachines : c'.machines = c.machines) : c'.Sound := by
  refine ⟨fun hok => ?_, hroot ▸ h.root, fun s hs => ?_, hmachines.trans h.machines⟩
  · obtain ⟨hok', hgrows⟩ := hclean hok
    refine (h.accounted hok').gains (hgrows.gains.add c.tree.bag (zero_add _).symm ?_)
    rw [hbag, add_comm]
  · rcases hsource s hs with hs | hu
    · exact h.source s hs
    · exact hu

theorem sound_of_makeBuiltins (h : makeBuiltins {} = .ok u c) :
    c.Sound ∧ c.manifest = none ∧ c.papi = none ∧ c.source = none ∧ c.Linked := by
  unfold makeBuiltins at h
  obtain ⟨root, c₁, hroot, h₁⟩ := Step.bind_inv h
  cases hroot
  obtain ⟨x, c₂, hset, h₂⟩ := Step.bind_inv h₁
  cases hset
  obtain ⟨t, c₃, ht, h₃⟩ := Step.bind_inv h₂
  cases h₃
  obtain ⟨hset, hclean, -⟩ := (Builtins.all_makes .builtin).clean ht
  obtain ⟨l, rfl⟩ : ∃ l, c₃ = { ({} : Compilation) with
      log := l, root := .blank 0 .root .root } := ⟨_, hset⟩
  have hroot : Sound { ({} : Compilation) with
      log := { nextId := 1 }, root := .blank 0 .root .root } :=
    ⟨fun _ => by simp [Accounted, bag_tree], rfl, nofun, rfl⟩
  have hsound : Sound (place ({ · with builtins := some t })
      { ({} : Compilation) with log := l, root := .blank 0 .root .root }) :=
    hroot.add hclean (by simp [bag_tree, place]) rfl (fun s hs => .inl hs) rfl
  exact ⟨hsound, rfl, rfl, rfl, Places.linked (c := { ({} : Compilation) with
    log := { nextId := 1 }, root := .blank 0 .root .root }) ⟨fun _ => rfl, .inr rfl⟩
    (linked_bare _ _) hsound.accounted⟩

theorem Sound.readPapi (h : c.Sound) (hnone : c.papi = none) (hrun : readPapi rq c = .ok u c') :
    c'.Sound ∧ c'.manifest = c.manifest ∧ c'.source = c.source ∧ c.Places c' := by
  unfold Compilation.readPapi at hrun
  cases hp : rq.papi with
  | none =>
    rw [hp] at hrun
    cases hrun
    exact ⟨h, rfl, rfl, id, .inl ⟨rfl, rfl⟩⟩
  | some text =>
    rw [hp] at hrun
    obtain ⟨⟨src, t⟩, c₁, hread, hset⟩ := Step.bind_inv hrun
    cases hset
    obtain ⟨-, -, hok₀, -, hgrows, heq⟩ := read_inv hread
    rw [heq]
    refine ⟨h.add (t := t) (fun _ => ⟨hok₀, hgrows⟩) ?_ rfl (fun s hs => .inl hs) rfl, rfl, rfl,
      fun _ => hok₀, .inr rfl⟩
    simp only [bag_tree, place, hnone, Option.toList_some, Option.toList_none, bags_cons, bags_nil]
    abel

theorem Sound.addManifest (h : c.Sound) (hnone : c.manifest = none)
    (hrun : addManifest rq m c = .ok u c') :
    c'.Sound ∧ c'.source = c.source ∧ c.Places c' := by
  unfold Compilation.addManifest at hrun
  obtain ⟨t, c₁, hdecl, hset⟩ := Step.bind_inv hrun
  cases hset
  obtain ⟨l, hdone, rfl⟩ := onLog_inv hdecl
  obtain ⟨-, hclean, -⟩ := (Manifest.declarations_makes m rq.pluginPrefix).clean hdone
  refine ⟨h.add (t := t) hclean ?_ rfl (fun s hs => .inl hs) rfl, rfl,
    fun hok => (hclean hok).1, .inr rfl⟩
  simp only [bag_tree, place, hnone, Option.toList_some, Option.toList_none, bags_cons, bags_nil]
  abel

theorem Sound.readSource (h : c.Sound) (hnone : c.source = none)
    (hrun : readSource rq c = .ok u c') :
    c'.Sound ∧ c'.log.failed = false ∧ c.Places c' := by
  unfold Compilation.readSource at hrun
  obtain ⟨⟨src, t⟩, c₁, hread, hset⟩ := Step.bind_inv hrun
  cases hset
  obtain ⟨-, hreads, hok₀, hok, hgrows, heq⟩ := read_inv hread
  refine ⟨?_, hok, fun _ => hok₀, .inr (by rw [heq]; rfl)⟩
  rw [heq]
  refine h.add (t := t) (fun _ => ⟨hok₀, hgrows⟩) ?_ rfl (fun s hs => .inr ?_) rfl
  · simp only [bag_tree, place, hnone, Option.toList_some, Option.toList_none, bags_cons, bags_nil]
    abel
  · cases hs
    obtain ⟨p, -, hu⟩ := hreads
    exact hu.uncut

theorem printAll_log (l : Log) (ss : List String) :
    (l.printAll ss).nextId = l.nextId ∧ (l.printAll ss).removed = l.removed ∧
      (l.printAll ss).failed = l.failed := by
  unfold Log.printAll
  induction ss generalizing l with
  | nil => exact ⟨rfl, rfl, rfl⟩
  | cons s ss ih => exact ih (l.print s)

theorem Sound.printAll (h : c.Sound) (ss : List String) :
    Sound { c with log := c.log.printAll ss } := by
  obtain ⟨hnext, hremoved, hfailed⟩ := printAll_log c.log ss
  refine ⟨fun hok => ?_, h.root, h.source, h.machines⟩
  have hold : c.Accounted := h.accounted (hfailed.symm.trans hok)
  unfold Accounted
  rw [hremoved, hnext]
  exact hold

/-- To account for the nodes prints something, and changes nothing else. -/
theorem account_inv (h : account c = .ok u c') :
    ∃ ss, c' = { c with log := c.log.printAll ss } := by
  unfold account reportReached at h
  obtain ⟨c₀, c₁, hget, h₁⟩ := Step.bind_inv h
  cases hget
  split at h₁
  · obtain ⟨c₂, c₃, hget, h₂⟩ := Step.bind_inv h₁
    cases hget
    dsimp only at h₂
    obtain ⟨x, c₄, hprint, h₃⟩ := Step.bind_inv h₂
    cases hprint
    split at h₃
    · cases h₃
      exact ⟨_, rfl⟩
    · cases h₃
  · cases h₁

theorem Sound.account (h : c.Sound) (hrun : account c = .ok u c') :
    c'.Sound ∧ c'.log.failed = c.log.failed := by
  obtain ⟨ss, rfl⟩ := account_inv hrun
  exact ⟨h.printAll ss, (printAll_log _ ss).2.2⟩

/-! ## Resolution and cutting -/

/-- What resolution makes of a compilation. -/
theorem resolve_inv (h : resolve c = .ok u c') : ∃ t r,
    Resolve.run {} c.tree { log := c.log } = .ok t r ∧
      c' = place (fun c => { c.setTree t with log := r.log }) c := by
  unfold resolve resolution at h
  obtain ⟨r, c₁, hres, hend⟩ := Step.bind_inv h
  cases hend
  split at hres
  next t r' hrun =>
    cases hres
    exact ⟨t, r, hrun, rfl⟩
  next => cases hres

/-- Resolution keeps a compilation sound. -/
theorem Sound.resolve (h : c.Sound) (hok : c.log.failed = false) (hrun : resolve c = .ok u c') :
    c'.Sound ∧ c'.log.failed = false ∧ c.Places c' := by
  have hacc := h.accounted hok
  obtain ⟨hnd, hlt⟩ := hacc.nodup
  obtain ⟨t, r, hr, rfl⟩ := resolve_inv hrun
  obtain ⟨hfailed, hgrows⟩ := Resolve.run_grows hr hnd hlt
  -- The parts of a program stand in no place in which an expression would be cast.
  have hroles : ∀ p ∈ c.tree.children, p.1 ≠ .arguments ∧ p.1 ≠ .right := by
    intro p hp
    have hmem := (roles_tree c).mem (mem_map_of_mem (f := (·.1)) hp)
    revert hmem
    generalize p.1 = role
    cases role <;> decide
  obtain ⟨n, f, rfl, hroot, hparts⟩ := Resolve.parts_of_run hr hnd hlt h.root hroles
  have hsub : ((Tree.mk n (c.tree.children.map fun p => (p.1, f p.2))).children.map
      (·.1)).Sublist parts := by
    rw [Tree.children, map_map]
    exact roles_tree c
  refine ⟨⟨fun _ => hacc.setTree c.machines hsub hgrows.gains, hroot, fun s hs => ?_,
    h.machines⟩, hfailed, fun _ => hok, .inr rfl⟩
  obtain ⟨p, hp, heq⟩ := mem_map.mp (mem_of_lookup hs)
  obtain ⟨hrole, rfl⟩ := Prod.mk.inj heq
  exact (hparts p hp).2 (h.source p.2 (source_of_mem hp hrole))

/-- The state in which the functions of a compilation are cut. -/
def cutter (rq : Request) (c : Compilation) : Cutter where
  log := c.log
  machines := c.machines.setPrefix rq.pluginPrefix
  index := IdMap.empty.addTree c.tree
  splitAll := rq.splitAll

/-- Cutting keeps the account, and the tree is cut. -/
theorem cut_inv (h : c.Sound) (hok : c.log.failed = false) (hrun : cut rq c = .ok u c') :
    c'.Accounted ∧ c'.log.failed = false ∧ c.Places c' ∧
      ∃ k, Cutting.CutsTree (cutter rq c) c.tree c'.tree k ∧
        k.log = c'.log ∧ k.machines = c'.machines := by
  unfold cut at hrun
  dsimp only at hrun
  generalize hp : (Cutting.program rq.pluginPrefix c.tree).run _ = done at hrun
  obtain ⟨t, k⟩ := done
  cases hf : k.fault with
  | some f =>
    simp only [hf] at hrun
    cases hrun
  | none =>
    simp only [hf] at hrun
    cases hrun
    -- Only the source is cut, and it is as the parser gave it.
    have hready : Cutting.Ready c.tree := by
      refine ⟨fun hk => ?_, fun p hp hr => ?_⟩
      · rw [show c.tree.kind = .root from h.root] at hk
        cases hk
      · exact Cutting.parsed_of_uncut (h.source p.2 (source_of_mem hp (hr h.root)))
    obtain ⟨hok', -, hcuts⟩ := Cutting.cutsTree_of_program hp hf hready
    have hroles : (t.children.map (·.1)).Sublist parts := by
      rw [hcuts.roles]
      exact roles_tree c
    have hgains : c.log.Gains k.log c.tree.bag t.bag := hcuts.gains
    refine ⟨(h.accounted hok).setTree k.machines hroles hgains, hok', ⟨fun _ => hok, .inr rfl⟩, k,
      ?_, rfl, rfl⟩
    rw [tree_place, show tree { c.setTree t with log := k.log, machines := k.machines } = t from
      c.tree_setTree hroles]
    exact hcuts

/-! ## All stages -/

/-- Stages one after the other. -/
def inOrder : List (Stage Unit) → Stage Unit
  | [] => return
  | s :: rest => do
    s
    inOrder rest

/-- What is known of a compilation behind some number of stages. -/
def Reached : Nat → Compilation → Prop
  | 0, c => c.Sound ∧ c.manifest = none ∧ c.papi = none ∧ c.source = none
  | 1, c => c.Sound ∧ c.manifest = none ∧ c.source = none
  | 2, c => c.Sound ∧ c.source = none
  | 3, c | 4, c | 5, c => c.Sound ∧ c.log.failed = false
  | _ + 6, c => c.Accounted

/-- Where the stages can be taken up: at the very beginning, or behind some of them. -/
inductive Ready : Nat → Compilation → Prop
  | start : Ready 0 {}
  | behind {i : Nat} {c : Compilation} (h : Reached i c) (hl : c.Linked) : Ready (i + 1) c

theorem Reached.accounted {i : Nat} (h : Reached i c) (hok : c.log.failed = false) :
    c.Accounted := by
  rcases i with _ | _ | _ | _ | _ | _ | i
  case zero | succ.zero | succ.succ.zero | succ.succ.succ.zero | succ.succ.succ.succ.zero |
    succ.succ.succ.succ.succ.zero => exact h.1.accounted hok
  case succ => exact h

end Compilation

/-! ## An example -/

namespace Sample

def named (id : NodeId) (name : String) : Tree := .mk ((node id .simpleType).named name) []

def number (id : NodeId) (text : String) : Tree :=
  .mk ((node id .integerLiteral).setText .literal (some text)) []

/-- A type of numbers to which those that are written down can be cast. -/
def numeric (id : NodeId) (name : String) : Tree :=
  .mk ((node id .intDecl).named name) [
    (.operators, .mk (node (id + 1) .declarationList) []),
    (.castRules, .mk (node (id + 2) .declarationList) [
      (.declarations, .mk (node (id + 3) .castRule) [
        (.sourceType, named (id + 4) "sa_int_literal"),
        (.targetType, .mk ((node (id + 5) .refType).setLink .typeDeclaration (some id)) [])])])]

def argument (id : NodeId) (name : String) : Tree :=
  .mk ((node id .argumentDecl).named name) [(.parameterType, named (id + 1) "uint8_t")]

def pointer (id : NodeId) (name : String) : Tree :=
  .mk ((node id .argumentDecl).named name) [
    (.parameterType, .mk (node (id + 1) .pointerType) [(.pointedType, named (id + 2) "void")])]

def procedure (id : NodeId) (result name : String) (params : List Tree) : Tree :=
  .mk ((node id .functionDecl).named name) [(.returnType, named (id + 1) result),
    (.parameters, .mk (node (id + 2) .argumentDeclList) (params.map (.declarations, ·)))]

def use (id : NodeId) (name : String) : Tree := .mk ((node id .variableUse).named name) []

def calls (id : NodeId) (name : String) (arg : Tree) : Tree :=
  .mk (((node id .call).named name).setFlag .blocking
    (Construction.blockingFunctions.contains name)) [
    (.argumentList, .mk (node (id + 1) .argumentList) [(.arguments, arg)])]

def calling (id : NodeId) (name : String) (arg : Tree) : Role × Tree :=
  (.statements, .mk (node id .callStatement) [(.expression, calls (id + 1) name arg)])

def returning (id : NodeId) (value : Tree) : Role × Tree :=
  (.statements, .mk (node id .returnStatement) [(.expression, value)])

def variableWith (id : NodeId) (name value : String) : Role × Tree :=
  (.statements, .mk ((node id .variableDeclaration).named name) [
    (.declaredType, named (id + 1) "uint8_t"), (.initializer, number (id + 2) value)])

/-- A plugin with two variables of one name, and with a call whose result is an argument of another
one. -/
def request : Request where
  papi := some "void papi_sleep(uint8_t t);void g(uint8_t x);"
  source := "uint8_t s(uint8_t a)\x7bpapi_sleep(a);return a;\x7d" ++
    "uint8_t p_plugin_handler(void* c,void* i,void* d,void* p,uint8_t r,void* w,uint8_t b)" ++
    "\x7bif(1)\x7buint8_t x=1;papi_sleep(1);g(x);\x7duint8_t x=2;g(s(x));return x;\x7d"

def manifest : Manifest := ⟨.mk "smartanthill.plugin" [] "" []⟩

/-- The plugin as it has been read, with few built-in declarations. -/
def plugin : Compilation :=
  Compilation.place ({ · with
    builtins := some (.mk (node 1 .declarationList) [
      (.declarations, .mk ((node 2 .voidDecl).named "void") []),
      (.declarations, .mk ((node 3 .basicDecl).named "_zc_dont_care") []),
      (.declarations, .mk ((node 4 .basicDecl).named "sa_int_literal") []),
      (.declarations, numeric 5 "uint8_t"), (.declarations, numeric 11 "bool"),
      (.declarations, numeric 93 "uint32_t")])
    papi := some (.mk (node 17 .pluginSource) [
      (.declarationList, .mk (node 18 .declarationList) [
        (.declarations, procedure 19 "void" "papi_sleep" [argument 22 "t"]),
        (.declarations, procedure 24 "void" "g" [argument 27 "x"])])])
    source := some (.mk ((node 29 .pluginSource).setText .pluginPrefix (some "p")) [
      (.declarationList, .mk (node 30 .declarationList) [
        (.declarations, .mk (node 31 .functionDefinition) [
          (.declaration, procedure 32 "uint8_t" "s" [argument 35 "a"]),
          (.body, .mk (node 37 .statementList) [
            calling 38 "papi_sleep" (use 41 "a"), returning 42 (use 43 "a")])]),
        (.declarations, .mk (node 44 .functionDefinition) [
          (.declaration, procedure 45 "uint8_t" "p_plugin_handler" [
            pointer 48 "c", pointer 51 "i", pointer 54 "d", pointer 57 "p", argument 60 "r",
            pointer 62 "w", argument 65 "b"]),
          (.body, .mk (node 67 .statementList) [
            (.statements, .mk (node 68 .ifElse) [
              (.expression, number 69 "1"),
              (.thenBranch, .mk (node 70 .statementList) [
                variableWith 71 "x" "1", calling 74 "papi_sleep" (number 77 "1"),
                calling 78 "g" (use 81 "x")])]),
            variableWith 82 "x" "2", calling 85 "g" (calls 88 "s" (use 90 "x")),
            returning 91 (use 92 "x")])])])]) })
    { log := { nextId := 99 }, root := node 0 .root }

theorem plugin_sound : plugin.Sound where
  accounted _ := Multiset.coe_eq_coe.mpr (by decide +kernel)
  root := rfl
  source s hs := by
    obtain rfl := Option.some.inj hs
    decide +kernel
  machines := rfl

end Sample

namespace Compilation

end Compilation

end Resumable
