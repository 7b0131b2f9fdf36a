import Resumable.Proofs.Uncut

/-!
# Other names

Variables that outlive a state get names that differ from one another. What is proved about a tree
with other names rests on this: nothing but names changes.

* `Renames`: a change of nodes that gives some of them other names.
* `Renames.congr`: whatever does not depend on the name of a node is left as it is.
-/

namespace Resumable

open List

/-- What is found under another key does not change. -/
theorem lookup_assign {κ α : Type} [DecidableEq κ] {k k' : κ} (hk : k' ≠ k) (a : α)
    (l : List (κ × α)) : (Node.assign k a l).lookup k' = l.lookup k' := by
  have hne : (k' == k) = false := beq_false_of_ne hk
  induction l with
  | nil => simp [Node.assign, lookup_cons, hne]
  | cons p l ih =>
    obtain ⟨k₁, a₁⟩ := p
    unfold Node.assign
    split
    · next h =>
      subst h
      simp [lookup_cons, hne]
    · rw [lookup_cons, lookup_cons, ih]

namespace Tree

@[simp] theorem mapNodes_go_append (g : Node → Node) (xs ys : Children) :
    mapNodes.go g (xs ++ ys) = mapNodes.go g xs ++ mapNodes.go g ys := by
  induction xs with
  | nil => rfl
  | cons p xs ih =>
    obtain ⟨r, t⟩ := p
    simp [mapNodes.go, ih]

theorem mapNodes_go_eq_map (g : Node → Node) (cs : Children) :
    mapNodes.go g cs = cs.map fun p => (p.1, p.2.mapNodes g) :=
  eq_map rfl (fun _ _ _ => rfl) cs

theorem mapNodes_go_statements (g : Node → Node) (r : Role) (ts : List Tree) :
    mapNodes.go g (ts.map (r, ·)) = (ts.map (mapNodes g)).map (r, ·) := by
  rw [mapNodes_go_eq_map, map_map, map_map]
  rfl

theorem inRole_mapNodes (g : Node → Node) (t : Tree) (r : Role) :
    (t.mapNodes g).inRole r = (t.inRole r).map (mapNodes g) := by
  obtain ⟨n, cs⟩ := t
  rw [mapNodes, inRole, inRole, children, children, mapNodes_go_eq_map, filterMap_map,
    map_filterMap]
  refine filterMap_congr fun p _ => ?_
  dsimp only [Function.comp]
  split <;> rfl

theorem lookup_mapNodes (g : Node → Node) (r : Role) (cs : Children) :
    (mapNodes.go g cs).lookup r = (cs.lookup r).map (mapNodes g) := by
  rw [mapNodes_go_eq_map, lookup_map]

theorem mapNodes_id : (t : Tree) → t.mapNodes (fun n => n) = t :=
  ofSmaller fun t ih => by
    obtain ⟨n, cs⟩ := t
    rw [mapNodes, mapNodes_go_eq_map]
    congr 1
    refine (map_congr_left fun p hp => ?_).trans (map_id cs)
    rw [ih p.2 (sizeOf_child hp)]
    rfl

theorem mapNodes_go_id (cs : Children) : mapNodes.go (fun n => n) cs = cs := by
  simp [mapNodes_go_eq_map, mapNodes_id]

end Tree

/-- A change of nodes that gives some of them other names and leaves all else. -/
def Renames (g : Node → Node) : Prop := ∀ n, g n = n ∨ ∃ name, g n = n.setText .name name

theorem renames_id : Renames fun n => n := fun _ => Or.inl rfl

theorem renames_names (names : List (NodeId × Option String)) :
    Renames fun n =>
      match names.lookup n.id with
      | some name => n.setText .name name
      | none => n := by
  intro n
  dsimp only
  split
  · exact Or.inr ⟨_, rfl⟩
  · exact Or.inl rfl

namespace Renames

variable {g : Node → Node}

/-- A property of a node that does not see its name does not see other names. -/
theorem congr {α : Type} {q : Node → α} (hg : Renames g)
    (hq : ∀ n name, q (n.setText .name name) = q n) (n : Node) : q (g n) = q n := by
  rcases hg n with h | ⟨name, h⟩
  · rw [h]
  · rw [h, hq]

theorem id (hg : Renames g) (n : Node) : (g n).id = n.id := hg.congr (fun _ _ => rfl) n

theorem kind (hg : Renames g) (n : Node) : (g n).kind = n.kind := hg.congr (fun _ _ => rfl) n

theorem origin (hg : Renames g) (n : Node) : (g n).origin = n.origin :=
  hg.congr (fun _ _ => rfl) n

theorem link? (hg : Renames g) (n : Node) (k : LinkKey) : (g n).link? k = n.link? k :=
  hg.congr (q := (·.link? k)) (fun _ _ => rfl) n

theorem flag (hg : Renames g) (n : Node) (k : FlagKey) : (g n).flag k = n.flag k :=
  hg.congr (q := (·.flag k)) (fun _ _ => rfl) n

theorem text (hg : Renames g) (n : Node) {k : TextKey} (hk : k ≠ .name) :
    (g n).texts.lookup k = n.texts.lookup k :=
  hg.congr (q := (·.texts.lookup k)) (fun _ _ => lookup_assign hk _ _) n

theorem kind_mapNodes (hg : Renames g) (t : Tree) : (t.mapNodes g).kind = t.kind := by
  cases t
  exact hg.kind _

end Renames

end Resumable
