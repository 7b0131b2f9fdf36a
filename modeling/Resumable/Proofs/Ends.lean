import Resumable.Proofs.Pending
import Resumable.Proofs.Walk.Rows

/-!
# The end of a function

Control does not leave a statement at its end if it is a `return`, if a statement in it is so, or
if both its branches are. Cutting keeps that, and behind such a statement no state is stored.

* `Cutting.Becomes.closed`: a statement is left at its end exactly if what is made of it is.
* `Cutting.Becomes.settled`: no state is stored behind a live statement that is not left at its end.
* `Cutting.BecomesAll.settled`: nor is one behind a list of statements.
-/

namespace Resumable

open List Resumable.Tree

variable {cs : Children} {t : Tree} {n : Node} {ts : List Tree}

namespace Tree

/-- Whether control is known not to leave a statement at its end. -/
def shut (t : Tree) : Bool :=
  match t.closed with
  | .ok b => b
  | .error _ => false

/-- Whether no statement stands behind one that control does not leave. The resolution of names
accepts no others. -/
def live : Tree → Bool
  | mk n cs => if n.kind = .statementList then inList cs else inParts cs
where
  inList : Children → Bool
    | [] => true
    | (_, t) :: rest => t.live && (rest.isEmpty || !t.shut) && inList rest
  inParts : Children → Bool
    | [] => true
    | (_, t) :: rest => t.live && inParts rest

theorem live_parts (h : live.inList cs = true ∨ live.inParts cs = true) :
    ∀ p ∈ cs, p.2.live = true := by
  induction cs with
  | nil => simp
  | cons p cs ih =>
    simp only [live.inList, live.inParts, Bool.and_eq_true] at h
    rcases h with h | h
    · exact forall_mem_cons.mpr ⟨h.1.1, ih (Or.inl h.2)⟩
    · exact forall_mem_cons.mpr ⟨h.1, ih (Or.inr h.2)⟩

/-- The parts of a tree without unreachable statements have none either. -/
theorem live_child (h : (mk n cs).live = true) {p : Role × Tree} (hp : p ∈ cs) :
    p.2.live = true := by
  rw [live] at h
  split at h
  · exact live_parts (Or.inl h) p hp
  · exact live_parts (Or.inr h) p hp

theorem live_drop (h : live.inList cs = true) (k : Nat) : live.inList (cs.drop k) = true := by
  induction cs generalizing k with
  | nil => simpa using h
  | cons p cs ih =>
    cases k with
    | zero => exact h
    | succ k =>
      rw [live.inList, Bool.and_eq_true] at h
      exact ih h.2 k

/-- Control goes on behind a plain statement. -/
theorem closed_plain (h : t.kind.plain = true) : t.closed = .ok false := by
  obtain ⟨n, cs⟩ := t
  change n.kind.plain = true at h
  rw [closed]
  split
  case h_4 => rfl
  all_goals
    next hk =>
    rw [hk] at h
    cases h

/-- Control may go on behind a loop, whatever its body does. -/
theorem closed_loop (h : n.kind.loops = true) : (mk n cs).closed = .ok false := by
  rw [closed]
  split
  case h_4 => rfl
  all_goals
    next hk =>
    rw [hk] at h
    cases h

@[simp] theorem pending_inList_append (s : Bool) (xs ys : Children) :
    pending.inList s (xs ++ ys) = pending.inList (pending.inList s xs) ys := by
  induction xs generalizing s with
  | nil => rfl
  | cons p xs ih => exact ih (p.2.pending s)

theorem some?_of_plain {xs ys : Children} (h : ∀ p ∈ xs, p.2.kind.plain = true) :
    closed.some? (closed.go (xs ++ ys)) = closed.some? (closed.go ys) := by
  induction xs with
  | nil => rfl
  | cons p xs ih =>
    obtain ⟨hp, hxs⟩ := forall_mem_cons.mp h
    rw [cons_append, closed.go, closed_plain hp]
    exact ih hxs

/-- A list is closed if its first part is or the rest of it. -/
theorem some?_append (xs ys : Children) :
    closed.some? (closed.go (xs ++ ys)) =
      (closed.some? (closed.go xs) >>= fun b =>
        if b then .ok true else closed.some? (closed.go ys)) := by
  induction xs with
  | nil => rfl
  | cons p xs ih =>
    obtain ⟨r, t⟩ := p
    rw [cons_append, closed.go, closed.go, closed.some?, closed.some?]
    cases t.closed with
    | error e => rfl
    | ok x =>
      cases x with
      | true => rfl
      | false => exact ih

theorem closed_part (r : Role) (cs : Children) :
    (closed.go cs).lookup r = (cs.lookup r).map closed := by
  rw [eq_map (F := closed.go) (f := fun p => (p.1, p.2.closed)) rfl (fun _ _ _ => rfl), lookup_map]

/-- A branch is closed if it has two branches and both are. -/
theorem closed_branch (hk : n.kind = .ifElse) (h : (mk n cs).closed = .ok true) :
    ∃ a b, cs.lookup .thenBranch = some a ∧ a.closed = .ok true ∧
      cs.lookup .elseBranch = some b ∧ b.closed = .ok true := by
  simp only [closed, hk, closed_part] at h
  cases hb : cs.lookup .elseBranch with
  | none =>
    rw [hb] at h
    cases h
  | some b =>
    cases ha : cs.lookup .thenBranch with
    | none =>
      rw [ha, hb] at h
      cases h
    | some a =>
      rw [ha, hb] at h
      simp only [Option.map_some] at h
      cases hca : a.closed with
      | error e =>
        rw [hca] at h
        cases h
      | ok x =>
        rw [hca] at h
        cases x with
        | false => cases h
        | true => exact ⟨a, b, rfl, hca, rfl, h⟩

/-- In a live list that is closed, the statement that closes it is the last one. -/
theorem closed_cons {r : Role} (hl : live.inList ((r, t) :: cs) = true)
    (h : closed.some? (closed.go ((r, t) :: cs)) = .ok true) :
    t.closed = .ok true ∧ t.live = true ∧ cs = [] ∨
      live.inList cs = true ∧ closed.some? (closed.go cs) = .ok true := by
  rw [live.inList, Bool.and_eq_true, Bool.and_eq_true] at hl
  obtain ⟨⟨ht, hshut⟩, hcs⟩ := hl
  rw [closed.go, closed.some?] at h
  cases hc : t.closed with
  | error e =>
    rw [hc] at h
    cases h
  | ok x =>
    rw [hc] at h
    cases x with
    | true => exact Or.inl ⟨rfl, ht, by simpa [shut, hc] using hshut⟩
    | false => exact Or.inr ⟨hcs, h⟩

mutual

theorem closed_mapNodes {g : Node → Node} (hg : Renames g) :
    (t : Tree) → (t.mapNodes g).closed = t.closed
  | mk n cs => by rw [mapNodes, closed, closed, hg.kind, closed_go_mapNodes hg cs]

theorem closed_go_mapNodes {g : Node → Node} (hg : Renames g) :
    (cs : Children) →
    closed.go (mapNodes.go g cs) = closed.go cs
  | [] => rfl
  | (_, t) :: rest => by
    rw [mapNodes.go, closed.go, closed.go, closed_mapNodes hg t, closed_go_mapNodes hg rest]

end

end Tree

namespace Cutting

open Resumable.Tree

theorem not_closed_of_plain (h : t.kind.plain = true) : t.closed ≠ .ok true := by
  rw [closed_plain h]
  intro h
  cases h

theorem pending_row {s : Bool} {xs : List Tree} (h : ∀ s, t.pending s = false) :
    pending.inList s ((xs ++ [t]).map (Role.statements, ·)) = false := by
  rw [map_append, pending_inList_append]
  exact h _

/-- Operands do not change which block of a compound statement is closed. -/
theorem CutsOperands.settled {stmt : Origin} {c c' : Cutter} {cs cs' : Children}
    (h : CutsOperands stmt c cs cs' c') {blocks blocks' : Children} {r : Role} {b : Tree}
    {s : Bool} (hr : (cs ++ blocks).lookup r = some b) (hc : b.closed = .ok true)
    (hblocks : blocks.lookup r = some b → pending.inPart s r blocks' = false) :
    pending.inPart s r (cs' ++ blocks') = false :=
  match h with
  | .nil => hblocks hr
  | .cons (r := r') h hs => by
    rw [cons_append, lookup_cons] at hr
    rw [cons_append, pending.inPart]
    by_cases heq : r = r'
    · simp only [heq, beq_self_eq_true] at hr
      cases hr
      exact absurd hc (not_closed_of_plain h.plain.1)
    · rw [beq_false_of_ne heq] at hr
      rw [if_neg heq]
      exact hs.settled hr hc hblocks

mutual

/-- Behind a closed statement no state is stored. -/
theorem Becomes.settled {c c' : Cutter} {t : Tree} {ts : List Tree} (h : Becomes c t ts c')
    (hl : t.live = true) (hc : t.closed = .ok true) (s : Bool) :
    pending.inList s (ts.map (Role.statements, ·)) = false :=
  match h with
  | .nop hk | .declaration hk .. | .machineDeclaration hk .. | .expression hk _ | .call hk ..
  | .machineCall hk .. | .wait hk .. => absurd hc (not_closed_of_plain (plain_of_kind hk rfl))
  | .block hk h => by
    simp only [live, closed, hk, if_true] at hl hc
    simpa [pending.inList, pending, hk] using h.settled hl hc s
  | @Becomes.branch _ _ _ _ _ blocks _ _ hk h₁ h₂ => by
    -- Control leaves neither branch, and operands store nothing.
    obtain ⟨a, b, ha, hca, hb, hcb⟩ := closed_branch hk hc
    have hlive : ∀ {r : Role} {t : Tree}, blocks.lookup r = some t → t.live = true := fun hr =>
      live_child hl (mem_append_right _ (mem_of_lookup hr))
    refine pending_row fun s => ?_
    rw [pending, hk]
    simp only
    rw [h₁.settled ha hca fun hr => h₂.settled hr (hlive hr) hca s,
      h₁.settled hb hcb fun hr => h₂.settled hr (hlive hr) hcb s]
    rfl
  | .loop hk h₁ h₂ hp => by
    rw [closed_loop hk] at hc
    cases hc
  | .leave hk h => by
    refine pending_row fun s => ?_
    simp [pending, hk]

theorem BecomesAll.settled : ∀ {c c' : Cutter} {cs cs' : Children},
    BecomesAll c cs cs' c' → live.inList cs = true → closed.some? (closed.go cs) = .ok true →
      ∀ s, pending.inList s cs' = false
  | _, _, _, _, .nil, _, hc, _ => nomatch hc
  | _, _, _, _, .cons h hs, hl, hc, s => by
    rw [pending_inList_append]
    rcases closed_cons hl hc with ⟨ht, hlt, rfl⟩ | ⟨hlcs, hcs⟩
    · cases hs
      exact h.settled hlt ht s
    · exact hs.settled hlcs hcs _

theorem BecomesBlocks.settled : ∀ {c c' : Cutter} {cs cs' : Children},
    BecomesBlocks c cs cs' c' → ∀ {r : Role} {b : Tree}, cs.lookup r = some b → b.live = true →
      b.closed = .ok true → ∀ s, pending.inPart s r cs' = false
  | _, _, _, _, .nil, _, _, hr, _, _, _ => nomatch hr
  | _, _, _, _, .cons (r := r') hk h hs, r, _, hr, hl, hc, s => by
    rw [lookup_cons] at hr
    rw [pending.inPart]
    by_cases heq : r = r'
    · simp only [heq, beq_self_eq_true] at hr
      cases hr
      simp only [live, closed, hk, if_true] at hl hc
      rw [if_pos heq, pending, hk]
      exact h.settled hl hc s
    · rw [beq_false_of_ne heq] at hr
      rw [if_neg heq]
      exact hs.settled hr hl hc s

end

theorem closed_row (h : ∀ s ∈ ts, s.kind.plain = true) :
    closed.some? (closed.go (ts.map (Role.statements, ·))) = .ok false := by
  have := @some?_of_plain (ts.map (Role.statements, ·)) [] (by simpa using h)
  rwa [append_nil] at this

theorem closed_row_last (h : ∀ s ∈ ts, s.kind.plain = true) :
    closed.some? (closed.go ((ts ++ [t]).map (Role.statements, ·))) = t.closed := by
  rw [map_append, some?_of_plain (by simpa using h), map_singleton, closed.go, closed.go,
    closed.some?]
  cases t.closed with
  | error e => rfl
  | ok x => cases x <;> rfl

theorem CutsOperands.closed {stmt : Origin} {c c' : Cutter} {cs cs' : Children}
    (h : CutsOperands stmt c cs cs' c') {xs ys : Children}
    (heq : closed.go ys = closed.go xs) : closed.go (cs' ++ ys) = closed.go (cs ++ xs) :=
  match h, heq with
  | .nil, h => h
  | .cons h hs, heq => by
    rw [cons_append, cons_append, closed.go, closed.go, closed_plain h.plain.1,
      closed_plain h.plain.2, hs.closed heq]

theorem Becomes.closed_plain {c c' : Cutter} (h : Becomes c t ts c') (ht : t.kind.plain = true) :
    closed.some? (closed.go (ts.map (Role.statements, ·))) = t.closed := by
  rw [closed_row (h.plain ht), Tree.closed_plain ht]

mutual

/-- Cutting a statement keeps whether control leaves it at its end. -/
theorem Becomes.closed {c c' : Cutter} {t : Tree} {ts : List Tree} (h : Becomes c t ts c') :
    closed.some? (closed.go (ts.map (Role.statements, ·))) = t.closed :=
  match h with
  | h@(.nop hk) | h@(.declaration hk ..) | h@(.machineDeclaration hk ..) | h@(.expression hk _)
  | h@(.call hk ..) | h@(.machineCall hk ..) | h@(.wait hk ..) =>
    h.closed_plain (plain_of_kind hk rfl)
  | .block hk h => by
    rw [← nil_append [_], closed_row_last (by simp)]
    simp only [closed, hk]
    exact h.closed
  | .branch hk h₁ h₂ => by
    rw [closed_row_last (plain_before h₁ rfl)]
    simp only [closed, hk, h₁.closed h₂.closed]
  | .loop hk h₁ h₂ hp => by
    rw [closed_row_last (plain_before h₁ rfl), closed_loop hk, closed_loop hk]
  | @Becomes.leave _ c₁ _ _ _ o hk h => by
    -- What is put before the `return` does not close the row.
    have hresets : ∀ s ∈ resets o c₁, s.kind.plain = true := by
      intro s hs
      unfold resets at hs
      split at hs
      · cases hs
      · rw [mem_singleton.mp hs]
        rfl
    rw [closed_row_last (forall_mem_append.mpr ⟨plain_before h rfl, hresets⟩)]
    simp only [closed, hk]

theorem BecomesAll.closed {c c' : Cutter} {cs cs' : Children}
    (h : BecomesAll c cs cs' c') : closed.some? (closed.go cs') = closed.some? (closed.go cs) :=
  match h with
  | .nil => rfl
  | .cons h hs => by
    rw [some?_append, h.closed, hs.closed, closed.go, closed.some?]
    rfl

theorem BecomesBlocks.closed {c c' : Cutter} {cs cs' : Children}
    (h : BecomesBlocks c cs cs' c') : closed.go cs' = closed.go cs :=
  match h with
  | .nil => rfl
  | .cons hk h hs => by
    rw [closed.go, closed.go, hs.closed]
    simp only [closed, hk, h.closed]

end

end Cutting

end Resumable
