import Mathlib.Data.List.Nodup
import Mathlib.Data.List.Perm.Subperm
import Resumable.Construction.Constituent
import Resumable.Persistence
import Resumable.Proofs.Lines

/-!
# Names for the variables of a structure

The variables that outlive a state are fields of one structure, so their names have to differ. A
variable keeps its name if no variable before it has it, and gets a number behind its name
otherwise.

* `Persistence.freeName_spec`: a free name is found.
* `Persistence.Renamed.nodup`, `Persistence.Renamed.not_reserved`: the names that are given differ
  and are not reserved.
* `Persistence.distinct_spec`: all variables with a name get one.
-/

namespace Resumable

open List

/-! ## The name of a node -/

theorem Node.lookup_assign_self {κ α : Type} [DecidableEq κ] (k : κ) (a : α) (l : List (κ × α)) :
    (assign k a l).lookup k = some a := by
  induction l with
  | nil => simp [assign]
  | cons p l ih =>
    rw [assign]
    split
    · simp
    · next hne => rw [lookup_cons, beq_eq_false_iff_ne.mpr (Ne.symm hne), ih]

@[simp] theorem Node.text_setText (n : Node) (k : TextKey) (s : Option String) :
    (n.setText k s).text k = .ok s := by
  rw [text, setText, lookup_assign_self]

@[simp] theorem Node.flag_setFlag (n : Node) (k : FlagKey) (b : Bool) :
    (n.setFlag k b).flag k = b := by
  rw [flag, setFlag, lookup_assign_self, Option.getD_some]

/-- The name of a node is its text. -/
theorem Node.name?_of_text {n : Node} {s : Option String} (h : n.text .name = .ok s) :
    n.name? = s := by
  unfold Node.text at h
  unfold Node.name?
  split at h
  · next hlookup =>
    cases h
    rw [hlookup]
    rfl
  · cases h

@[simp] theorem Node.name?_named (n : Node) (s : String) : (n.named s).name? = some s :=
  name?_of_text (n.text_setText _ _)

/-! ## Reserved names -/

/-- Whether a name begins like the names of generated code. -/
def isReserved (name : String) : Bool := reservedStart.toList.isPrefixOf name.toList

/-- A number behind a name makes no reserved name of it. -/
theorem reserved_numbered {name : String} (h : isReserved name = false) (k : Nat) :
    isReserved (name ++ toString k) = false := by
  rw [Bool.eq_false_iff] at h ⊢
  intro hpre
  apply h
  rw [isReserved, isPrefixOf_iff_prefix] at hpre ⊢
  rw [String.toList_append] at hpre
  rcases prefix_or_prefix_of_prefix hpre (prefix_append _ _) with hstart | ⟨rest, hrest⟩
  · exact hstart
  · -- what the number would add to the beginning is no digit
    rw [← hrest, prefix_append_right_inj] at hpre
    cases rest with
    | nil =>
      rw [append_nil] at hrest
      exact hrest ▸ prefix_rfl
    | cons ch rest =>
      have hstart : ch ∈ reservedStart.toList := by
        rw [← hrest]
        simp
      have hdigit := hpre.subset mem_cons_self
      rw [Text.toList_number] at hdigit
      have hdigit := Nat.isDigit_of_mem_toDigits (by decide) (by decide) hdigit
      have hnone : reservedStart.toList.all (!·.isDigit) = true := by decide
      have hother := all_eq_true.mp hnone ch hstart
      rw [hdigit] at hother
      cases hother

namespace Persistence

/-! ## Free names -/

variable {taken : List (Option String)} {base : String}

theorem numbered_injective {j k : Nat} (h : base ++ toString j = base ++ toString k) : j = k := by
  have hl := congrArg String.toList h
  rw [String.toList_append, String.toList_append] at hl
  exact Text.number_injective (append_cancel_left hl)

theorem freeName_or (steps i : Nat) :
    (∃ j, i < j ∧ freeName taken base steps i = (base ++ toString j, j) ∧
      some (base ++ toString j) ∉ taken) ∨
      ∀ k, i < k → k ≤ i + steps → some (base ++ toString k) ∈ taken := by
  induction steps generalizing i with
  | zero => exact Or.inr fun k hk hle => absurd hle (by omega)
  | succ steps ih =>
    rw [freeName]
    split
    · next hhere =>
      rcases ih (i + 1) with ⟨j, hj, heq, hfree⟩ | hall
      · exact Or.inl ⟨j, by omega, heq, hfree⟩
      · refine Or.inr fun k hk hle => ?_
        rcases Nat.lt_or_ge (i + 1) k with hlt | hge
        · exact hall k hlt (by omega)
        · obtain rfl : k = i + 1 := by omega
          exact hhere
    · next hfree => exact Or.inl ⟨i + 1, by omega, rfl, hfree⟩

/-- Among more numbers than names one is free. -/
theorem freeName_spec {steps : Nat} (h : taken.length < steps) (i : Nat) :
    ∃ j, freeName taken base steps i = (base ++ toString j, j) ∧
      some (base ++ toString j) ∉ taken := by
  rcases @freeName_or taken base steps i with ⟨j, -, heq, hfree⟩ | hall
  · exact ⟨j, heq, hfree⟩
  · -- otherwise the numbered names, which are all different, are too many
    have hnodup : ((List.range' (i + 1) steps).map fun k => some (base ++ toString k)).Nodup := by
      refine List.Nodup.map (fun j k hjk => ?_) nodup_range'
      exact numbered_injective (Option.some.inj hjk)
    have hsub : ((List.range' (i + 1) steps).map fun k => some (base ++ toString k)) ⊆ taken := by
      intro name hname
      obtain ⟨k, hk, rfl⟩ := mem_map.mp hname
      rw [mem_range'_1] at hk
      exact hall k (by omega) (by omega)
    have hle := (subperm_of_subset hnodup hsub).length_le
    rw [length_map, length_range'] at hle
    omega

/-! ## Different names -/

/-- Names become other names one behind the other, when some are taken already: a name stays unless
it is taken, and gets a number then. -/
inductive Renamed : List String → List String → List String → Prop
  | nil {taken : List String} : Renamed taken [] []
  | stays {taken : List String} {name : String} {names names' : List String}
      (hfree : name ∉ taken) (h : Renamed (taken ++ [name]) names names') :
      Renamed taken (name :: names) (name :: names')
  | numbered {taken : List String} {name : String} {names names' : List String} {k : Nat}
      (htaken : name ∈ taken) (hfree : name ++ toString k ∉ taken)
      (h : Renamed (taken ++ [name ++ toString k]) names names') :
      Renamed taken (name :: names) ((name ++ toString k) :: names')

namespace Renamed

variable {taken names names' : List String}

theorem length_eq (h : Renamed taken names names') : names'.length = names.length := by
  induction h with
  | nil => rfl
  | stays _ _ ih | numbered _ _ _ ih => rw [length_cons, length_cons, ih]

/-- The new names differ, also from those that were taken. -/
theorem nodup (h : Renamed taken names names') (ht : taken.Nodup) : (taken ++ names').Nodup := by
  have hsnoc : ∀ {taken : List String} {name : String}, taken.Nodup → name ∉ taken →
      (taken ++ [name]).Nodup := by
    intro taken name ht hfree
    exact nodup_append'.mpr ⟨ht, nodup_singleton _, by simpa using hfree⟩
  induction h with
  | nil => rwa [append_nil]
  | stays hfree _ ih | numbered _ hfree _ ih => simpa using ih (hsnoc ht hfree)

/-- The new names are not reserved if the old ones were not. -/
theorem not_reserved (h : Renamed taken names names')
    (hnames : ∀ name ∈ names, isReserved name = false) :
    ∀ name ∈ names', isReserved name = false := by
  induction h with
  | nil => exact hnames
  | stays hfree h ih =>
    obtain ⟨hname, hrest⟩ := forall_mem_cons.mp hnames
    exact forall_mem_cons.mpr ⟨hname, ih hrest⟩
  | @numbered taken name names names' k htaken hfree h ih =>
    obtain ⟨hname, hrest⟩ := forall_mem_cons.mp hnames
    exact forall_mem_cons.mpr ⟨reserved_numbered hname k, ih hrest⟩

end Renamed

/-- Variables with their names. -/
def withNames (vs : List NodeId) (names : List String) : List (NodeId × Option String) :=
  vs.zip (names.map some)

/-- Names are given one after the other. -/
theorem distinct_go_spec (taken names : List String) (vs : List NodeId)
    (hlen : vs.length = names.length) (i : Nat) :
    ∃ names', Renamed taken names names' ∧
      distinct.go (taken.map some) i (withNames vs names) = (withNames vs names', none) := by
  induction names generalizing taken vs i with
  | nil =>
    obtain rfl := eq_nil_of_length_eq_zero hlen
    exact ⟨[], .nil, rfl⟩
  | cons name names ih =>
    obtain _ | ⟨v, vs⟩ := vs
    · cases hlen
    have hlen' : vs.length = names.length := Nat.succ.inj hlen
    have htaken : some name ∈ taken.map some ↔ name ∈ taken := by simp
    -- A name that is taken gets the next free number, and counting goes on from there.
    by_cases hname : name ∈ taken
    · obtain ⟨k, heq, hfree⟩ := @freeName_spec (taken.map some) name _ (Nat.lt_succ_self _) i
      obtain ⟨names', h, hgo⟩ := ih (taken ++ [name ++ toString k]) vs hlen' k
      refine ⟨_, .numbered hname (by simpa using hfree) h, ?_⟩
      rw [withNames, map_cons, zip_cons_cons, distinct.go, if_pos (htaken.mpr hname)]
      rw [map_append] at hgo
      simp only [heq]
      rw [show vs.zip (names.map some) = withNames vs names from rfl]
      rw [show [some (name ++ toString k)] = [name ++ toString k].map some from rfl, hgo]
      rfl
    · obtain ⟨names', h, hgo⟩ := ih (taken ++ [name]) vs hlen' i
      refine ⟨_, .stays hname h, ?_⟩
      rw [withNames, map_cons, zip_cons_cons, distinct.go, if_neg (mt htaken.mp hname)]
      rw [map_append] at hgo
      rw [show vs.zip (names.map some) = withNames vs names from rfl,
        show [some name] = [name].map some from rfl, hgo]
      rfl

/-- All variables that have a name get one, whatever the names are, and the new names are chosen
one behind the other. -/
theorem distinct_spec (names : List String) {vs : List NodeId} (hlen : vs.length = names.length) :
    ∃ names', Renamed [] names names' ∧
      distinct (withNames vs names) = (withNames vs names', none) :=
  distinct_go_spec [] names vs hlen 0

end Persistence

end Resumable
