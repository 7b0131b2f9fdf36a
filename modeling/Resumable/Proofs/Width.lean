import Resumable.Proofs.Entries
import Resumable.Proofs.Numbering

/-!
# The width of the state

A machine keeps the number of its state in a field of eight bits, but nothing bounds the number of
states of a function. A number that is stored in the field is read back if the function has at most
255 states behind its first one, and only then do all states differ in the field.

* `Cutting.definition_states_fit_iff`: the states of a function fit into the field if there are not
  too many.
* `Cutting.naps_share_a_state`: otherwise two labels are taken for the same state.
-/

namespace Resumable

/-- What is read back from a field of eight bits in which a number was stored. -/
def readBack (k : Nat) : Nat := (UInt8.ofNat k).toNat

theorem readBack_eq_mod (k : Nat) : readBack k = k % 256 := by simp [readBack]

theorem readBack_eq_self_iff (k : Nat) : readBack k = k ↔ k ≤ 255 := by
  rw [readBack_eq_mod]
  omega

namespace Cutting

open Resumable.Tree

/-- The labels of a function are numbered from one on. -/
theorem labels_numbered (last : Nat) :
    (numbered 0 last).filterMap Mark.label? =
      (List.range' 1 last).map fun k : Nat => some (k : Int) := by
  simp [numbered, List.filterMap_map, Function.comp_def, Mark.label?]

/-- The labels of a function that was cut count up from one, and the dispatch knows the last. The
field for the state is declared with eight bits. All states are read back from it, and no two of
them are stored alike, exactly if there are no more than 256 states with the first one. -/
theorem definition_states_fit_iff {f : Tree} {c : Cutter} (hu : f.uncut = true)
    (hk : f.kind = .functionDefinition) (hf : (definition f c).2.fault = none) :
    (∀ s m, Entry.line "uint8_t sa_next;" ∈ Scene.machineStruct s m) ∧
    ∃ last : Nat,
      (definition f c).1.labels = (List.range' 1 last).map (fun k : Nat => some (k : Int)) ∧
      (0 < last → .dispatch (some (last : Int)) ∈ (definition f c).1.marks) ∧
      ((∀ k ≤ last, readBack k = k) ↔ last ≤ 255) ∧
      ((∀ j ≤ last, ∀ k ≤ last, readBack j = readBack k → j = k) ↔ last ≤ 255) := by
  have hcuts := cutsDefinition_of_definition hu hk Prod.mk.eta.symm hf
  obtain ⟨last, hmarks⟩ := hcuts.marks (marks_of_uncut hu)
  have hself : ∀ k ≤ last, last ≤ 255 → readBack k = k := fun k hle hlast =>
    (readBack_eq_self_iff k).mpr (hle.trans hlast)
  refine ⟨fun s m => by simp [Scene.machineStruct], last, ?_, fun hpos => ?_, ⟨?_, ?_⟩, ⟨?_, ?_⟩⟩
  · rw [labels, hmarks]
    split
    · next hzero => simp [hzero]
    · exact labels_numbered last
  · rw [hmarks, if_neg (by omega)]
    exact List.mem_cons_self
  · intro hall
    exact (readBack_eq_self_iff last).mp (hall last le_rfl)
  · exact fun hlast k hle => hself k hle hlast
  · -- the state 256 would be stored as the first one
    intro hinj
    by_contra hlast
    have hzero := hinj 256 (by omega) 0 (Nat.zero_le _) (by simp [readBack_eq_mod])
    cases hzero
  · intro hlast j hj k hle heq
    rwa [hself j hj hlast, hself k hle hlast] at heq

end Cutting

namespace Sample

/-- A call that is a statement and makes the program sleep. -/
def nap (id : NodeId) : Tree :=
  .mk (node id .callStatement) [(.expression, call (id + 1) 50 (id + 2) "papi_sleep" true
    [zero (id + 3)])]

/-- A function that sleeps as often as it is told to. -/
def naps (count : Nat) : Tree :=
  .mk (node 1 .functionDefinition) [(.declaration, (handler.child? .declaration).getD handler),
    (.body, .mk (node 19 .statementList) (((List.range count).map fun i =>
      (.statements, nap (100 + 4 * i))) ++
        [(.statements, .mk (node 38 .returnStatement) [(.expression, zero 39)])]))]

end Sample

namespace Cutting

/-- The states of a handler that sleeps twice fit the field. -/
theorem two_naps_fit :
    let f := (definition (Sample.naps 2) (Sample.cutter false)).1
    (Sample.naps 2).uncut = true ∧ f.labels = [some 1, some 2] ∧ ∀ k ≤ 2, readBack k = k := by
  intro f
  have hlabels : f.labels = [some 1, some 2] := by decide +kernel
  obtain ⟨-, last, hlast, -, hfit, -⟩ := definition_states_fit_iff (c := Sample.cutter false)
    (by decide +kernel : (Sample.naps 2).uncut = true) rfl (by decide +kernel)
  have htwo : 2 = last := by simpa using congrArg List.length (hlabels.symm.trans hlast)
  exact ⟨by decide +kernel, hlabels, fun k hk => hfit.mpr (by omega) k (by omega)⟩

/-- A handler that sleeps 256 times is cut, and its last state is stored as its first one. -/
theorem naps_share_a_state :
    let done := definition (Sample.naps 256) (Sample.cutter false)
    (Sample.naps 256).uncut = true ∧ done.2.fault = none ∧ done.2.log.failed = false ∧
      some (256 : Int) ∈ done.1.labels ∧ readBack 256 = readBack 0 := by
  decide +kernel

end Cutting

end Resumable
