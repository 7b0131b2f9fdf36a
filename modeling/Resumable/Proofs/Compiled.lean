import Resumable.Proofs.Settled

/-!
# Compilations that give their texts

A compilation that ends well has gone through all stages. What its stages have made is collected
here: the tree of the source as it was read, resolved and cut, and the steps that printed the texts.

* `Compilation.compile_inv`: a compilation that ends well, taken apart into its stages.
* `Compilation.Accepted.compiled`: so is an accepted one.
-/

namespace Resumable

namespace Compilation

open Step

variable {rq : Request} {c c' : Compilation} {out : Output} {u : Unit}

/-- A dump changes the log only. -/
theorem dump_inv {α : Type} {b : Bool} {rest : Stage α} {a : α}
    (h : (if b = true then dumpTree >>= fun _ => rest else rest) c = .ok a c') :
    ∃ ss, rest { c with log := c.log.printAll ss } = .ok a c' := by
  split at h
  · obtain ⟨x, c₁, hdump, hrest⟩ := bind_inv h
    unfold dumpTree at hdump
    obtain ⟨x, c₂, hempty, hdump⟩ := bind_inv hdump
    cases hempty
    obtain ⟨c₃, c₄, hget, hdump⟩ := bind_inv hdump
    cases hget
    obtain ⟨ls, c₅, hls, hend⟩ := bind_inv hdump
    obtain ⟨-, rfl⟩ := lift_inv hls
    cases hend
    exact ⟨["", "\n".intercalate ls], hrest⟩
  · exact ⟨[], h⟩

/-- A revision changes the log only. -/
theorem revise_inv {text : String} (h : revise c = .ok text c') :
    ∃ l, c' = { c with log := l } := by
  unfold revise at h
  dsimp only at h
  split at h
  · cases h
    exact ⟨_, rfl⟩
  · cases h

theorem print_inv {product : Product} {file text : String}
    (h : print product file c = .ok text c') : ∃ l, c' = { c with log := l } := by
  unfold print at h
  dsimp only at h
  split at h
  · cases h
    exact ⟨_, rfl⟩
  · cases h

/-- The source is the tree of the text. -/
theorem reads_of_readSource (h : readSource rq c = .ok u c') :
    ∃ src, c'.source = some src ∧ (Source.ofText rq.source).Reads src := by
  unfold readSource at h
  obtain ⟨⟨text, src⟩, c₁, hread, hset⟩ := bind_inv h
  cases hset
  obtain ⟨rfl, hreads, -⟩ := read_inv hread
  exact ⟨src, rfl, hreads⟩

/-- The course of a compilation that gave its texts: the source that was read, the compilation
before resolution and before cutting, and the one at the end. Printing only adds to the log. -/
structure Compiled (rq : Request) (src : Tree) (start resolved c : Compilation) (out : Output) :
    Prop where
  sound : start.Sound
  passed : start.log.failed = false
  source : start.source = some src
  worded : src.Worded (Source.ofText rq.source).Spells
  resolves : resolve start = .ok () resolved
  cuts : ∃ l, cut rq resolved = .ok () { c with log := l }
  header : ∃ l l', print .stateHeader rq.fileName { c with log := l } =
    .ok out.stateHeader { c with log := l' }
  code : ∃ l l', print .code rq.fileName { c with log := l } = .ok out.code { c with log := l' }

/-- All stages of a compilation that ends well. -/
theorem compile_inv {manifest : String} (h : compile rq manifest {} = .ok out c) :
    (∃ src start resolved, Compiled rq src start resolved c out ∧
      (Source.ofText rq.source).Reads src) ∧
      ∃ l l', revise { c with log := l } = .ok out.revised { c with log := l' } := by
  unfold compile at h
  obtain ⟨_, c₁, hprepare, h⟩ := bind_inv h
  obtain ⟨_, c₂, hsource, h⟩ := bind_inv h
  -- the declarations before the source
  have hprepared : c₁.Sound ∧ c₁.source = none := by
    unfold prepare at hprepare
    obtain ⟨m, k₁, hm, hprepare⟩ := bind_inv hprepare
    obtain ⟨-, rfl⟩ := lift_inv hm
    obtain ⟨_, k₂, hbuiltins, hprepare⟩ := bind_inv hprepare
    obtain ⟨_, k₃, hpapi, hmanifest⟩ := bind_inv hprepare
    obtain ⟨hsound, hnone, hpnone, hsnone, -⟩ := sound_of_makeBuiltins hbuiltins
    obtain ⟨hsound', hnone', hsnone', -⟩ := hsound.readPapi hpnone hpapi
    obtain ⟨hsound'', hsnone'', -⟩ := hsound'.addManifest (hnone'.trans hnone) hmanifest
    exact ⟨hsound'', hsnone''.trans (hsnone'.trans hsnone)⟩
  obtain ⟨hsound, hpassed, -⟩ := hprepared.1.readSource hprepared.2 hsource
  obtain ⟨src, hsrc, hreads⟩ := reads_of_readSource hsource
  -- nothing but the log changes up to resolution
  dsimp only at h
  obtain ⟨ss, h⟩ := dump_inv h
  obtain ⟨_, c₄, haccount, h⟩ := bind_inv h
  obtain ⟨hsound, hfailed⟩ := (hsound.printAll ss).account haccount
  obtain ⟨ss', rfl⟩ := account_inv haccount
  obtain ⟨_, resolved, hresolve, h⟩ := bind_inv h
  obtain ⟨_, c₅, hcut, h⟩ := bind_inv h
  -- nor behind cutting
  obtain ⟨ss'', h⟩ := dump_inv h
  obtain ⟨revised, c₆, hrevise, h⟩ := bind_inv h
  obtain ⟨header, c₇, hheader, h⟩ := bind_inv h
  obtain ⟨code, c₈, hcode, h⟩ := bind_inv h
  obtain ⟨messages, c₉, hmessages, hend⟩ := bind_inv h
  cases hend
  obtain ⟨l₆, rfl⟩ := revise_inv hrevise
  obtain ⟨l₇, rfl⟩ := print_inv hheader
  obtain ⟨l₈, rfl⟩ := print_inv hcode
  obtain ⟨l₉, rfl⟩ := print_inv hmessages
  have hworded : src.Worded (Source.ofText rq.source).Spells := by
    obtain ⟨p, -, hunit⟩ := hreads
    exact hunit.worded
  refine ⟨⟨src, _, resolved, ⟨hsound, hfailed.trans ?_, hsrc, hworded, hresolve, ⟨_, hcut⟩,
    ⟨_, _, hheader⟩, _, _, hcode⟩, hreads⟩, _, _, hrevise⟩
  exact (printAll_log _ ss).2.2.trans hpassed

/-- A source is accepted: a compilation of it gives its texts, or a program that has been read
already goes through the stages behind reading. -/
inductive Accepted (rq : Request) (out : Output) (c : Compilation) : Prop
  | whole {manifest : String} (h : compile rq manifest {} = .ok out c)
  | read {src : Tree} {start resolved : Compilation} (h : Compiled rq src start resolved c out)

theorem Accepted.compiled (h : Accepted rq out c) :
    ∃ src start resolved, Compiled rq src start resolved c out := by
  cases h with
  | whole h =>
    obtain ⟨⟨src, start, resolved, hc, -⟩, -⟩ := compile_inv h
    exact ⟨src, start, resolved, hc⟩
  | read h => exact ⟨_, _, _, h⟩

end Compilation

end Resumable
