import Mathlib.Data.List.Induction
import Resumable.Persistence

/-!
# The course of a walk

For the variables that outlive a state, a walk through a function is a row of events: variables are
declared and used, states end, loops begin and end. A variable is kept if and only if one of its
uses calls for it: a state ends between its declaration and the use, or the innermost loop around
the use is interrupted by the end of a state.

* `traced_run`: what is known of the variables at any moment, by the events up to it.
* `mem_kept_iff`: a variable is kept if and only if one of its uses calls for it.
-/

namespace Resumable

open List

variable {v : NodeId} {a : Int} {used : List NodeId} {i j : Nat}

/-- What a walk meets that matters for variables. -/
inductive Event where
  | declare (v : NodeId)
  | use (v : NodeId)
  | cut
  | enter
  | exit
deriving Repr, DecidableEq, Inhabited

variable {e : Event} {xs ys before behind es : List Event}

/-! ## Loops in a row of events -/

namespace Event

/-- How many loops an event begins, less those that it ends. -/
def opens : Event → Int
  | enter => 1
  | exit => -1
  | _ => 0

/-- How many more loops begin than end. -/
def depth : List Event → Int
  | [] => 0
  | e :: es => e.opens + depth es

@[simp] theorem depth_append (xs ys : List Event) : depth (xs ++ ys) = depth xs + depth ys := by
  induction xs with
  | nil => simp [depth]
  | cons x xs ih => simp [depth, ih, Int.add_assoc]

@[simp] theorem depth_singleton (e : Event) : depth [e] = e.opens := by simp [depth]

/-- No loop ends that did not begin here. -/
def Stays (es : List Event) : Prop := ∀ xs ys, es = xs ++ ys → 0 ≤ depth xs

/-- Every loop that begins in the events ends in them, and no other loop ends. -/
def Balanced (es : List Event) : Prop := Stays es ∧ depth es = 0

theorem stays_nil : Stays [] := by
  intro xs ys h
  obtain ⟨rfl, -⟩ := append_eq_nil_iff.mp h.symm
  exact Int.le_refl 0

theorem balanced_nil : Balanced [] := ⟨stays_nil, rfl⟩

theorem Stays.left (h : Stays (xs ++ ys)) : Stays xs := by
  rintro us vs rfl
  exact h us (vs ++ ys) (by simp)

theorem Stays.depth_nonneg (h : Stays es) : 0 ≤ depth es :=
  h es [] (by simp)

theorem Stays.append (hx : Stays xs) (hy : ∀ us vs, ys = us ++ vs → 0 ≤ depth xs + depth us) :
    Stays (xs ++ ys) := by
  intro us vs h
  rcases append_eq_append_iff.mp h with ⟨ws, rfl, hws⟩ | ⟨ws, rfl, hws⟩
  · rw [depth_append]
    exact hy ws vs hws
  · exact hx us ws rfl

theorem Stays.concat (h : Stays es) (he : 0 ≤ depth es + e.opens) : Stays (es ++ [e]) := by
  refine h.append fun us vs hus => ?_
  cases us with
  | nil => simpa [depth] using h.depth_nonneg
  | cons u us =>
    rw [cons_append] at hus
    obtain ⟨rfl, hnil⟩ := List.cons.inj hus
    obtain ⟨rfl, -⟩ := append_eq_nil_iff.mp hnil.symm
    simpa using he

/-- What comes behind a balanced row ends no loop of it. -/
theorem Balanced.right (hx : Balanced xs) (h : Stays (xs ++ ys)) : Stays ys := by
  rintro us vs rfl
  have hus := h (xs ++ us) vs (by simp)
  rw [depth_append, hx.2] at hus
  omega

theorem Balanced.append (hx : Balanced xs) (hy : Balanced ys) : Balanced (xs ++ ys) := by
  refine ⟨hx.1.append fun us vs h => ?_, by rw [depth_append, hx.2, hy.2]; rfl⟩
  have hus := hy.1 us vs h
  rw [hx.2]
  omega

theorem balanced_of_flat (h : ∀ e ∈ es, e.opens = 0) : Balanced es := by
  induction es with
  | nil => exact balanced_nil
  | cons e es ih =>
    obtain ⟨he, hes⟩ := forall_mem_cons.mp h
    have hhead : Balanced [e] := ⟨stays_nil.concat (by rw [he]; decide), by simp [he]⟩
    exact hhead.append (ih hes)

/-- A loop around a balanced row is balanced. -/
theorem Balanced.loop (h : Balanced es) : Balanced (enter :: es ++ [exit]) := by
  have henter : Stays [enter] := stays_nil.concat (by decide)
  have hbody : Stays ([enter] ++ es) := by
    refine henter.append fun us vs hus => ?_
    have := h.1 us vs hus
    rw [depth_singleton, opens]
    omega
  refine ⟨hbody.concat ?_, ?_⟩
  · rw [depth_append, h.2]
    decide
  · simp [depth, opens, h.2]

end Event

/-! ## Runs -/

/-- How far a walk is: what is known about the variables, and the number of states so far. -/
structure Moment where
  known : Persistence
  state : Nat
deriving Repr, DecidableEq, Inhabited

variable {m m' : Moment}

namespace Moment

/-- What an event does. At the end of a loop that a state interrupted, all that was used in it is
kept. -/
def step (m : Moment) : Event → Except Fault Moment
  | .declare v => do return { m with known := ← m.known.declare v m.state }
  | .use v => return { m with known := m.known.use (some v) m.state }
  | .cut => return { m with state := m.state + 1 }
  | .enter => return { m with known := m.known.beginLoop m.state }
  | .exit => do return { m with known := ← m.known.endLoop m.state }

/-- What a row of events does, one after the other. -/
def run (m : Moment) : List Event → Except Fault Moment
  | [] => .ok m
  | e :: es => do (← m.step e).run es

theorem run_append (m : Moment) (xs ys : List Event) :
    m.run (xs ++ ys) = (do (← m.run xs).run ys) := by
  induction xs generalizing m with
  | nil => rfl
  | cons x xs ih =>
    rw [cons_append, run, run]
    cases m.step x with
    | error f => rfl
    | ok m₁ => exact ih m₁

theorem run_append_inv (h : m.run (xs ++ ys) = .ok m') :
    ∃ m₁, m.run xs = .ok m₁ ∧ m₁.run ys = .ok m' := by
  rw [run_append] at h
  cases hx : m.run xs with
  | error f =>
    rw [hx] at h
    cases h
  | ok m₁ =>
    rw [hx] at h
    exact ⟨m₁, rfl, h⟩

theorem run_cons_inv (h : m.run (e :: es) = .ok m') :
    ∃ m₁, m.step e = .ok m₁ ∧ m₁.run es = .ok m' := by
  rw [run] at h
  cases he : m.step e with
  | error f =>
    rw [he] at h
    cases h
  | ok m₁ =>
    rw [he] at h
    exact ⟨m₁, rfl, h⟩

theorem run_concat_inv (h : m.run (es ++ [e]) = .ok m') :
    ∃ m₁, m.run es = .ok m₁ ∧ m₁.step e = .ok m' := by
  obtain ⟨m₁, h₁, h₂⟩ := run_append_inv h
  obtain ⟨m₂, hstep, hnil⟩ := run_cons_inv h₂
  cases hnil
  exact ⟨m₁, h₁, hstep⟩

/-! ## What an event does -/

/-- What a use of a variable leads to. -/
inductive Used (p : Persistence) (v : NodeId) (s : Int) : Persistence → Prop
  | same (h : p.declared.lookup v = none ∨ v ∈ p.kept) : Used p v s p
  | straight (h : p.declared.lookup v = some s) (hl : p.loops = []) : Used p v s p
  | kept {a : Int} (h : p.declared.lookup v = some a) (hs : a ≠ s) :
      Used p v s { p with kept := p.kept ++ [v] }
  | noted {a : Int} {used : List NodeId} {outer : List (Int × List NodeId)}
      (h : p.declared.lookup v = some s) (hl : p.loops = (a, used) :: outer) :
      Used p v s { p with loops := (a, Persistence.adjoin used v) :: outer }

/-- A use of a variable does one of these. -/
theorem used_use (p : Persistence) (v : NodeId) (s : Int) : Used p v s (p.use (some v) s) := by
  unfold Persistence.use
  dsimp only
  split
  · next hd => exact .same (.inl hd)
  · next a hd =>
    split
    · next hkept => exact .same (.inr hkept)
    · split
      · next hs => exact .kept hd hs
      · next hs =>
        have ha : a = s := Decidable.not_not.mp hs
        subst ha
        split
        · next hl => exact .straight hd hl
        · next hl => exact .noted hd hl

theorem mem_adjoin {xs : List NodeId} {x y : NodeId} :
    y ∈ Persistence.adjoin xs x ↔ y ∈ xs ∨ y = x := by
  unfold Persistence.adjoin
  split
  · next h =>
    constructor
    · exact .inl
    · rintro (hy | rfl)
      · exact hy
      · exact h
  · simp

theorem mem_foldl_adjoin {xs : List NodeId} {y : NodeId} :
    y ∈ used.foldl Persistence.adjoin xs ↔ y ∈ xs ∨ y ∈ used := by
  induction used generalizing xs with
  | nil => simp
  | cons x used ih => rw [foldl_cons, ih, mem_adjoin, mem_cons, or_assoc]

/-- What an event leads to. -/
inductive Stepped (m : Moment) : Event → Moment → Prop
  | declare {v : NodeId} (h : m.known.declared.lookup v = none) :
      Stepped m (.declare v)
        { m with known := { m.known with declared := m.known.declared ++ [(v, (m.state : Int))] } }
  | use {v : NodeId} {p : Persistence} (h : Used m.known v m.state p) :
      Stepped m (.use v) { m with known := p }
  | cut : Stepped m .cut { m with state := m.state + 1 }
  | enter : Stepped m .enter
      { m with known := { m.known with loops := (m.state, []) :: m.known.loops } }
  /-- The end of a loop closes the innermost one. If a state ended in it, what was used in the
  loops that were open is kept. -/
  | exit {a : Int} {used kept : List NodeId} {outer : List (Int × List NodeId)}
      (hl : m.known.loops = (a, used) :: outer)
      (hk : ∀ v, v ∈ kept ↔
        v ∈ m.known.kept ∨ a ≠ m.state ∧ ∃ x ∈ m.known.loops, v ∈ x.2) :
      Stepped m .exit { m with known := { m.known with kept := kept, loops := outer } }

/-- What an event has done that was no fault. -/
theorem stepped (h : m.step e = .ok m') : Stepped m e m' := by
  cases e with
  | declare v =>
    dsimp only [step, Persistence.declare] at h
    split at h
    · cases h
    · next hnone =>
      cases h
      exact .declare (Option.not_isSome_iff_eq_none.mp hnone)
  | use v =>
    cases h
    exact .use (used_use _ _ _)
  | cut =>
    cases h
    exact .cut
  | enter =>
    cases h
    exact .enter
  | exit =>
    dsimp only [step, Persistence.endLoop] at h
    split at h
    · cases h
    · next a used outer hl =>
      cases h
      refine .exit hl fun v => ?_
      -- What was used in the loop is kept if the state has changed since it began.
      rw [mem_foldl_adjoin]
      by_cases ha : a = m.state
      · simp [ha]
      · rw [if_neg ha, mem_flatMap]
        simp only [mem_reverse, ne_eq, ha, not_false_eq_true, true_and]

end Moment

/-! ## Variables that are called for -/

open Event

/-- A state ends between the declaration of a variable and the end of some events. -/
def Behind (v : NodeId) (es : List Event) : Prop := ∃ xs ys, es = xs ++ declare v :: ys ∧ cut ∈ ys

/-- A state ends in the innermost loop around a point, before the point or behind it. -/
def Interrupted (before behind : List Event) : Prop :=
  ∃ xs ys, before = xs ++ enter :: ys ∧ Balanced ys ∧
    (cut ∈ ys ∨ ∃ us vs, behind = us ++ cut :: vs ∧ Stays us)

/-- Some use of a variable calls for its value to be kept. -/
def Outlives (es : List Event) (v : NodeId) : Prop :=
  ∃ before behind, es = before ++ use v :: behind ∧ declare v ∈ before ∧
    (Behind v before ∨ Interrupted before behind)

theorem Outlives.append (h : Outlives es v) (fs : List Event) : Outlives (es ++ fs) v := by
  obtain ⟨before, behind, rfl, hd, h⟩ := h
  refine ⟨before, behind ++ fs, by simp, hd, h.imp_right ?_⟩
  rintro ⟨xs, ys, hb, hy, hcut⟩
  refine ⟨xs, ys, hb, hy, hcut.imp_right ?_⟩
  rintro ⟨us, vs, rfl, hus⟩
  exact ⟨us, vs ++ fs, by simp, hus⟩

/-- A variable that is declared before a loop and used directly in it is called for if a state ends
in the loop. -/
theorem outlives_of_loop {us vs zs : List Event} (hd : declare v ∈ xs) (hus : Balanced us)
    (hys : Balanced (us ++ use v :: vs)) (hcut : cut ∈ us ++ use v :: vs) :
    Outlives (xs ++ enter :: (us ++ use v :: vs) ++ exit :: zs) v := by
  refine ⟨xs ++ enter :: us, vs ++ exit :: zs, by simp, by simp [hd], .inr ⟨xs, us, rfl, hus, ?_⟩⟩
  simp only [mem_append, mem_cons, reduceCtorEq, false_or] at hcut
  rcases hcut with hcut | hcut
  · exact .inl hcut
  · obtain ⟨as, bs, rfl⟩ := append_of_mem hcut
    have hrest : Stays ([use v] ++ as) := by
      have hall := hus.right hys.1
      exact (show use v :: (as ++ cut :: bs) = ([use v] ++ as) ++ cut :: bs by simp) ▸ hall |>.left
    have huse : Balanced [use v] := balanced_of_flat (by simp [opens])
    exact .inr ⟨as, bs ++ exit :: zs, by simp, huse.right hrest⟩

/-! ## What is kept is called for -/

/-- In some events, a loop is open that has begun in state `a` and in which `i` loops are open. -/
def OpenAt (es : List Event) (i a : Int) : Prop :=
  ∃ xs ys, es = xs ++ enter :: ys ∧ Stays ys ∧ depth ys = i ∧ a = (xs.count cut : Nat)

/-- In such a loop, but in no loop inside it, a variable is used behind its declaration. -/
def UsedAt (es : List Event) (i a : Int) (v : NodeId) : Prop :=
  ∃ xs ys zs, es = xs ++ enter :: (ys ++ use v :: zs) ∧ declare v ∈ xs ++ enter :: ys ∧
    Balanced ys ∧ Stays zs ∧ depth zs = i ∧ a = (xs.count cut : Nat)

theorem OpenAt.concat (h : OpenAt es i a) (he : (i : Int) + e.opens = j) :
    OpenAt (es ++ [e]) j a := by
  obtain ⟨xs, ys, rfl, hy, hi, ha⟩ := h
  rw [← hi] at he
  exact ⟨xs, ys ++ [e], by simp, hy.concat (by omega), by simpa using he, ha⟩

theorem UsedAt.concat (h : UsedAt es i a v) (he : (i : Int) + e.opens = j) :
    UsedAt (es ++ [e]) j a v := by
  obtain ⟨xs, ys, zs, rfl, hd, hy, hz, hi, ha⟩ := h
  rw [← hi] at he
  exact ⟨xs, ys, zs ++ [e], by simp, hd, hy, hz.concat (by omega), by simpa using he, ha⟩

theorem OpenAt.le {i : Int} (h : OpenAt es i a) : a ≤ (es.count cut : Nat) := by
  obtain ⟨xs, ys, rfl, -, -, rfl⟩ := h
  rw [count_append]
  omega

/-- A variable that was used in a loop outlives a state if one ended since the loop began. -/
theorem UsedAt.outlives {i : Int} (h : UsedAt es i a v) (ha : a < (es.count cut : Nat)) :
    Outlives es v := by
  obtain ⟨xs, ys, zs, rfl, hd, hy, hz, -, rfl⟩ := h
  refine ⟨xs ++ enter :: ys, zs, by simp, hd, .inr ⟨xs, ys, rfl, hy, ?_⟩⟩
  have hcount : 0 < ys.count cut + zs.count cut := by
    simp only [count_append, count_cons, beq_iff_eq, reduceCtorEq, if_false] at ha
    omega
  by_cases hcut : cut ∈ ys
  · exact .inl hcut
  · rw [count_eq_zero.mpr hcut, Nat.zero_add, count_pos_iff] at hcount
    obtain ⟨us, vs, rfl⟩ := append_of_mem hcount
    exact .inr ⟨us, vs, rfl, hz.left⟩

/-- What is known at a moment goes back to the events before it. -/
structure Traced (es : List Event) (m : Moment) : Prop where
  state : m.state = es.count cut
  declared : ∀ v a, m.known.declared.lookup v = some a →
    ∃ xs ys, es = xs ++ declare v :: ys ∧ a = (xs.count cut : Nat)
  opened : ∀ (i : Nat) x, m.known.loops[i]? = some x → OpenAt es i x.1
  used : ∀ (i : Nat) x, m.known.loops[i]? = some x → ∀ v ∈ x.2, UsedAt es i x.1 v
  sorted : m.known.loops.Pairwise fun x y => y.1 ≤ x.1
  kept : ∀ v ∈ m.known.kept, Outlives es v

theorem traced_start : Traced [] ⟨{}, 0⟩ where
  state := rfl
  declared := by simp
  opened := by simp
  used := by simp
  sorted := .nil
  kept := by simp

/-- An event that is no border of a loop: only what it says of states, declarations and uses counts.
-/
theorem Traced.concat (h : Traced es m) (he : e.opens = 0)
    (hstate : m'.state = (es ++ [e]).count cut)
    (hdeclared : ∀ v a, m'.known.declared.lookup v = some a →
      m.known.declared.lookup v = some a ∨ e = declare v ∧ a = (es.count cut : Nat))
    (hloops : m'.known.loops = m.known.loops)
    (hkept : ∀ v ∈ m'.known.kept, v ∈ m.known.kept ∨ Outlives (es ++ [e]) v) :
    Traced (es ++ [e]) m' where
  state := hstate
  declared v a hv := by
    rcases hdeclared v a hv with hv | ⟨rfl, rfl⟩
    · obtain ⟨xs, ys, rfl, ha⟩ := h.declared v a hv
      exact ⟨xs, ys ++ [e], by simp, ha⟩
    · exact ⟨es, [], rfl, rfl⟩
  opened i x hx := by
    rw [hloops] at hx
    exact (h.opened i x hx).concat (by omega)
  used i x hx v hv := by
    rw [hloops] at hx
    exact (h.used i x hx v hv).concat (by omega)
  sorted := by
    rw [hloops]
    exact h.sorted
  kept v hv := by
    rcases hkept v hv with hv | hv
    · exact (h.kept v hv).append [e]
    · exact hv

theorem traced_declare (h : Traced es m) :
    Traced (es ++ [declare v])
      { m with
        known := { m.known with declared := m.known.declared ++ [(v, (m.state : Int))] } } := by
  refine h.concat rfl (by simp [h.state]) (fun w a hw => ?_) rfl fun w hw => .inl hw
  dsimp only at hw
  rw [lookup_append] at hw
  cases hold : m.known.declared.lookup w with
  | some b =>
    rw [hold] at hw
    exact .inl hw
  | none =>
    rw [hold, Option.none_or, lookup_cons, lookup_nil] at hw
    split at hw
    · next hwv =>
      cases hw
      rw [beq_iff_eq] at hwv
      exact .inr ⟨by rw [hwv], by rw [h.state]⟩
    · cases hw

/-- A loop that begins is the innermost one, and nothing was used in it yet. -/
theorem traced_enter (h : Traced es m) :
    Traced (es ++ [enter])
      { m with known := { m.known with loops := (m.state, []) :: m.known.loops } } where
  state := by simp [h.state]
  declared v a hv := by
    obtain ⟨xs, ys, rfl, ha⟩ := h.declared v a hv
    exact ⟨xs, ys ++ [enter], by simp, ha⟩
  opened i x hx := by
    cases i with
    | zero =>
      cases hx
      exact ⟨es, [], rfl, stays_nil, rfl, by rw [h.state]⟩
    | succ i => exact (h.opened i x hx).concat rfl
  used i x hx v hv := by
    cases i with
    | zero =>
      cases hx
      cases hv
    | succ i => exact (h.used i x hx v hv).concat rfl
  sorted := by
    refine pairwise_cons.mpr ⟨fun x hx => ?_, h.sorted⟩
    obtain ⟨i, hi⟩ := getElem?_of_mem hx
    rw [h.state]
    exact (h.opened i x hi).le
  kept v hv := (h.kept v hv).append _

/-- At the end of a loop, what was used in it counts for the loop around it. -/
theorem traced_exit {kept : List NodeId} {outer : List (Int × List NodeId)} (h : Traced es m)
    (hl : m.known.loops = (a, used) :: outer)
    (hk : ∀ v, v ∈ kept ↔ v ∈ m.known.kept ∨ a ≠ m.state ∧ ∃ x ∈ m.known.loops, v ∈ x.2) :
    Traced (es ++ [exit]) { m with known := { m.known with kept := kept, loops := outer } } where
  state := by simp [h.state]
  declared v b hv := by
    obtain ⟨xs, ys, rfl, hb⟩ := h.declared v b hv
    exact ⟨xs, ys ++ [exit], by simp, hb⟩
  opened i x hx := by
    have hx' : m.known.loops[i + 1]? = some x := by rw [hl]; exact hx
    exact (h.opened (i + 1) x hx').concat (by dsimp only [opens]; omega)
  used i x hx v hv := by
    have hx' : m.known.loops[i + 1]? = some x := by rw [hl]; exact hx
    exact (h.used (i + 1) x hx' v hv).concat (by dsimp only [opens]; omega)
  sorted := by
    have hsorted := h.sorted
    rw [hl] at hsorted
    exact hsorted.of_cons
  kept v hv := by
    refine Outlives.append ?_ _
    rcases (hk v).mp hv with hv | ⟨ha, x, hx, hv⟩
    · exact h.kept v hv
    · obtain ⟨i, hi⟩ := getElem?_of_mem hx
      -- the innermost loop has begun last, and before the current state
      have hlast : a < (es.count cut : Nat) := by
        have hle := (h.opened 0 (a, used) (by rw [hl]; rfl)).le
        rw [h.state] at ha
        dsimp only at hle
        omega
      have hfirst : x.1 ≤ a := by
        have hsorted := h.sorted
        rw [hl] at hsorted hx
        rcases mem_cons.mp hx with rfl | hx
        · exact Int.le_refl _
        · exact (pairwise_cons.mp hsorted).1 x hx
      exact (h.used i x hi v hv).outlives (by omega)

/-- A use is noted for the innermost loop, or the variable is kept at once. -/
theorem traced_use {p : Persistence} (h : Traced es m) (hu : Moment.Used m.known v m.state p) :
    Traced (es ++ [use v]) { m with known := p } := by
  have hstate : m.state = (es ++ [use v]).count cut := by simp [h.state]
  cases hu with
  | same | straight => exact h.concat rfl hstate (fun _ _ hw => .inl hw) rfl fun _ hw => .inl hw
  | @kept a hd hs =>
    refine h.concat rfl hstate (fun _ _ hw => .inl hw) rfl fun w hw => ?_
    rcases mem_append.mp hw with hw | hw
    · exact .inl hw
    · rw [mem_singleton] at hw
      subst hw
      obtain ⟨xs, ys, rfl, rfl⟩ := h.declared w a hd
      refine .inr ⟨_, [], rfl, by simp, .inl ⟨xs, ys, rfl, ?_⟩⟩
      rw [h.state, count_append, count_cons] at hs
      rw [← count_pos_iff]
      simp at hs
      omega
  | @noted a used outer hd hl =>
    have hsame : Traced (es ++ [use v]) m :=
      h.concat rfl hstate (fun _ _ hw => .inl hw) rfl fun _ hw => .inl hw
    obtain ⟨xs, ys, hes, -⟩ := h.declared v m.state hd
    -- the new use stands directly in the innermost loop
    have hnew : UsedAt (es ++ [use v]) 0 a v := by
      obtain ⟨us, vs, rfl, hvs, hdepth, ha⟩ := h.opened 0 (a, used) (by rw [hl]; rfl)
      refine ⟨us, vs, [], by simp, ?_, ⟨hvs, hdepth⟩, stays_nil, rfl, ha⟩
      rw [hes]
      simp
    refine ⟨hsame.state, hsame.declared, fun i x hx => ?_, fun i x hx w hw => ?_, ?_, hsame.kept⟩
    · cases i with
      | zero =>
        cases hx
        exact hsame.opened 0 (a, used) (by rw [hl]; rfl)
      | succ i => exact hsame.opened (i + 1) x (by rw [hl]; exact hx)
    · cases i with
      | zero =>
        cases hx
        rcases Moment.mem_adjoin.mp hw with hw | rfl
        · exact hsame.used 0 (a, used) (by rw [hl]; rfl) w hw
        · exact hnew
      | succ i => exact hsame.used (i + 1) x (by rw [hl]; exact hx) w hw
    · have hsorted := h.sorted
      rw [hl] at hsorted
      exact pairwise_cons.mpr (pairwise_cons.mp hsorted)

theorem Traced.step (h : Traced es m) (hs : m.step e = .ok m') : Traced (es ++ [e]) m' := by
  cases Moment.stepped hs with
  | declare hnone => exact traced_declare h
  | use hu => exact traced_use h hu
  | cut => exact h.concat rfl (by simp [h.state]) (fun _ _ hv => .inl hv) rfl fun _ hv => .inl hv
  | enter => exact traced_enter h
  | exit hl hk => exact traced_exit h hl hk

/-- What is known at any moment is what the events up to it say. -/
theorem traced_run (h : Moment.run ⟨{}, 0⟩ es = .ok m) : Traced es m := by
  induction es using List.reverseRecOn generalizing m with
  | nil =>
    cases h
    exact traced_start
  | append_singleton es e ih =>
    obtain ⟨m₁, h₁, hstep⟩ := Moment.run_concat_inv h
    exact (ih h₁).step hstep

/-! ## What is called for is kept -/

namespace Moment

theorem kept_step (h : m.step e = .ok m') (hv : v ∈ m.known.kept) : v ∈ m'.known.kept := by
  cases stepped h with
  | declare hnone => exact hv
  | use hu =>
    cases hu with
    | same _ => exact hv
    | straight _ _ => exact hv
    | kept _ _ => exact mem_append_left _ hv
    | noted _ _ => exact hv
  | cut => exact hv
  | enter => exact hv
  | exit hl hk => exact (hk v).mpr (.inl hv)

theorem kept_run (h : m.run es = .ok m') (hv : v ∈ m.known.kept) : v ∈ m'.known.kept := by
  induction es generalizing m with
  | nil =>
    cases h
    exact hv
  | cons e es ih =>
    obtain ⟨m₁, hstep, hrun⟩ := run_cons_inv h
    exact ih hrun (kept_step hstep hv)

theorem declared_step (h : m.step e = .ok m') (hv : m.known.declared.lookup v = some a) :
    m'.known.declared.lookup v = some a := by
  cases stepped h with
  | declare hnone =>
    dsimp only
    rw [lookup_append, hv]
    rfl
  | use hu => cases hu <;> exact hv
  | cut => exact hv
  | enter => exact hv
  | exit hl hk => exact hv

theorem declared_run (h : m.run es = .ok m') (hv : m.known.declared.lookup v = some a) :
    m'.known.declared.lookup v = some a := by
  induction es generalizing m with
  | nil =>
    cases h
    exact hv
  | cons e es ih =>
    obtain ⟨m₁, hstep, hrun⟩ := run_cons_inv h
    exact ih hrun (declared_step hstep hv)

theorem state_run (h : m.run es = .ok m') : m'.state = m.state + es.count cut := by
  induction es generalizing m with
  | nil =>
    cases h
    simp
  | cons e es ih =>
    obtain ⟨m₁, hstep, hrun⟩ := run_cons_inv h
    rw [ih hrun, count_cons]
    cases stepped hstep <;> simp
    omega

/-- An open loop stays as long as it is not ended, with all that is noted for it. Here `i` and `j`
are the numbers of loops that are open in it. -/
theorem loop_step (hl : m.known.loops[i]? = some (a, used)) (hs : m.step e = .ok m')
    (hj : (i : Int) + e.opens = j) :
    ∃ used', m'.known.loops[j]? = some (a, used') ∧ ∀ v ∈ used, v ∈ used' := by
  cases stepped hs with
  | declare _ | cut =>
    obtain rfl : i = j := by
      dsimp only [opens] at hj
      omega
    exact ⟨used, hl, fun _ hv => hv⟩
  | use hu =>
    -- Only the innermost loop gets the note.
    obtain rfl : i = j := by
      dsimp only [opens] at hj
      omega
    cases hu with
    | same _ | straight _ _ | kept _ _ => exact ⟨used, hl, fun _ hv => hv⟩
    | noted hd hloops =>
      rw [hloops] at hl
      cases i with
      | zero =>
        cases hl
        exact ⟨_, rfl, fun v hv => mem_adjoin.mpr (.inl hv)⟩
      | succ i => exact ⟨used, hl, fun _ hv => hv⟩
  | enter =>
    obtain rfl : i + 1 = j := by
      dsimp only [opens] at hj
      omega
    exact ⟨used, hl, fun _ hv => hv⟩
  | exit hloops hk =>
    obtain rfl : i = j + 1 := by
      dsimp only [opens] at hj
      omega
    rw [hloops] at hl
    exact ⟨used, hl, fun _ hv => hv⟩

/-- An open loop stays open with what was noted for it, as long as it is not left. -/
theorem loop_run (hl : m.known.loops[i]? = some (a, used)) (hr : m.run es = .ok m') (hs : Stays es)
    (hj : (i : Int) + depth es = j) :
    ∃ used', m'.known.loops[j]? = some (a, used') ∧ ∀ v ∈ used, v ∈ used' := by
  induction es using List.reverseRecOn generalizing m' j with
  | nil =>
    cases hr
    obtain rfl : i = j := by
      dsimp only [depth] at hj
      omega
    exact ⟨used, hl, fun _ hv => hv⟩
  | append_singleton es e ih =>
    obtain ⟨m₁, hrun, hstep⟩ := run_concat_inv hr
    have hnonneg := hs.left.depth_nonneg
    rw [depth_append, depth_singleton] at hj
    obtain ⟨used₁, hl₁, hsub₁⟩ := ih (j := (i + depth es).toNat) hrun hs.left (by omega)
    obtain ⟨used₂, hl₂, hsub₂⟩ := loop_step hl₁ hstep (j := j) (by omega)
    exact ⟨used₂, hl₂, fun v hv => hsub₂ v (hsub₁ v hv)⟩

/-- There are as many open loops as the depth says. -/
theorem length_loops (h : m.run es = .ok m') :
    (m'.known.loops.length : Int) = m.known.loops.length + depth es := by
  induction es generalizing m with
  | nil =>
    cases h
    simp [depth]
  | cons e es ih =>
    obtain ⟨m₁, hstep, hrun⟩ := run_cons_inv h
    rw [ih hrun, depth]
    -- Only entering and leaving a loop changes the number of open loops.
    have hlen : (m₁.known.loops.length : Int) = m.known.loops.length + e.opens := by
      cases stepped hstep with
      | declare _ | cut => simp [opens]
      | use hu =>
        cases hu with
        | same _ | straight _ _ | kept _ _ => simp [opens]
        | noted _ hl => simp [opens, hl]
      | enter => simp [opens]
      | exit hl _ =>
        rw [hl, length_cons]
        dsimp only [opens]
        omega
    omega

/-- Once a state has ended in a loop, what was used directly in it is kept when all loops have
ended. -/
theorem kept_of_used (hl : m.known.loops[i]? = some (a, used)) (hv : v ∈ used) (ha : a < m.state)
    (hr : m.run es = .ok m') (hend : m'.known.loops = []) : v ∈ m'.known.kept := by
  induction es generalizing m i used with
  | nil =>
    cases hr
    rw [hend] at hl
    cases hl
  | cons e es ih =>
    obtain ⟨m₁, hstep, hrun⟩ := run_cons_inv hr
    by_cases hj : 0 ≤ (i : Int) + e.opens
    · obtain ⟨used₁, hl₁, hsub⟩ := loop_step hl hstep (j := (i + e.opens).toNat) (by omega)
      refine ih hl₁ (hsub v hv) ?_ hrun
      cases stepped hstep <;> dsimp only at ha ⊢ <;> omega
    · -- the loop ends here
      obtain ⟨rfl, rfl⟩ : e = exit ∧ i = 0 := by
        cases e <;> dsimp only [opens] at hj <;> first | omega | exact ⟨rfl, by omega⟩
      cases stepped hstep with
      | exit hloops hk =>
        refine kept_run hrun ((hk v).mpr (.inr ⟨?_, (a, used), mem_of_getElem? hl, hv⟩))
        rw [hloops] at hl
        cases hl
        omega

theorem lookup_declared (h : m.run (xs ++ declare v :: ys) = .ok m') :
    m'.known.declared.lookup v = some ((m.state + xs.count cut : Nat) : Int) := by
  obtain ⟨m₁, hxs, hrest⟩ := run_append_inv h
  obtain ⟨m₂, hstep, hys⟩ := run_cons_inv hrest
  refine declared_run hys ?_
  cases stepped hstep with
  | declare hnone =>
    dsimp only
    rw [lookup_append, hnone, state_run hxs, Option.none_or]
    simp

theorem use_inv (h : m.run (before ++ use v :: behind) = .ok m') :
    ∃ m₁ p, m.run before = .ok m₁ ∧ Used m₁.known v m₁.state p ∧
      run { m₁ with known := p } behind = .ok m' := by
  obtain ⟨m₁, hbefore, hrest⟩ := run_append_inv h
  obtain ⟨m₂, hstep, hbehind⟩ := run_cons_inv hrest
  cases stepped hstep with
  | use hu => exact ⟨m₁, _, hbefore, hu, hbehind⟩

/-- A variable that is used in a later state than the one of its declaration is kept. -/
theorem kept_of_behind (h : m.run (before ++ use v :: behind) = .ok m') (hb : Behind v before) :
    v ∈ m'.known.kept := by
  obtain ⟨xs, ys, rfl, hcut⟩ := hb
  obtain ⟨m₁, p, hbefore, hu, hbehind⟩ := use_inv h
  have hdecl := lookup_declared hbefore
  -- A label stands between declaration and use, so the states differ.
  have hlater : m.state + xs.count cut ≠ m₁.state := by
    have hpos := count_pos_iff.mpr hcut
    rw [state_run hbefore, count_append, count_cons]
    omega
  have hne : ((m.state + xs.count cut : Nat) : Int) ≠ m₁.state := by omega
  refine kept_run hbehind ?_
  cases hu with
  | same hsame =>
    rcases hsame with hnone | hkept
    · rw [hdecl] at hnone
      cases hnone
    · exact hkept
  | straight hd | noted hd =>
    rw [hdecl] at hd
    exact absurd (Option.some.inj hd) hne
  | kept hd hs => exact mem_append_right _ (mem_singleton_self v)

/-- A variable that is used in a loop is kept if the loop is interrupted. -/
theorem kept_of_interrupted (h : m.run (before ++ use v :: behind) = .ok m')
    (hd : declare v ∈ before) (hi : Interrupted before behind) (hend : m'.known.loops = []) :
    v ∈ m'.known.kept := by
  obtain ⟨m₁, p, hbefore, hu, hbehind⟩ := use_inv h
  obtain ⟨as, bs, hab⟩ := append_of_mem hd
  obtain ⟨xs, ys, rfl, hys, hcut⟩ := hi
  -- the loop is the innermost one at the use
  obtain ⟨m₂, hxs, hrest⟩ := run_append_inv hbefore
  obtain ⟨m₃, hstep, hrun⟩ := run_cons_inv hrest
  have hloop : ∃ used, m₁.known.loops[0]? = some ((m₂.state : Int), used) := by
    cases stepped hstep with
    | enter =>
      obtain ⟨used, hl, -⟩ := loop_run (i := 0) (j := 0) rfl hrun hys.1 (by rw [hys.2]; rfl)
      exact ⟨used, hl⟩
  have hstates : m₁.state = m₂.state + ys.count cut := by
    have hstate := state_run hrun
    cases stepped hstep with
    | enter => exact hstate
  obtain ⟨used, hloop⟩ := hloop
  cases hu with
  | same hsame =>
    rcases hsame with hnone | hkept
    · rw [hab] at hbefore
      rw [lookup_declared hbefore] at hnone
      cases hnone
    · exact kept_run hbehind hkept
  | straight _ hl =>
    rw [hl] at hloop
    cases hloop
  | kept _ _ => exact kept_run hbehind (mem_append_right _ (mem_singleton_self v))
  | @noted a used' outer _ hl =>
    rw [hl] at hloop
    cases hloop
    have hv : v ∈ Persistence.adjoin used v := mem_adjoin.mpr (.inr rfl)
    rcases hcut with hcut | ⟨us, vs, rfl, hus⟩
    · refine kept_of_used (i := 0) rfl hv ?_ hbehind hend
      have hpos := count_pos_iff.mpr hcut
      dsimp only
      omega
    · obtain ⟨m₄, hrunus, hrest⟩ := run_append_inv hbehind
      obtain ⟨m₅, hstep', hvs⟩ := run_cons_inv hrest
      obtain ⟨used₁, hl₁, hsub⟩ := loop_run (i := 0) (j := (depth us).toNat) rfl hrunus hus
        (by have := hus.depth_nonneg; omega)
      have hstate := state_run hrunus
      dsimp only at hstate
      cases stepped hstep' with
      | cut =>
        have hlater : (m₂.state : Int) < (m₄.state + 1 : Nat) := by omega
        exact kept_of_used (m := { m₄ with state := m₄.state + 1 }) hl₁ (hsub v hv) hlater hvs hend

end Moment

/-- A variable is kept if and only if one of its uses calls for it. -/
theorem mem_kept_iff (hb : Balanced es) (h : Moment.run ⟨{}, 0⟩ es = .ok m) :
    v ∈ m.known.kept ↔ Outlives es v := by
  constructor
  · exact (traced_run h).kept v
  · have hend : m.known.loops = [] := by
      have hlen := Moment.length_loops h
      rw [hb.2] at hlen
      exact eq_nil_of_length_eq_zero (by simpa using hlen)
    rintro ⟨before, behind, rfl, hd, hbehind | hi⟩
    · exact Moment.kept_of_behind h hbehind
    · exact Moment.kept_of_interrupted h hd hi hend

end Resumable
