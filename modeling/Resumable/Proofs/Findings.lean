import Resumable.Tree.Accounting

/-!
# The report on node numbers

The numbers of all nodes are gone through in order, with the least number that has not occurred at
hand. What is reported on the way is exact: the numbers that do not occur, each in one finding, and
one finding for each time that a number occurs again.

* `Account.scan_exact`: what is reported on the way is exact.
* `Account.Exact.findings_eq_nil`: nothing is reported if and only if every number occurs once.
* `reportReached_exact`: the report that is printed.
-/

namespace Resumable

open List

namespace Finding

/-- The numbers that the finding reports as missing. -/
def missed : Finding → List Nat
  | again _ => []
  | missing id => [id]
  | missingRange first last => range' first (last + 1 - first)

end Finding

namespace Account

variable {total expected : Nat} {ids rest : List Nat} {a : Account}

/-- The findings of an account are those on the numbers from `expected` on, where the number before
has occurred already. -/
structure Exact (total expected : Nat) (ids : List Nat) (a : Account) : Prop where
  sound : a.sound = true
  missed : a.findings.flatMap (·.missed) =
    (range' expected (total - expected)).filter fun id => !ids.contains id
  again (id : Nat) :
    a.findings.count (.again id) = ids.count id - if expected ≤ id then 1 else 0
  filled : ∀ f ∈ a.findings, f.missed = [] → ∃ id, f = .again id

/-- A number that is expected. -/
theorem Exact.first {id : Nat} (h : Exact total (id + 1) rest a) (hid : id < total) :
    Exact total id (id :: rest) a := by
  refine ⟨h.sound, ?_, fun i => ?_, h.filled⟩
  · rw [h.missed, show total - id = total - (id + 1) + 1 by omega, range'_succ,
      filter_cons_of_neg (by simp)]
    refine filter_congr fun i hi => ?_
    have hi := (mem_range'_1.mp hi).1
    simp [show i ≠ id by omega]
  · rw [h.again, count_cons]
    split <;> split <;> split <;> simp_all <;> omega

/-- A number that has just occurred. -/
theorem Exact.repeated {id : Nat} (h : Exact total (id + 1) rest a) :
    Exact total (id + 1) (id :: rest) (note (.again id) a) := by
  refine ⟨h.sound, ?_, fun i => ?_, ?_⟩
  · rw [note, flatMap_cons, h.missed]
    refine filter_congr fun i hi => ?_
    have hi := (mem_range'_1.mp hi).1
    simp [show i ≠ id by omega]
  · rw [note, count_cons, h.again, count_cons]
    grind
  · exact forall_mem_cons.mpr ⟨fun _ => ⟨id, rfl⟩, h.filled⟩

/-- A number behind some that do not occur. -/
theorem Exact.gap {id : Nat} {f : Finding} (h : Exact total id ids a) (hlt : expected < id)
    (hid : id < total) (hids : ∀ i ∈ ids, id ≤ i)
    (hf : f.missed = range' expected (id - expected)) :
    Exact total expected ids (note f a) := by
  have hnot : ∀ i, f ≠ .again i := by
    rintro i rfl
    have hnil := congrArg length hf
    simp [Finding.missed] at hnil
    omega
  refine ⟨h.sound, ?_, fun i => ?_, ?_⟩
  · have hrange : range' expected (total - expected) =
        range' expected (id - expected) ++ range' id (total - id) := by
      rw [show total - expected = (id - expected) + (total - id) by omega, ← range'_append_1,
        show expected + (id - expected) = id by omega]
    -- The numbers of the gap are smaller than all that are still to come.
    have hkeep : (range' expected (id - expected)).filter (fun i => !ids.contains i) =
        range' expected (id - expected) := by
      refine filter_eq_self.mpr fun i hi => ?_
      have hi := (mem_range'_1.mp hi).2
      simpa using fun hmem => absurd (hids i hmem) (by omega)
    rw [note, flatMap_cons, h.missed, hf, hrange, filter_append, hkeep]
  · rw [note, count_cons_of_ne (hnot i), h.again]
    by_cases hi : id ≤ i
    · rw [if_pos hi, if_pos (by omega)]
    · rw [count_eq_zero_of_not_mem fun hmem => hi (hids i hmem), Nat.zero_sub, Nat.zero_sub]
  · refine forall_mem_cons.mpr ⟨fun hnil => ?_, h.filled⟩
    have hlen := congrArg length (hf.symm.trans hnil)
    simp at hlen
    omega

/-- The numbers are gone through in order. -/
theorem scan_exact (hsorted : ids.Pairwise (· ≤ ·)) (hlt : ∀ id ∈ ids, id < total)
    (hle : expected ≤ total) (hfrom : ∀ id ∈ ids, expected ≤ id + 1) :
    Exact total expected ids (scan total expected ids) := by
  induction ids generalizing expected with
  | nil =>
    rw [scan]
    -- At the end, what is still expected is missing.
    by_cases hex : expected < total
    · rw [if_pos hex]
      have hrange : Finding.missed (.missingRange expected (total - 1)) =
          range' expected (total - expected) := by
        rw [Finding.missed, show total - 1 + 1 - expected = total - expected by omega]
      refine ⟨rfl, ?_, fun i => by simp, ?_⟩
      · rw [flatMap_singleton, hrange]
        exact (filter_eq_self.mpr fun i _ => by simp).symm
      · intro f hf hnil
        rw [mem_singleton.mp hf, hrange, range'_eq_nil_iff] at hnil
        omega
    · obtain rfl : expected = total := by omega
      rw [if_neg hex]
      exact ⟨by simp, by simp, fun i => by simp, nofun⟩
  | cons id rest ih =>
    obtain ⟨hfirst, hrest⟩ := pairwise_cons.mp hsorted
    obtain ⟨hid, hlt⟩ := forall_mem_cons.mp hlt
    obtain ⟨hfrom, -⟩ := forall_mem_cons.mp hfrom
    have hnext : Exact total (id + 1) rest (scan total (id + 1) rest) :=
      ih hrest hlt hid fun i hi => Nat.succ_le_succ (hfirst i hi)
    have hthis : ∀ i ∈ id :: rest, id ≤ i := forall_mem_cons.mpr ⟨Nat.le_refl _, hfirst⟩
    rw [scan]
    by_cases hhere : id = expected
    · subst hhere
      rw [if_pos rfl]
      exact hnext.first hid
    rw [if_neg hhere]
    -- The numbers are sorted, so that one that occurs again is the one just before.
    by_cases hbefore : id + 1 = expected
    · subst hbefore
      rw [if_pos rfl]
      exact hnext.repeated
    rw [if_neg hbefore]
    have hgap := hnext.first hid
    by_cases hone : id = expected + 1
    · rw [if_pos hone]
      exact hgap.gap (by omega) hid hthis (by simp [Finding.missed, hone])
    · have hmore : expected + 1 < id := by omega
      rw [if_neg hone, if_pos hmore]
      exact hgap.gap (by omega) hid hthis
        (by rw [Finding.missed, show id - 1 + 1 = id by omega])

/-- The report on numbers in any order. -/
theorem ofIds_exact (h : ∀ id ∈ ids, id < total) : Exact total 0 ids (ofIds total ids) := by
  have hperm := mergeSort_perm ids fun a b => decide (a ≤ b)
  have hsorted : (ids.mergeSort fun a b => decide (a ≤ b)).Pairwise (· ≤ ·) := by
    refine (pairwise_mergeSort ?_ ?_ ids).imp of_decide_eq_true
    · intro a b c hab hbc
      simp only [decide_eq_true_eq] at *
      omega
    · intro a b
      simp only [Bool.or_eq_true, decide_eq_true_eq]
      omega
  have hscan := scan_exact hsorted (fun id hid => h id (hperm.mem_iff.mp hid)) (Nat.zero_le _)
    fun id _ => Nat.zero_le _
  refine ⟨hscan.sound, hscan.missed.trans ?_, fun id => ?_, hscan.filled⟩
  · refine filter_congr fun id _ => ?_
    simp [hperm.mem_iff]
  · exact (hscan.again id).trans (by rw [hperm.count_eq])

/-- Without findings every number occurs once. -/
theorem Exact.findings_eq_nil (h : Exact total 0 ids a) (hlt : ∀ id ∈ ids, id < total) :
    a.findings = [] ↔ ∀ id < total, ids.count id = 1 := by
  constructor
  · intro hnil id hid
    have hmissed := h.missed
    rw [hnil, flatMap_nil, eq_comm, filter_eq_nil_iff] at hmissed
    have hmem : id ∈ ids := by simpa using hmissed id (mem_range'_1.mpr (by omega))
    have hpos := count_pos_iff.mpr hmem
    have hagain := h.again id
    rw [hnil, count_nil, if_pos (Nat.zero_le _)] at hagain
    omega
  · intro hone
    have hmissed : a.findings.flatMap (·.missed) = [] := by
      rw [h.missed, filter_eq_nil_iff]
      intro id hid
      have hcount := hone id (by simpa using hid)
      simpa using count_pos_iff.mp (by omega)
    refine eq_nil_iff_forall_not_mem.mpr fun f hf => ?_
    -- A finding that reports nothing as missing reports a repetition.
    obtain ⟨id, rfl⟩ := h.filled f hf (flatMap_eq_nil_iff.mp hmissed f hf)
    have hpos := count_pos_iff.mpr hf
    have hagain := h.again id
    rw [if_pos (Nat.zero_le _)] at hagain
    have hcount := hone id (hlt id (count_pos_iff.mp (by omega)))
    omega

end Account

/-! ## What is printed -/

theorem splitOnAux_ne_nil (s sep : String) (b i j : String.Pos.Raw) (r : List String) :
    s.splitOnAux sep b i j r ≠ [] := by
  fun_induction String.splitOnAux s sep b i j r with
  | case1 => simp
  | case2 _ _ _ _ _ _ _ _ _ ih => exact ih
  | case3 _ _ _ _ _ _ _ _ _ ih => exact ih
  | case4 _ _ _ _ _ _ ih => exact ih

theorem linesOf_ne_nil (s : String) : linesOf s ≠ [] := by
  rw [linesOf, String.splitOn]
  split
  · exact cons_ne_nil _ _
  · exact splitOnAux_ne_nil _ _ _ _ _ _

theorem Log.printed_printAll (l : Log) (ss : List String) :
    (l.printAll ss).printed = l.printed ++ ss.flatMap linesOf := by
  induction ss generalizing l with
  | nil => exact (append_nil _).symm
  | cons s ss ih =>
    rw [printAll, foldl_cons, ← printAll, ih, flatMap_cons, ← append_assoc]
    rfl

/-- **The report on reached nodes is exact.** If only numbers that were handed out are reached or
removed, the report goes through. The numbers that it gives as not reached, alone or in ranges, are
just those that do not occur, each once; a number that occurs is reported again once less than it
occurs; and nothing is printed if and only if every number occurs once. -/
theorem reportReached_exact {σ : Type} [HasLog σ] (reached : List NodeId) (s : σ)
    (h : ∀ id ∈ reached ++ (HasLog.get s).removed, id < (HasLog.get s).nextId) :
    ∃ findings : List Finding,
      reportReached reached s =
        .ok () (HasLog.set s ((HasLog.get s).printAll (findings.map Finding.message))) ∧
      findings.flatMap Finding.missed = (range (HasLog.get s).nextId).filter
        (fun id => !(reached ++ (HasLog.get s).removed).contains id) ∧
      (∀ id, findings.count (.again id) =
        (reached ++ (HasLog.get s).removed).count id - 1) ∧
      (((HasLog.get s).printAll (findings.map Finding.message)).printed = (HasLog.get s).printed ↔
        ∀ id < (HasLog.get s).nextId, (reached ++ (HasLog.get s).removed).count id = 1) := by
  have hexact := Account.ofIds_exact h
  refine ⟨(Account.ofIds _ _).findings, ?_, hexact.missed.trans ?_, fun id => ?_, ?_⟩
  · change (if (Account.ofIds _ _).sound = true then pure () else throw Fault.unknownNode :
      Step σ Unit)
      (HasLog.set s _) = _
    rw [if_pos hexact.sound]
    rfl
  · rw [Nat.sub_zero, ← range_eq_range']
  · rw [hexact.again, if_pos (Nat.zero_le _)]
  · rw [Log.printed_printAll, append_right_eq_self, flatMap_map, flatMap_eq_nil_iff,
      ← hexact.findings_eq_nil h]
    constructor
    · exact fun hnil => eq_nil_iff_forall_not_mem.mpr fun f hf => linesOf_ne_nil _ (hnil f hf)
    · intro hnil f hf
      rw [hnil] at hf
      cases hf

/-- Of five nodes, one is reached twice and three are lost, the first of them between others. -/
theorem reportReached_exact_twice :
    (∀ id ∈ [0, 2] ++ ({ nextId := 5, removed := [2] } : Log).removed, id < 5) ∧
      ∃ findings : List Finding,
        reportReached (σ := Log) [0, 2] { nextId := 5, removed := [2] } =
          .ok () (({ nextId := 5, removed := [2] } : Log).printAll (findings.map Finding.message)) ∧
        findings.flatMap Finding.missed = [1, 3, 4] ∧ findings.count (.again 2) = 1 := by
  have h : ∀ id ∈ [0, 2] ++ ({ nextId := 5, removed := [2] } : Log).removed, id < 5 := by decide
  obtain ⟨findings, hrun, hmissed, hagain, -⟩ :=
    reportReached_exact [0, 2] ({ nextId := 5, removed := [2] } : Log) h
  exact ⟨h, findings, hrun, hmissed, hagain 2⟩

end Resumable
