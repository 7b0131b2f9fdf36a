import Mathlib.Logic.Function.Iterate
import Resumable.Edits.Text
import Resumable.Proofs.Merging

/-!
# What a reading of edits gives

A reading merges the recorded edits and walks over the tokens. At each token at most one edit is
left, so the walk writes what the recorded edits were to write. It passes over no edit, because none
stands inside a range, and what it does not meet stands behind the last token. The edits that a
reading leaves write the same again.

* `Edits.walk_spec`: the walk writes what the edits are to write.
* `Edits.readAll_spec`: so does a whole reading, and the edits that it leaves write the same.
* `Edits.reads_written`: recorded edits that agree are read as they were meant.
-/

namespace Resumable

open List

variable {i : Int} {es : List Edit} {e : Edit} {size : Nat}

namespace Edits

/-! ## The walk over the tokens -/

theorem oneEach_iff : oneEach es = true ↔ Distinct es := by
  induction es with
  | nil => simp [oneEach, Distinct]
  | cons e es ih =>
    rw [oneEach, Bool.and_eq_true, ih, Distinct, Distinct, pairwise_cons, all_eq_true]
    simp [ne_comm]

/-- At a token there is no edit or one. -/
theorem takeAt_spec (h : Distinct es) :
    (takeAt i es = none ∧ ∀ e ∈ es, e.index ≠ i) ∨
      ∃ e ∈ es, e.index = i ∧ takeAt i es = some (e, es.filter (·.index != i)) := by
  induction es with
  | nil => exact Or.inl ⟨rfl, fun e he => absurd he not_mem_nil⟩
  | cons e es ih =>
    obtain ⟨he, hes⟩ := pairwise_cons.mp h
    by_cases hi : e.index = i
    · refine Or.inr ⟨e, mem_cons_self, hi, ?_⟩
      have hrest : es.filter (·.index != i) = es := by
        rw [filter_eq_self]
        intro f hf
        simpa [hi] using Ne.symm (he f hf)
      simp [takeAt, hi, hrest]
    · rcases ih hes with ⟨hnone, hall⟩ | ⟨f, hf, hfi, hsome⟩
      · exact Or.inl ⟨by simp [takeAt, hi, hnone], forall_mem_cons.mpr ⟨hi, hall⟩⟩
      · exact Or.inr ⟨f, mem_cons_of_mem _ hf, hfi, by simp [takeAt, hi, hsome]⟩

section Walk

variable {tokens : Array Token} {es : List Edit}

/-- The edits that the walk has not come to. -/
def ahead (i : Int) (es : List Edit) : List Edit := es.filter (i ≤ ·.index)

theorem Distinct.ahead (h : Distinct es) (i : Int) : Distinct (ahead i es) :=
  h.sublist filter_sublist

theorem ahead_cons (i : Int) (e : Edit) (es : List Edit) :
    ahead i (e :: es) = if i ≤ e.index then e :: ahead i es else ahead i es := by
  simp [ahead, filter_cons]

theorem ahead_congr {j : Int} (h : ∀ e ∈ es, i ≤ e.index ↔ j ≤ e.index) : ahead i es = ahead j es :=
  filter_congr fun e he => by simp [h e he]

theorem insertions_of_none (h : ∀ e ∈ es, e.index ≠ i) : insertions i es = [] := by
  refine insertions_eq_nil.mpr fun e he => ?_
  have hne := h e he
  cases e with
  | insert j t => exact if_neg hne
  | replace first last t => rfl

theorem replacement?_of_none (h : ∀ e ∈ es, e.index ≠ i) : replacement? i es = none := by
  refine replacement?_eq_none.mpr fun e he => ?_
  have hne := h e he
  cases e with
  | insert j t => rfl
  | replace first last t => exact if_neg hne

theorem lead_of_mem (h : Distinct es) (he : e ∈ es) (hi : e.index = i) :
    lead es i = lead [e] i ∧ extent es i = extent [e] i := by
  obtain ⟨before, behind, rfl⟩ := append_of_mem he
  obtain ⟨-, hrest, hcross⟩ := pairwise_append.mp h
  have hbefore : ∀ f ∈ before, f.index ≠ i := fun f hf hfi =>
    hcross f hf e mem_cons_self (hfi.trans hi.symm)
  have hbehind : ∀ f ∈ behind, f.index ≠ i := fun f hf hfi =>
    (pairwise_cons.mp hrest).1 f hf (hi.trans hfi.symm)
  have hsplit : before ++ e :: behind = before ++ ([e] ++ behind) := rfl
  rw [hsplit]
  simp only [lead, extent, insertions_append, replacement?_append, insertions_of_none hbefore,
    insertions_of_none hbehind, replacement?_of_none hbefore, replacement?_of_none hbehind,
    nil_append, append_nil, Option.none_or, Option.or_none, and_self]

/-- No edit stands inside of a range. -/
theorem Agree.index_beyond (h : Agree size es) {first last : Int} {text : Option String}
    (hr : .replace first last text ∈ es) (he : e ∈ es) :
    first + 1 ≤ e.index ↔ last + 1 ≤ e.index := by
  have hrange : 0 ≤ first ∧ first ≤ last ∧ last < (size : Int) := h.within _ hr
  refine ⟨fun hlt => ?_, fun hlt => by omega⟩
  have hne : Edit.replace first last text ≠ e := by
    rintro rfl
    have hself : first + 1 ≤ first := hlt
    omega
  -- Edits that agree are apart, so none begins inside of the range.
  have hapart : (Edit.replace first last text).Apart e := h.apart.forall hr he hne
  cases e with
  | insert i t =>
    have hinside : ¬ (first < i ∧ i ≤ last) := hapart
    have hindex : first + 1 ≤ i := hlt
    change last + 1 ≤ i
    omega
  | replace f l t =>
    have hdisjoint : last < f ∨ l < first := hapart
    have hother : 0 ≤ f ∧ f ≤ l ∧ l < (size : Int) := h.within _ he
    have hindex : first + 1 ≤ f := hlt
    change last + 1 ≤ f
    omega

theorem tokenText_eq {t : Token} {ts : List Token} (h : tokens.toList.drop i.toNat = t :: ts) :
    tokenText tokens i = if t.kind = .endOfFile then "" else t.text := by
  have hget : tokens[i.toNat]? = some t := by
    rw [← Array.getElem?_toList, ← head?_drop, h]
    rfl
  rw [tokenText, hget]

/-- At a token the walk writes what the edits write there, and goes on behind the token or behind
the range that begins there. -/
theorem walk_step (h : Agree tokens.size es) (hd : Distinct es) (fuel : Nat)
    (hlt : i < tokens.size) :
    walk tokens ((tokens.size : Int) - 1) (fuel + 1) i (ahead i es) =
      match extent es i with
      | some last =>
        let (rest, left) := walk tokens ((tokens.size : Int) - 1) fuel (last + 1)
          (ahead (last + 1) es)
        (lead es i ++ rest, left)
      | none =>
        let (rest, left) := walk tokens ((tokens.size : Int) - 1) fuel (i + 1) (ahead (i + 1) es)
        (lead es i ++ tokenText tokens i ++ rest, left) := by
  have hin : i ≤ (tokens.size : Int) - 1 ∧ i < tokens.size := by omega
  rw [walk, if_pos hin]
  -- Without an edit here the token is written and the walk goes on to the next one.
  rcases takeAt_spec (hd.ahead i) with ⟨hnone, hall⟩ | ⟨e, he, hei, hsome⟩
  · have hno : ∀ e ∈ es, e.index ≠ i := by
      intro e he hei
      exact hall e (mem_filter.mpr ⟨he, by simp [hei]⟩) hei
    have hahead : ahead i es = ahead (i + 1) es := ahead_congr fun e he => by
      have := hno e he
      omega
    have hlead : lead es i = "" := by
      simp [lead, insertions_of_none hno, replacement?_of_none hno]
    have hextent : extent es i = none := by simp [extent, replacement?_of_none hno]
    rw [hnone, hlead, hextent, hahead]
    simp
  · have hmem : e ∈ es := (mem_filter.mp he).1
    have hrest : (ahead i es).filter (·.index != i) = ahead (i + 1) es := by
      unfold ahead
      rw [filter_filter]
      refine filter_congr fun f _ => ?_
      rw [Bool.eq_iff_iff]
      simp
      omega
    obtain ⟨hlead, hextent⟩ := lead_of_mem hd hmem hei
    rw [hrest] at hsome
    cases e with
    | insert j t =>
      have hj : j = i := hei
      rw [hsome, hlead, hextent]
      simp [lead, extent, hj]
    | replace first last t =>
      have hj : first = i := hei
      -- The walk jumps over the range, and passes over no edit in it.
      have hahead : ahead (i + 1) es = ahead (last + 1) es := ahead_congr fun f hf =>
        h.index_beyond (hj ▸ hmem) hf
      rw [hsome, hlead, hextent, hahead]
      simp [lead, extent, hj]

/-- The walk writes what is to be written from a token on. -/
theorem walk_spec (h : Agree tokens.size es) (hd : Distinct es) {fuel : Nat} {i : Int} (hi : 0 ≤ i)
    (hle : i ≤ tokens.size) (hfuel : (tokens.size : Int) ≤ i + fuel) :
    ∃ text, walk tokens ((tokens.size : Int) - 1) fuel i (ahead i es) =
        (text, ahead tokens.size es) ∧
      written es i (tokens.toList.drop i.toNat) =
        text ++ String.join (insertions tokens.size es) := by
  induction fuel generalizing i with
  | zero =>
    have hend : i = tokens.size := by omega
    subst hend
    have hnil : tokens.toList.drop (tokens.size : Int).toNat = [] := by simp
    rw [hnil, written]
    exact ⟨"", rfl, by simp⟩
  | succ fuel ih =>
    by_cases hlt : i < tokens.size
    · obtain ⟨t, hdrop⟩ : ∃ t, tokens.toList.drop i.toNat =
          t :: tokens.toList.drop (i.toNat + 1) := by
        refine ⟨_, drop_eq_getElem_cons ?_⟩
        rw [Array.length_toList]
        omega
      rw [walk_step h hd fuel hlt, hdrop, written_cons, tokenText_eq hdrop]
      cases hx : extent es i with
      | none =>
        obtain ⟨text, hwalk, hwritten⟩ := @ih (i + 1) (by omega) (by omega) (by omega)
        have hnext : (i + 1).toNat = i.toNat + 1 := by omega
        rw [hnext] at hwritten
        refine ⟨lead es i ++ (if t.kind = .endOfFile then "" else t.text) ++ text,
          by simp only [hwalk], ?_⟩
        simp only [hwritten, String.append_assoc]
      | some last =>
        obtain ⟨hfirst, hlast⟩ := h.bounded i last hx
        obtain ⟨text, hwalk, hwritten⟩ := @ih (last + 1) (by omega) (by omega) (by omega)
        -- The walk goes on behind the range, where the tokens of the range are dropped.
        have hjump : (last + 1).toNat = i.toNat + 1 + (last - i).toNat := by omega
        rw [hjump, ← drop_drop] at hwritten
        refine ⟨lead es i ++ text, by simp only [hwalk], ?_⟩
        simp only [hwritten, String.append_assoc]
    · have hend : i = tokens.size := by omega
      have hstop : ¬ (i ≤ (tokens.size : Int) - 1 ∧ i < tokens.size) := by omega
      have hnil : tokens.toList.drop i.toNat = [] := by simp [hend]
      rw [walk, if_neg hstop, hnil, written, hend]
      exact ⟨"", rfl, by simp⟩

/-- Behind the last token there are insertions only. -/
theorem trailing_ahead (h : ∀ e ∈ es, e.Within size) :
    trailing size (ahead size es) = .ok (String.join (insertions size es)) := by
  induction es with
  | nil => rfl
  | cons e es ih =>
    obtain ⟨he, hes⟩ := forall_mem_cons.mp h
    rw [ahead_cons]
    cases e with
    | insert i t =>
      have hrange : 0 ≤ i ∧ i ≤ (size : Int) := he
      -- Only what is inserted behind the last token is still there.
      by_cases hi : i = size
      · have hhere : (size : Int) ≤ (Edit.insert i t).index := by
          change (size : Int) ≤ i
          omega
        have hbehind : (size : Int) - 1 ≤ (Edit.insert i t).index := by omega
        rw [if_pos hhere, trailing, if_pos hbehind]
        simp [ih hes, hi, Except.map]
      · have hbefore : ¬ (size : Int) ≤ (Edit.insert i t).index := by
          change ¬ (size : Int) ≤ i
          omega
        rw [if_neg hbefore]
        simp [ih hes, hi]
    | replace first last t =>
      have hrange : 0 ≤ first ∧ first ≤ last ∧ last < (size : Int) := he
      have hbefore : ¬ (size : Int) ≤ (Edit.replace first last t).index := by
        change ¬ (size : Int) ≤ first
        omega
      rw [if_neg hbefore]
      exact ih hes

end Walk

/-! ## Readings -/

/-- A list of tokens ends with the end of the text, which stands nowhere else. -/
def Closed (tokens : Array Token) : Prop :=
  ∃ body last, tokens.toList = body ++ [last] ∧ last.kind = .endOfFile ∧
    ∀ t ∈ body, t.kind ≠ .endOfFile

theorem written_nil (i : Int) (ts : List Token) :
    written [] i ts = String.join (ts.map fun t => if t.kind = .endOfFile then "" else t.text) := by
  induction ts generalizing i with
  | nil =>
    rw [written]
    rfl
  | cons t ts ih =>
    rw [written_cons, show extent [] i = none from rfl, ih]
    simp [lead]

/-- Without edits the tokens are written as they are. -/
theorem plainText_eq {tokens : Array Token} (h : Closed tokens) :
    plainText tokens 0 ((tokens.size : Int) - 1) = written [] 0 tokens.toList := by
  obtain ⟨body, last, htokens, hlast, hbody⟩ := h
  have hsize : tokens.size = body.length + 1 := by
    rw [← Array.length_toList, htokens]
    simp
  have hstop : ¬ ((0 : Int) < 0 ∨ (tokens.size : Int) - 1 < 0) := by omega
  have htake : ((tokens.size : Int) - 1).toNat + 1 = tokens.toList.length := by
    rw [Array.length_toList]
    omega
  have hwhile : (body ++ [last]).takeWhile (·.kind ≠ .endOfFile) = body := by
    rw [takeWhile_append_of_pos fun t ht => by simpa using hbody t ht]
    simp [hlast]
  rw [plainText, if_neg hstop, htake, take_length, written_nil, htokens]
  simp only [Int.toNat_zero, drop_zero, hwhile, map_append, map_cons, map_nil,
    hlast, if_true, String.join_append]
  have hplain : body.map (fun t => if t.kind = .endOfFile then "" else t.text) =
      body.map (·.text) := map_congr_left fun t ht => if_neg (hbody t ht)
  simp [hplain]

/-- A reading of edits that agree. -/
theorem readAll_spec {tokens : Array Token} {es : Edits} (hclosed : Closed tokens)
    (h : Agree tokens.size (present es)) :
    (es.readAll tokens).1 = .ok (written (present es) 0 tokens.toList) ∧
      Agree tokens.size (present (es.readAll tokens).2) ∧
      Alike (present es) (present (es.readAll tokens).2) := by
  have hstop : min ((tokens.size : Int) - 1) ((tokens.size : Int) - 1) = (tokens.size : Int) - 1 :=
    Int.min_self _
  cases hempty : es.isEmpty with
  | true =>
    have hread : es.readAll tokens = (.ok (plainText tokens 0 ((tokens.size : Int) - 1)), es) := by
      simp [readAll, read, hempty]
    rw [hread]
    refine ⟨?_, h, .refl _⟩
    rw [plainText_eq hclosed, isEmpty_iff.mp hempty]
    rfl
  | false =>
    obtain ⟨r, hr, hagree, hdistinct, halike⟩ := reduce_spec h
    have hread : es.readAll tokens =
        (reducedText tokens 0 ((tokens.size : Int) - 1) (present r), r) := by
      simp [readAll, read, hempty, hr, present]
    rw [hread]
    refine ⟨?_, hagree, halike⟩
    -- The walk begins with all edits before it.
    have hall : ahead 0 (present r) = present r := by
      refine filter_eq_self.mpr fun e he => ?_
      have hwithin := hagree.within e he
      cases e with
      | insert i t => exact decide_eq_true hwithin.1
      | replace first last t => exact decide_eq_true hwithin.1
    obtain ⟨text, hwalk, hwritten⟩ := @walk_spec tokens (present r) hagree hdistinct
      tokens.size 0 (Int.le_refl 0) (by omega) (by omega)
    rw [hall] at hwalk
    rw [Int.toNat_zero, drop_zero] at hwritten
    rw [halike.written h.bounded (by simp), hwritten]
    simp only [reducedText, oneEach_iff.mpr hdistinct, hwalk, trailing_ahead hagree.within,
      if_true]
    rfl

/-- Every reading of the whole list succeeds and gives what the recorded edits write, if they agree
with each other. -/
theorem reads_written {tokens : Array Token} {es : List Edit} (hclosed : Closed tokens)
    (h : Agree tokens.size es) (n : Nat) :
    (readAll ((fun es : Edits => (es.readAll tokens).2)^[n] (es.map some)) tokens).1 =
      .ok (written es 0 tokens.toList) := by
  have hmap : present (es.map some) = es := by simp
  -- What the readings before leave agrees and writes the same.
  have hkeeps : ∀ n, Agree tokens.size
      (present ((fun es : Edits => (es.readAll tokens).2)^[n] (es.map some))) ∧
      Alike es (present ((fun es : Edits => (es.readAll tokens).2)^[n] (es.map some))) := by
    intro n
    induction n with
    | zero => exact ⟨hmap.symm ▸ h, hmap.symm ▸ .refl es⟩
    | succ n ih =>
      rw [Function.iterate_succ_apply']
      obtain ⟨-, hagree, halike⟩ := readAll_spec hclosed ih.1
      exact ⟨hagree, ih.2.trans halike⟩
  obtain ⟨hagree, halike⟩ := hkeeps n
  rw [(readAll_spec hclosed hagree).1, halike.written h.bounded (by simp)]

/-- Four letters and the end of the text, with an insertion before and one behind the range that it
goes in front of, two insertions at one token, and one behind the last token. -/
theorem letters_written :
    let letter (i : Nat) (text : String) : Token := ⟨.identifier, text, 1, i, i⟩
    let tokens := #[letter 0 "a", letter 1 "b", letter 2 "c", letter 3 "d",
      ⟨.endOfFile, "<EOF>", 1, 4, 4⟩]
    let es := [.insert 5 "z", .replace 1 2 (some "X"), .insert 4 "u", .insert 1 "p", .insert 4 "v",
      .insert 0 "q", .replace 0 0 none]
    Closed tokens ∧ Agree tokens.size es ∧ ∀ n,
      (readAll ((fun es : Edits => (es.readAll tokens).2)^[n] (es.map some)) tokens).1 =
        .ok "qpXduvz" := by
  intro letter tokens es
  have hclosed : Closed tokens :=
    ⟨[letter 0 "a", letter 1 "b", letter 2 "c", letter 3 "d"], ⟨.endOfFile, "<EOF>", 1, 4, 4⟩, rfl,
      rfl, by decide⟩
  have hagree : Agree tokens.size es := by decide
  have hfirst : (readAll (es.map some) tokens).1 = .ok "qpXduvz" := by rfl
  have htext : Except.ok (written es 0 tokens.toList) = Except.ok "qpXduvz" :=
    (reads_written hclosed hagree 0).symm.trans hfirst
  exact ⟨hclosed, hagree, fun n => (reads_written hclosed hagree n).trans htext⟩

end Edits

end Resumable
