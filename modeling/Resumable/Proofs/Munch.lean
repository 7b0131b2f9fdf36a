import Resumable.Proofs.Tiling

/-!
# Longest match

The derivative of a pattern describes what may follow a character, so the rules that are pending
behind a text are those that describe some continuation of it. The lexer therefore takes the longest
text that a rule describes, by the first rule that does.

* `Pattern.matches_derive`: the derivative of a pattern describes what may follow a character.
* `Lexer.munch_best`: the longest text is taken that a rule describes.
* `Lexer.piece_longest`, `Lexer.cut_longest`: so it is for every piece of a text.
* `TokenRule.matches_blockComment`: what a block comment is.
* `Source.tokens_longest`: all tokens of a text are longest matches.
-/

namespace Resumable

open List

/-! ## Patterns -/

namespace Pattern

variable {p q : Pattern} {c : Char} {u v : List Char}

@[simp] theorem matches_never : never.Matches u ↔ False := ⟨nofun, False.elim⟩

@[simp] theorem matches_blank : blank.Matches u ↔ u = [] := by
  constructor
  · rintro ⟨⟩
    rfl
  · rintro rfl
    exact .blank

@[simp] theorem matches_chars {s : CharSet} :
    (chars s).Matches u ↔ ∃ c, u = [c] ∧ s.mem c = true := by
  constructor
  · rintro (_ | ⟨h⟩)
    exact ⟨_, rfl, h⟩
  · rintro ⟨c, rfl, h⟩
    exact .chars h

@[simp] theorem matches_seq :
    (seq p q).Matches u ↔ ∃ a b, u = a ++ b ∧ p.Matches a ∧ q.Matches b := by
  constructor
  · rintro (_ | _ | ⟨hp, hq⟩)
    exact ⟨_, _, rfl, hp, hq⟩
  · rintro ⟨a, b, rfl, hp, hq⟩
    exact .seq hp hq

@[simp] theorem matches_alt : (alt p q).Matches u ↔ p.Matches u ∨ q.Matches u := by
  constructor
  · rintro (_ | _ | _ | h | h)
    · exact Or.inl h
    · exact Or.inr h
  · rintro (h | h)
    · exact .altLeft h
    · exact .altRight h

@[simp] theorem matches_cat : (cat p q).Matches u ↔ (seq p q).Matches u := by
  cases p with
  | blank =>
    rw [cat, matches_seq]
    simp only [matches_blank]
    constructor
    · exact fun h => ⟨[], u, rfl, rfl, h⟩
    · rintro ⟨_, b, rfl, rfl, h⟩
      exact h
  | _ => simp [cat]

@[simp] theorem matches_or : (or p q).Matches u ↔ p.Matches u ∨ q.Matches u := by
  cases p <;> cases q <;> simp [or]

/-- A pattern is nullable if it describes the empty text. -/
theorem nullable_iff : p.nullable = true ↔ p.Matches [] := by
  induction p with
  | never => simp [nullable]
  | blank => simp [nullable]
  | chars s => simp [nullable]
  | seq p q ihp ihq =>
    rw [nullable, Bool.and_eq_true, ihp, ihq, matches_seq]
    constructor
    · exact fun ⟨hp, hq⟩ => ⟨[], [], rfl, hp, hq⟩
    · rintro ⟨a, b, hab, hp, hq⟩
      obtain ⟨rfl, rfl⟩ := List.append_eq_nil_iff.mp hab.symm
      exact ⟨hp, hq⟩
  | alt p q ihp ihq => simp [nullable, ihp, ihq]
  | star p _ => simpa [nullable] using Matches.starNil

/-- A repetition begins with one round that is not empty. -/
theorem matches_star_cons :
    (star p).Matches (c :: u) ↔ ∃ a b, u = a ++ b ∧ p.Matches (c :: a) ∧ (star p).Matches b := by
  constructor
  · intro h
    generalize hs : star p = s at h
    generalize hw : c :: u = w at h
    -- rounds that describe the empty text are passed over
    induction h with
    | starNil => cases hw
    | @starCons p' a b hp hb _ ih =>
      cases hs
      cases a with
      | nil => exact ih rfl hw
      | cons d a =>
        obtain ⟨rfl, rfl⟩ := List.cons.inj hw
        exact ⟨a, b, rfl, hp, hb⟩
    | _ => cases hs
  · rintro ⟨a, b, rfl, hp, hb⟩
    exact .starCons hp hb

/-- What the derivative describes. -/
theorem matches_derive : (p.derive c).Matches u ↔ p.Matches (c :: u) := by
  induction p generalizing u with
  | never => simp [derive]
  | blank => simp [derive]
  | chars s =>
    unfold derive
    split
    · next h =>
      rw [matches_blank, matches_chars]
      constructor
      · rintro rfl
        exact ⟨c, rfl, h⟩
      · rintro ⟨d, hd, -⟩
        exact (List.cons.inj hd).2
    · next h => simp [h]
  | seq p q ihp ihq =>
    -- The character belongs to the first pattern, or to the second if the first may be empty.
    have hcat : (cat (p.derive c) q).Matches u ↔
        ∃ a b, u = a ++ b ∧ p.Matches (c :: a) ∧ q.Matches b := by
      simp [ihp]
    unfold derive
    split
    · next hnull =>
      rw [matches_or, hcat, ihq, matches_seq]
      constructor
      · rintro (⟨a, b, rfl, ha, hb⟩ | h)
        · exact ⟨c :: a, b, rfl, ha, hb⟩
        · exact ⟨[], c :: u, rfl, nullable_iff.mp hnull, h⟩
      · rintro ⟨a, b, hu, ha, hb⟩
        rcases List.cons_eq_append_iff.mp hu with ⟨rfl, rfl⟩ | ⟨a', rfl, rfl⟩
        · exact Or.inr hb
        · exact Or.inl ⟨a', b, rfl, ha, hb⟩
    · next hnull =>
      rw [hcat, matches_seq]
      constructor
      · rintro ⟨a, b, rfl, ha, hb⟩
        exact ⟨c :: a, b, rfl, ha, hb⟩
      · rintro ⟨a, b, hu, ha, hb⟩
        rcases List.cons_eq_append_iff.mp hu with ⟨rfl, rfl⟩ | ⟨a', rfl, rfl⟩
        · exact absurd (nullable_iff.mpr ha) hnull
        · exact ⟨a', b, rfl, ha, hb⟩
  | alt p q ihp ihq => simp [derive, ihp, ihq]
  | star p ih =>
    rw [derive, matches_cat, matches_seq, matches_star_cons]
    simp only [ih]

/-- A dead pattern describes nothing. -/
theorem not_matches_of_dead (h : p.dead = true) : ¬ p.Matches u := by
  induction p generalizing u with
  | never => simp
  | blank => cases h
  | chars s =>
    rintro (_ | ⟨hc⟩)
    rw [CharSet.mem, List.isEmpty_iff.mp h] at hc
    cases hc
  | seq p q ihp ihq =>
    rintro (_ | _ | ⟨hp, hq⟩)
    rcases (Bool.or_eq_true _ _).mp h with h | h
    · exact ihp h hp
    · exact ihq h hq
  | alt p q ihp ihq =>
    obtain ⟨hp, hq⟩ := (Bool.and_eq_true _ _).mp h
    rw [matches_alt]
    rintro (h | h)
    · exact ihp hp h
    · exact ihq hq h
  -- A repetition is never dead: it describes the empty text.
  | star p _ => cases h

/-- The derivative by a whole text. -/
def deriveAll (p : Pattern) (u : List Char) : Pattern := u.foldl (fun p c => p.derive c) p

theorem matches_deriveAll : (p.deriveAll u).Matches v ↔ p.Matches (u ++ v) := by
  induction u generalizing p with
  | nil => rfl
  | cons c u ih => exact ih.trans matches_derive

@[simp] theorem matches_text {s : String} : (text s).Matches u ↔ u = s.toList := by
  unfold text
  generalize s.toList = cs
  induction cs generalizing u with
  | nil => simp
  | cons c cs ih =>
    have hmem : ∀ d, (CharSet.single c).mem d = true ↔ d = c := by
      intro d
      have hle : c.toNat ≤ d.toNat ∧ d.toNat ≤ c.toNat ↔ d = c := by
        rw [← Nat.le_antisymm_iff, Char.toNat_inj, eq_comm]
      simpa [CharSet.mem, CharSet.single] using hle
    rw [List.foldr_cons, matches_cat, matches_seq]
    simp only [matches_chars, ih, hmem]
    constructor
    · rintro ⟨_, _, rfl, ⟨_, rfl, rfl⟩, rfl⟩
      rfl
    · rintro rfl
      exact ⟨[c], cs, rfl, ⟨c, rfl, rfl⟩, rfl⟩

end Pattern

/-! ## The longest token -/

namespace Lexer

variable {rules : List Pending} {c : Char} {cs w rest : List Char} {k : TokenKind}

/-- The first rule that describes the text. -/
def describing? (rules : List Pending) (w : List Char) : Option TokenKind :=
  finished? (rules.map fun r => (r.1, r.2.deriveAll w))

/-- A rule that is pending describes what may follow. -/
theorem describing?_feed (c : Char) (rules : List Pending) (w : List Char) :
    describing? (feed c rules) w = describing? rules (c :: w) := by
  induction rules with
  | nil => rfl
  | cons r rules ih =>
    simp only [describing?, finished?, feed, map_cons] at ih ⊢
    by_cases hdead : (r.2.derive c).dead = true
    · have hnull : ((r.2.derive c).deriveAll w).nullable ≠ true := fun h =>
        Pattern.not_matches_of_dead hdead
          (Pattern.matches_deriveAll.mp (Pattern.nullable_iff.mp h))
      rw [filterMap_cons_none (by simp [hdead]), find?_cons_of_neg (by exact hnull), ih]
    · rw [filterMap_cons_some (b := (r.1, r.2.derive c)) (by simp [hdead]), map_cons, find?_cons,
        find?_cons]
      split
      · exact congrArg _ (by simp_all [Pattern.deriveAll])
      · simp_all [Pattern.deriveAll]

/-- What is found from a place on: the longest text that a rule describes, or else what had been
found before. -/
theorem munch_best (rules : List Pending) (best : Option (TokenKind × Nat)) (n : Nat)
    (cs : List Char) :
    (munch rules best n cs).best = best ∧
        (∀ w, w <+: cs → w ≠ [] → describing? rules w = none) ∨
      ∃ w k, w <+: cs ∧ w ≠ [] ∧ describing? rules w = some k ∧
        (munch rules best n cs).best = some (k, n + w.length) ∧
        ∀ v, v <+: cs → describing? rules v ≠ none → v.length ≤ w.length := by
  induction cs generalizing rules best n with
  | nil => exact .inl ⟨rfl, fun w hw hne => absurd (prefix_nil.mp hw) hne⟩
  | cons c cs ih =>
    have hprefix : ∀ v, v <+: c :: cs → v = [] ∨ ∃ v', v = c :: v' ∧ v' <+: cs := by
      intro v hv
      rw [prefix_cons_iff] at hv
      exact hv
    have hfinished : describing? rules [c] = finished? (feed c rules) := by
      rw [← describing?_feed, describing?]
      simp [Pattern.deriveAll]
    rw [munch]
    dsimp only
    split
    · -- no rule can go on
      next hempty =>
      refine .inl ⟨rfl, fun w hw hne => ?_⟩
      obtain rfl | ⟨w, rfl, -⟩ := hprefix w hw
      · exact absurd rfl hne
      · rw [← describing?_feed, isEmpty_iff.mp hempty]
        rfl
    · rcases ih (feed c rules) _ (n + 1) with ⟨hbest, hnone⟩ | ⟨w, k, hw, -, hk, hbest, hmax⟩
      · have hlong : ∀ v, v <+: c :: cs → describing? rules v ≠ none → v.length ≤ 1 := by
          intro v hv hk
          obtain rfl | ⟨v, rfl, hcs⟩ := hprefix v hv
          · exact Nat.zero_le _
          · rw [← describing?_feed] at hk
            by_cases hne : v = []
            · rw [hne]
              exact Nat.le_refl _
            · exact absurd (hnone v hcs hne) hk
        rw [hbest]
        cases hk : finished? (feed c rules) with
        | some k =>
          exact .inr ⟨[c], k, by simp, by simp, hfinished.trans hk, rfl, hlong⟩
        | none =>
          refine .inl ⟨rfl, fun w hw hne => ?_⟩
          obtain rfl | ⟨w, rfl, hcs⟩ := hprefix w hw
          · exact absurd rfl hne
          · by_cases hnil : w = []
            · rw [hnil, hfinished, hk]
            · rw [← describing?_feed, hnone w hcs hnil]
      · refine .inr ⟨c :: w, k, (prefix_cons_inj c).mpr hw, by simp, ?_, ?_, fun v hv hv' => ?_⟩
        · rw [← describing?_feed, hk]
        · rw [hbest, length_cons, Nat.add_assoc, Nat.add_comm 1]
        · obtain rfl | ⟨v, rfl, hcs⟩ := hprefix v hv
          · exact Nat.zero_le _
          · rw [← describing?_feed] at hv'
            exact Nat.succ_le_succ (hmax v hcs hv')

/-- A kind is that of the first rule that describes a text, and no rule describes a longer text that
begins what is still to be read. Without a kind, no rule describes any text there. -/
def Longest (w rest : List Char) : Option TokenKind → Prop
  | some k =>
    (∃ earlier r later, TokenRule.all = earlier ++ r :: later ∧ r.kind = k ∧ r.pattern.Matches w ∧
      ∀ r' ∈ earlier, ¬ r'.pattern.Matches w) ∧
    ∀ r ∈ TokenRule.all, ∀ v, v <+: w ++ rest → r.pattern.Matches v → v.length ≤ w.length
  | none => ∀ r ∈ TokenRule.all, ∀ v, v <+: w ++ rest → v ≠ [] → ¬ r.pattern.Matches v

theorem nullable_deriveAll {p : Pattern} : (p.deriveAll w).nullable = true ↔ p.Matches w := by
  rw [Pattern.nullable_iff, Pattern.matches_deriveAll, append_nil]

theorem describing?_initial (w : List Char) : describing? initial w =
    (TokenRule.all.find? fun r => (r.pattern.deriveAll w).nullable).map (·.kind) := by
  rw [describing?, finished?, initial, map_map, find?_map, Option.map_map]
  rfl

/-- The rule that is taken is the first one that describes the text. -/
theorem first_of_describing (h : describing? initial w = some k) :
    ∃ earlier r later, TokenRule.all = earlier ++ r :: later ∧ r.kind = k ∧ r.pattern.Matches w ∧
      ∀ r' ∈ earlier, ¬ r'.pattern.Matches w := by
  rw [describing?_initial, Option.map_eq_some_iff] at h
  obtain ⟨r, hr, hk⟩ := h
  obtain ⟨hnull, earlier, later, hall, hearlier⟩ := find?_eq_some_iff_append.mp hr
  refine ⟨earlier, r, later, hall, hk, nullable_deriveAll.mp hnull, fun r' hr' hm => ?_⟩
  have hnot := hearlier r' hr'
  rw [nullable_deriveAll.mpr hm] at hnot
  cases hnot

theorem describing?_ne_none {r : TokenRule} (hr : r ∈ TokenRule.all) (h : r.pattern.Matches w) :
    describing? initial w ≠ none := by
  rw [describing?_initial, ne_eq, Option.map_eq_none_iff, find?_eq_none]
  exact fun hnone => hnone r hr (nullable_deriveAll.mpr h)

/-- A piece is the longest match at its place. -/
theorem piece_longest (c : Char) (cs : List Char) :
    Longest (c :: cs.take ((piece (c :: cs)).2 - 1)) (cs.drop ((piece (c :: cs)).2 - 1))
      (piece (c :: cs)).1 := by
  have hsplit : ∀ n, c :: cs.take n ++ cs.drop n = c :: cs := by simp
  unfold piece
  rcases munch_best initial none 0 (c :: cs) with ⟨hbest, hnone⟩ | ⟨w, k, hw, hne, hk, hbest, hmax⟩
  · split
    · next heq =>
      rw [heq] at hbest
      cases hbest
    · intro r hr v hv hne hm
      rw [hsplit] at hv
      exact describing?_ne_none hr hm (hnone v hv hne)
  · split
    · next heq =>
      rw [heq] at hbest
      cases hbest
      -- The piece is the text that was found, as it is not empty.
      have htake : c :: cs.take (0 + w.length - 1) = w := by
        obtain ⟨d, w, rfl⟩ := exists_cons_of_ne_nil hne
        obtain ⟨rfl, hw⟩ := cons_prefix_cons.mp hw
        simpa using (prefix_iff_eq_take.mp hw).symm
      refine ⟨htake.symm ▸ first_of_describing hk, fun r hr v hv hm => ?_⟩
      rw [hsplit] at hv
      rw [htake]
      exact hmax v hv (describing?_ne_none hr hm)
    · next heq =>
      rw [heq] at hbest
      cases hbest

/-- So are all pieces of a text. -/
theorem cut_longest (p : Position) (cs : List Char) : ∀ before l behind,
    cut p cs = before ++ l :: behind → Longest l.chars (behind.flatMap (·.chars)) l.kind := by
  induction p, cs using cut.induct with
  | case1 p =>
    intro before l behind h
    simp [cut] at h
  | case2 p c rest kind n hpiece taken ih =>
    have hcut : cut p (c :: rest) =
        ⟨kind, taken, p⟩ :: cut (p.advance taken) (rest.drop (n - 1)) := by
      rw [cut, hpiece]
    intro before l behind h
    rw [hcut] at h
    cases before with
    | nil =>
      obtain ⟨rfl, rfl⟩ := List.cons.inj h
      rw [(cut_tiles _ _).flatMap]
      have hlongest := piece_longest c rest
      rwa [hpiece] at hlongest
    | cons b before => exact ih before l behind (List.cons.inj h).2

end Lexer

/-! ## Block comments -/

namespace TokenRule

open Pattern

variable {u v w body : List Char} {c : Char}

theorem mem_noneOf_star : (CharSet.noneOf "*").mem c = true ↔
    c ≠ '*' ∧ c.toNat ≤ CharSet.lastCode := by
  have hchar : c = '*' ↔ c.toNat = 42 := by
    rw [← Char.toNat_inj]
    rfl
  simp only [CharSet.mem, CharSet.noneOf, CharSet.lastCode, hchar, ne_eq]
  simp [CharSet.gaps, CharSet.lastCode]
  omega

theorem mem_noneOf_starSlash : (CharSet.noneOf "*/").mem c = true ↔
    c ≠ '*' ∧ c ≠ '/' ∧ c.toNat ≤ CharSet.lastCode := by
  have hstar : c = '*' ↔ c.toNat = 42 := by
    rw [← Char.toNat_inj]
    rfl
  have hslash : c = '/' ↔ c.toNat = 47 := by
    rw [← Char.toNat_inj]
    rfl
  simp only [CharSet.mem, CharSet.noneOf, CharSet.lastCode, hstar, hslash, ne_eq]
  simp [CharSet.gaps, CharSet.lastCode]
  omega

theorem matches_stars : (star (text "*")).Matches u ↔ ∃ n, u = replicate n '*' := by
  constructor
  · intro h
    generalize hs : star (text "*") = s at h
    induction h with
    | starNil => exact ⟨0, rfl⟩
    | starCons hp _ _ ih =>
      cases hs
      obtain ⟨n, rfl⟩ := ih rfl
      obtain rfl := matches_text.mp hp
      exact ⟨n + 1, rfl⟩
    | _ => cases hs
  · rintro ⟨n, rfl⟩
    induction n with
    | zero => exact .starNil
    | succ n ih => exact Matches.starCons (u := ['*']) (matches_text.mpr rfl) ih

theorem matches_plus_stars : (plus (text "*")).Matches u ↔ ∃ n, u = replicate (n + 1) '*' := by
  rw [plus, matches_seq]
  constructor
  · rintro ⟨_, _, rfl, ha, hb⟩
    obtain rfl := matches_text.mp ha
    obtain ⟨n, rfl⟩ := matches_stars.mp hb
    exact ⟨n, rfl⟩
  · rintro ⟨n, rfl⟩
    exact ⟨['*'], replicate n '*', rfl, matches_text.mpr rfl, matches_stars.mpr ⟨n, rfl⟩⟩

/-- A part of a comment that does not end it: a character that is no star, or stars and then
neither a star nor a slash. -/
def commentPart : Pattern :=
  anyOf [chars (CharSet.noneOf "*"), inOrder [plus (text "*"), chars (CharSet.noneOf "*/")]]

/-- A part of a comment: some stars, and a character that does not close it. -/
theorem matches_commentPart : commentPart.Matches u ↔ ∃ n c, u = replicate n '*' ++ [c] ∧
    c ≠ '*' ∧ (0 < n → c ≠ '/') ∧ c.toNat ≤ CharSet.lastCode := by
  simp only [commentPart, anyOf, inOrder, foldr_cons, foldr_nil, matches_or, matches_never,
    matches_chars, matches_cat, matches_seq, matches_blank, matches_plus_stars, mem_noneOf_star,
    mem_noneOf_starSlash, or_false]
  constructor
  · rintro (⟨c, rfl, hc, hle⟩ | ⟨_, _, rfl, ⟨n, rfl⟩, _, _, rfl, ⟨c, rfl, hc, hs, hle⟩, rfl⟩)
    · exact ⟨0, c, rfl, hc, nofun, hle⟩
    · exact ⟨n + 1, c, rfl, hc, fun _ => hs, hle⟩
  · rintro ⟨_ | n, c, rfl, hc, hs, hle⟩
    · exact .inl ⟨c, rfl, hc, hle⟩
    · exact .inr ⟨_, [c], rfl, ⟨n, rfl⟩, [c], [], rfl, ⟨c, rfl, hc, hs (Nat.succ_pos n), hle⟩, rfl⟩

theorem not_closed_cons : ¬ ['*', '/'] <:+: c :: u ↔
    ¬ (c = '*' ∧ u.head? = some '/') ∧ ¬ ['*', '/'] <:+: u := by
  have hhead : ['*', '/'] <+: c :: u ↔ c = '*' ∧ u.head? = some '/' := by
    rw [cons_prefix_cons, eq_comm]
    cases u with
    | nil => simp
    | cons d u => simp [cons_prefix_cons, eq_comm]
  rw [infix_cons_iff, hhead, not_or]

theorem not_closed_part {n : Nat} (hc : c ≠ '*') (hslash : 0 < n → c ≠ '/')
    (h : ¬ ['*', '/'] <:+: u) : ¬ ['*', '/'] <:+: replicate n '*' ++ c :: u := by
  induction n with
  | zero => exact not_closed_cons.mpr ⟨fun hstar => hc hstar.1, h⟩
  | succ n ih =>
    have hslash := hslash (Nat.succ_pos n)
    refine not_closed_cons.mpr ⟨?_, ih fun _ => hslash⟩
    cases n with
    | zero => simpa using hslash
    | succ n => simp [replicate_succ]

/-- The parts of a comment, and stars before the slash that ends it, are a text that does not close
the comment together with a star behind it. -/
theorem commentParts_iff (body : List Char) :
    (∃ a n, (star commentPart).Matches a ∧ body = a ++ replicate n '*') ↔
      ¬ ['*', '/'] <:+: body ++ ['*'] ∧ ∀ c ∈ body, c.toNat ≤ CharSet.lastCode := by
  constructor
  · rintro ⟨a, n, ha, rfl⟩
    generalize hs : star commentPart = s at ha
    induction ha with
    | starNil =>
      refine ⟨fun h => ?_, fun c hc => ?_⟩
      · have hmem : '/' ∈ replicate n '*' ++ ['*'] := h.subset (by simp)
        simp [mem_replicate] at hmem
      · rw [eq_of_mem_replicate hc]
        decide
    | @starCons _ p b hp _ _ ih =>
      cases hs
      obtain ⟨hopen, hle⟩ := ih rfl
      obtain ⟨m, c, rfl, hc, hslash, hcle⟩ := matches_commentPart.mp hp
      refine ⟨?_, ?_⟩
      · simpa using not_closed_part hc hslash hopen
      · intro d hd
        simp only [append_assoc, mem_append, mem_singleton] at hd
        rcases hd with hd | rfl | hd
        · rw [eq_of_mem_replicate hd]
          decide
        · exact hcle
        · exact hle d (mem_append.mpr hd)
    | _ => cases hs
  · rintro ⟨hopen, hle⟩
    induction body with
    | nil => exact ⟨[], 0, .starNil, rfl⟩
    | cons c body ih =>
      obtain ⟨hc, hle⟩ := forall_mem_cons.mp hle
      obtain ⟨hhead, hopen⟩ := not_closed_cons.mp hopen
      obtain ⟨a, n, ha, rfl⟩ := ih hopen hle
      by_cases hstar : c = '*'
      · subst hstar
        cases a with
        | nil => exact ⟨[], n + 1, .starNil, rfl⟩
        | cons d a =>
          -- a star before the first part makes it longer
          obtain ⟨a, b, rfl, hp, hb⟩ := matches_star_cons.mp ha
          obtain ⟨m, e, hm, he, hslash, hele⟩ := matches_commentPart.mp hp
          have hpart : commentPart.Matches ('*' :: d :: a) := by
            refine matches_commentPart.mpr ⟨m + 1, e, by rw [hm]; rfl, he, fun _ => ?_, hele⟩
            rcases Nat.eq_zero_or_pos m with rfl | hpos
            · obtain ⟨rfl, -⟩ := List.cons.inj hm
              exact fun heq => hhead ⟨rfl, by simp [heq]⟩
            · exact hslash hpos
          exact ⟨'*' :: d :: a ++ b, n, .starCons hpart hb, rfl⟩
      · have hpart : commentPart.Matches [c] :=
          matches_commentPart.mpr ⟨0, c, rfl, hstar, nofun, hc⟩
        exact ⟨c :: a, n, .starCons hpart ha, rfl⟩

/-- A block comment ends at the first place where it can. -/
theorem matches_blockComment : blockComment.Matches u ↔
    ∃ body, u = "/*".toList ++ body ++ "*/".toList ∧ ¬ "*/".toList <:+: body ++ ['*'] ∧
      ∀ c ∈ body, c.toNat ≤ CharSet.lastCode := by
  have hparts : blockComment.Matches u ↔ ∃ body, u = "/*".toList ++ body ++ "*/".toList ∧
      ∃ a n, (star commentPart).Matches a ∧ body = a ++ replicate n '*' := by
    change (inOrder [text "/*", star commentPart, plus (text "*"), text "/"]).Matches u ↔ _
    simp only [inOrder, foldr_cons, foldr_nil, matches_cat, matches_seq, matches_text,
      matches_blank, matches_plus_stars]
    constructor
    · rintro ⟨_, _, rfl, rfl, a, _, rfl, ha, _, _, rfl, ⟨n, rfl⟩, _, _, rfl, rfl, rfl⟩
      refine ⟨_, ?_, a, n, ha, rfl⟩
      simp [replicate_succ', append_assoc]
    · rintro ⟨_, rfl, a, n, ha, rfl⟩
      refine ⟨_, _, append_assoc _ _ _, rfl, a, replicate (n + 1) '*' ++ ['/'], ?_, ha, _, _, rfl,
        ⟨n, rfl⟩, _, [], (append_nil _).symm, rfl, rfl⟩
      simp [replicate_succ', append_assoc]
  rw [hparts]
  exact exists_congr fun body => and_congr_right fun _ => commentParts_iff body

end TokenRule

namespace Source

theorem exists_lexeme_of_number {i : Nat} {ls : List Lexeme} {t : Token} (h : t ∈ number i ls) :
    ∃ l ∈ ls, l.kind = some t.kind ∧ t.bare = l.bare := by
  induction ls generalizing i with
  | nil => cases h
  | cons l ls ih =>
    rw [number] at h
    split at h
    · next k hk =>
      rcases mem_cons.mp h with rfl | h
      · exact ⟨l, mem_cons_self, hk, by rw [Token.bare, String.toList_ofList, Lexeme.bare]⟩
      · obtain ⟨l', hl', hrest⟩ := ih h
        exact ⟨l', mem_cons_of_mem _ hl', hrest⟩
    · obtain ⟨l', hl', hrest⟩ := ih h
      exact ⟨l', mem_cons_of_mem _ hl', hrest⟩

/-- A piece of a text, with the text around it. -/
theorem longest_of_mem {s : String} {l : Lexeme} (h : l ∈ lex s) :
    ∃ before rest, s.toList = before ++ l.chars ++ rest ∧ l.place = .behind before ∧
      l.chars ≠ [] ∧ Lexer.Longest l.chars rest l.kind := by
  obtain ⟨before, behind, hlex⟩ := append_of_mem h
  have htiles := Lexer.cut_tiles Position.start s.toList
  obtain ⟨hne, hplace⟩ := htiles.place hlex
  refine ⟨before.flatMap (·.chars), behind.flatMap (·.chars), ?_, ?_, hne, ?_⟩
  · rw [← htiles.flatMap, show Lexer.cut _ _ = _ from hlex]
    simp
  · rw [hplace, Position.advance_start]
  · exact Lexer.cut_longest _ _ before l behind hlex

/-- **The longest match.** A token of a text has the kind of the first rule that describes it, and
no rule describes a longer text from where it begins. A piece is dropped only where no rule
describes any text. Of the texts that begin with a block comment, the comment is the shortest: it
runs to the first place where it can end. -/
theorem tokens_longest (s : String) :
    (∀ t ∈ (ofText s).tokens.toList.dropLast, ∃ before rest,
      s.toList = before ++ t.text.toList ++ rest ∧ ⟨t.line, t.column⟩ = Position.behind before ∧
      t.text.toList ≠ [] ∧ Lexer.Longest t.text.toList rest (some t.kind)) ∧
    (∀ l ∈ (ofText s).dropped, ∃ before rest,
      s.toList = before ++ l.chars ++ rest ∧ l.place = .behind before ∧ l.chars ≠ [] ∧
      Lexer.Longest l.chars rest none) ∧
    ∀ u, TokenRule.blockComment.Matches u ↔
      ∃ body, u = "/*".toList ++ body ++ "*/".toList ∧ ¬ "*/".toList <:+: body ++ ['*'] ∧
        ∀ c ∈ body, c.toNat ≤ CharSet.lastCode := by
  refine ⟨fun t ht => ?_, fun l hl => ?_, fun u => TokenRule.matches_blockComment⟩
  · have hmem : t ∈ number 0 (lex s) := by simpa [ofText] using ht
    obtain ⟨l, hl, hk, hbare⟩ := exists_lexeme_of_number hmem
    obtain ⟨hplace, htext⟩ := Prod.mk.inj hbare
    obtain ⟨before, rest, hs, hp, hne, hlongest⟩ := longest_of_mem hl
    rw [hk] at hlongest
    rw [hplace, htext]
    exact ⟨before, rest, hs, hp, hne, hlongest⟩
  · obtain ⟨hl, hk⟩ := mem_filter.mp hl
    obtain ⟨before, rest, hs, hp, hne, hlongest⟩ := longest_of_mem hl
    rw [Option.isNone_iff_eq_none.mp hk] at hlongest
    exact ⟨before, rest, hs, hp, hne, hlongest⟩

end Source

end Resumable
