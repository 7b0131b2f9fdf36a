import Resumable.Proofs.Derivation

/-!
# The sentences of the grammar

A text is parsed if and only if the grammar has a tree for it. That tree need not be one that the
parser looks for: operators may be bound in any way in it, and tails may stand below operands. But a
tree of a rule always begins with a plain alternative of the rule, and what follows can be taken as
tails one by one, a right operand without tails of its own.

* `Rule.Finds.operator`: an operator can be taken as a tail, whatever stands in its right operand.
* `ParseTree.Conforms.takes`: every tree of the grammar can be found.
* `Chart.parses_iff_derives`: a text is parsed if and only if the grammar has a tree for it.
-/

namespace Resumable

open List ParseTree

variable {r : Rule} {b : Body} {us : Forest} {l k m : List Token} {P : Token → Prop}

/-! ## Levels -/

/-- Tails behind tails. -/
theorem Extends.append {level : Nat} {s s' : Suffix} {l k m : List Token} :
    Extends r level s l k → Extends r level s' k m → Extends r level (s ++ s') l m
  | .stop, h' => h'
  | .next ht hl hb hs, h' => .next ht hl hb (hs.append h')

/-- If no tail binds more weakly, the level does not matter. -/
theorem Extends.raise {level : Nat} {s : Suffix} {l m : List Token}
    (h : ∀ t ∈ r.definition.tails, level ≤ t.strength) :
    Extends r 0 s l m → Extends r level s l m
  | .stop => .stop
  | .next ht _ hb hs => .next ht (h _ ht) hb (hs.raise h)

/-- Whether every level that the body asks for lets all tails pass. -/
def Body.loose : Body → Bool
  | .done | .token _ => true
  | .rule r level => r.definition.tails.all fun t => decide (level ≤ t.strength)
  | .seq a b | .alt a b => a.loose && b.loose
  | .opt a | .many a => a.loose

namespace Rule

theorem plain_loose (r : Rule) : ∀ a ∈ r.definition.plain, a.body.loose = true := by
  cases r <;> decide

/-- Only operators ask for levels that matter. -/
theorem tails_loose (r : Rule) (h : r ≠ .logicalOrExpression) :
    ∀ t ∈ r.definition.tails, t.body.loose = true := by
  revert h
  cases r <;> decide

theorem operator_tails : ∀ t ∈ logicalOrExpression.definition.tails,
    ∃ a level, t.body = .seq a (.rule .logicalOrExpression level) ∧ a.loose = true := by
  simp [definition, Grammar.expressions, Grammar.binaryTails, Grammar.binaryLevels]
  decide

end Rule

/-! ## Trees -/

/-- The rule can be found between the two places. -/
def Rule.Finds (r : Rule) (l m : List Token) : Prop := ∃ t, Takes (.rule r 0) [t] l m

theorem Rule.Finds.extend {s : Suffix} (h : r.Finds l k) (hs : Extends r 0 s k m) :
    r.Finds l m := by
  obtain ⟨t, h⟩ := h
  cases h with
  | rule ha hb hs' => exact ⟨_, .rule ha hb (hs'.append hs)⟩

/-- An operator behind what has been found: its right operand is taken without tails, which come
next. -/
theorem Rule.Finds.operator {t : Tail} {a : Body} {level : Nat} {m' : List Token}
    (h : Finds .logicalOrExpression l k) (ht : t ∈ logicalOrExpression.definition.tails)
    (hbody : t.body = .seq a (.rule .logicalOrExpression level)) (ha : Takes a us k m)
    (hright : Finds .logicalOrExpression m m') : Finds .logicalOrExpression l m' := by
  obtain ⟨_, hright⟩ := hright
  obtain ⟨_, _, _⟩ := t
  cases hbody
  cases hright with
  | rule hplain hoperand hs =>
    exact (h.extend (.next ht (Nat.zero_le _) (.seq ha (.rule hplain hoperand .stop)) .stop)).extend
      hs

/-- A body can be found if the trees below it can. -/
theorem Body.Derives.takes (h : b.Derives us) (hb : b.loose = true)
    (hus : ∀ t ∈ us, ∀ r l m, t.isRule r = true → t.tokens ++ m = l → r.Finds l m)
    (hl : tokens.go us ++ m = l) : ∃ ts, Takes b ts l m := by
  induction h generalizing l m with
  | done => exact ⟨[], hl ▸ .done⟩
  | token h =>
    subst h hl
    exact ⟨_, .token⟩
  | rule h =>
    obtain ⟨t, ht⟩ := hus _ (mem_singleton_self _) _ l m h (by simpa [tokens.go] using hl)
    cases ht with
    | rule ha hbody hs =>
      exact ⟨_, .rule ha hbody (hs.raise fun t ht => by simpa using all_eq_true.mp hb t ht)⟩
  | seq ha _ iha ihb =>
    obtain ⟨hba, hbb⟩ := Bool.and_eq_true_iff.mp hb
    rw [tokens_go_append, append_assoc] at hl
    obtain ⟨ts, hts⟩ := iha hba (fun t ht => hus t (mem_append_left _ ht)) hl
    obtain ⟨vs, hvs⟩ := ihb hbb (fun t ht => hus t (mem_append_right _ ht)) rfl
    exact ⟨_, .seq hts hvs⟩
  | altLeft _ ih =>
    obtain ⟨ts, hts⟩ := ih (Bool.and_eq_true_iff.mp hb).1 hus hl
    exact ⟨ts, .altLeft hts⟩
  | altRight _ ih =>
    obtain ⟨ts, hts⟩ := ih (Bool.and_eq_true_iff.mp hb).2 hus hl
    exact ⟨ts, .altRight hts⟩
  | optNone => exact ⟨[], hl ▸ .optNone⟩
  | optSome _ ih =>
    obtain ⟨ts, hts⟩ := ih hb hus hl
    exact ⟨ts, .optSome hts⟩
  | manyNil => exact ⟨[], hl ▸ .manyNil⟩
  | manyCons _ _ iha ihs =>
    rw [tokens_go_append, append_assoc] at hl
    obtain ⟨ts, hts⟩ := iha hb (fun t ht => hus t (mem_append_left _ ht)) hl
    obtain ⟨vs, hvs⟩ := ihs hb (fun t ht => hus t (mem_append_right _ ht)) rfl
    -- a round that takes nothing is left out
    rcases Nat.lt_or_eq_of_le hts.suffix.1.length_le with hlt | heq
    · exact ⟨_, .manyCons hts hlt hvs⟩
    · exact ⟨vs, hts.suffix.1.eq_of_length heq ▸ hvs⟩

/-- The children of a node are those of an alternative, or a tree of the same rule and those of a
tail. -/
theorem Form.mem_bodies {f : Form} (h : b ∈ f.bodies) :
    (∃ a ∈ f.rule.definition.plain, b = a.body) ∨
      ∃ t ∈ f.rule.definition.tails, b = .seq (.rule f.rule 0) t.body := by
  refine (mem_append.mp h).imp (fun h => ?_) fun h => ?_
  · obtain ⟨a, ha, rfl⟩ := mem_map.mp h
    exact ⟨a, (mem_filter.mp ha).1, rfl⟩
  · obtain ⟨t, ht, rfl⟩ := mem_map.mp h
    exact ⟨t, (mem_filter.mp ht).1, rfl⟩

/-- A tree of the grammar can be found, though not always as this tree. -/
theorem ParseTree.Conforms.takes {t : ParseTree} (h : t.Conforms P) (r : Rule) (l m : List Token)
    (hr : t.isRule r = true) (hl : t.tokens ++ m = l) : r.Finds l m := by
  induction h generalizing r l m with
  | leaf => cases hr
  | @node f cs hf _ ih =>
    obtain rfl : f.rule = r := by simpa [isRule, rule?] using hr
    obtain ⟨b, hb, hd⟩ := hf
    rw [tokens] at hl
    rcases Form.mem_bodies hb with ⟨a, ha, rfl⟩ | ⟨tail, htail, rfl⟩
    · obtain ⟨us, hus⟩ := hd.takes (f.rule.plain_loose a ha) ih hl
      exact ⟨_, .rule ha hus .stop⟩
    cases hd with
    | @seq _ _ ts us hfirst hrest =>
      cases hfirst with
      | @rule _ _ t ht =>
        rw [singleton_append] at hl ih
        obtain ⟨iht, ih⟩ := forall_mem_cons.mp ih
        rw [tokens.go, append_assoc] at hl
        have hfound := iht _ l _ ht hl
        -- Operators are the one rule whose tails ask for levels.
        by_cases hop : f.rule = .logicalOrExpression
        · rw [hop] at htail hfound ⊢
          obtain ⟨a, level, hbody, ha⟩ := Rule.operator_tails tail htail
          rw [hbody] at hrest
          cases hrest with
          | @seq _ _ vs _ hsign hright =>
            cases hright with
            | rule hright =>
              rw [tokens_go_append, append_assoc] at hfound
              obtain ⟨ws, hws⟩ := hsign.takes ha (fun t ht => ih t (mem_append_left _ ht)) rfl
              refine hfound.operator htail hbody hws ?_
              exact ih _ (mem_append_right _ (mem_singleton_self _)) _ _ m hright
                (by rw [tokens.go, tokens.go, append_nil])
        · obtain ⟨vs, hvs⟩ := hrest.takes (f.rule.tails_loose hop tail htail) ih rfl
          exact hfound.extend (.next htail (Nat.zero_le _) hvs .stop)

/-- The parser accepts a list of tokens if and only if it is what stands at the leaves of a tree of
the grammar for a whole text, the end of the text included. What it gives is such a tree. -/
theorem Chart.parses_iff_derives (ts : List Token) :
    ((∃ t, (build ts).parse .compilationUnit = .ok t) ↔
      ∃ t : ParseTree, t.isRule .compilationUnit = true ∧ t.Conforms (· ∈ ts) ∧ t.tokens = ts) ∧
    ∀ t, (build ts).parse .compilationUnit = .ok t →
      t.isRule .compilationUnit = true ∧ t.Conforms (· ∈ ts) ∧ t.tokens = ts := by
  have hsound : ∀ t, (build ts).parse .compilationUnit = .ok t →
      t.isRule .compilationUnit = true ∧ t.Conforms (· ∈ ts) ∧ t.tokens = ts := by
    intro t h
    obtain ⟨us, htakes⟩ := takes_of_parse h
    obtain ⟨⟨hd, hconf⟩, htokens⟩ := htakes.makes (P := (· ∈ ts)) fun _ ht => ht
    rw [goal] at hd
    generalize hus : t :: us = vs at hd
    cases hd with
    | rule hrule =>
      cases hus
      exact ⟨hrule, hconf t (mem_singleton_self t), by simpa [tokens.go] using htokens⟩
  refine ⟨⟨fun ⟨t, ht⟩ => ⟨t, hsound t ht⟩, ?_⟩, hsound⟩
  -- The tree that is found need not be this one.
  rintro ⟨t, hrule, hconf, htokens⟩
  obtain ⟨u, hu⟩ := hconf.takes _ ts [] hrule (by rw [htokens, append_nil])
  exact parses_of_takes hu

end Resumable
