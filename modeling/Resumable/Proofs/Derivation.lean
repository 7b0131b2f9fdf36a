import Resumable.Parser
import Resumable.ParseTree.Parts

/-!
# Parse trees and the grammar

Every node of a parse tree has children that an alternative of its form allows. The parser looks for
such trees in a certain way: a rule begins with a plain alternative, behind which tails follow as
long as they bind strongly enough. Its chart holds, for every rule and every place, just the places
up to which the rule can be found in this way, each with one tree.

* `Takes`, `Extends`: what the parser looks for, as relations between token lists.
* `Takes.makes`: what it finds are trees of the grammar.
* `Body.exact_read`: the reading of a body gives just the places up to which it can be found.
* `Chart.good_build`: so do all cells of a chart.
* `Chart.takes_of_parse`, `Chart.parses_of_takes`: a parse is found if and only if there is one.
-/

namespace Resumable

open List

variable {r : Rule} {c : Chart} {t : ParseTree} {b : Body} {us : Forest} {s : Suffix}
  {l k m all : List Token} {level : Nat} {P : Token → Prop}

/-! ## The trees of the grammar -/

/-- The lists of trees that a body describes, whatever binds how strongly in them. -/
inductive Body.Derives : Body → List ParseTree → Prop
  | done : Derives .done []
  | token {k : TokenKind} {t : Token} (h : t.kind = k) : Derives (.token k) [.leaf t]
  | rule {r : Rule} {level : Nat} {t : ParseTree} (h : t.isRule r = true) :
      Derives (.rule r level) [t]
  | seq {a b : Body} {ts us : List ParseTree} (ha : Derives a ts) (hb : Derives b us) :
      Derives (.seq a b) (ts ++ us)
  | altLeft {a b : Body} {ts : List ParseTree} (h : Derives a ts) : Derives (.alt a b) ts
  | altRight {a b : Body} {ts : List ParseTree} (h : Derives b ts) : Derives (.alt a b) ts
  | optNone {a : Body} : Derives (.opt a) []
  | optSome {a : Body} {ts : List ParseTree} (h : Derives a ts) : Derives (.opt a) ts
  | manyNil {a : Body} : Derives (.many a) []
  | manyCons {a : Body} {ts us : List ParseTree} (ha : Derives a ts) (hs : Derives (.many a) us) :
      Derives (.many a) (ts ++ us)

/-- The grammar allows these children below a node of the form. -/
def Form.Allows (f : Form) (cs : List ParseTree) : Prop := ∃ b ∈ f.bodies, b.Derives cs

namespace ParseTree

/-- The grammar allows every node of a tree, and all tokens have a property. -/
inductive Conforms (P : Token → Prop) : ParseTree → Prop
  | leaf {t : Token} (h : P t) : Conforms P (leaf t)
  | node {f : Form} {cs : List ParseTree} (hf : f.Allows cs) (hcs : ∀ c ∈ cs, Conforms P c) :
      Conforms P (node f cs)

theorem tokens_go_append (ts us : Forest) :
    tokens.go (ts ++ us) = tokens.go ts ++ tokens.go us := by
  induction ts with
  | nil => rfl
  | cons t ts ih => rw [cons_append, tokens.go, ih, tokens.go, append_assoc]

end ParseTree

namespace Rule

theorem rule_of_plain (r : Rule) : ∀ a ∈ r.definition.plain, a.form.rule = r := by
  cases r <;> decide

theorem rule_of_tails (r : Rule) : ∀ t ∈ r.definition.tails, t.form.rule = r := by
  cases r <;> decide

theorem bodies_of_plain {a : Alternative} (h : a ∈ r.definition.plain) :
    a.body ∈ a.form.bodies := by
  rw [Form.bodies, rule_of_plain r a h]
  refine mem_append_left _ (mem_map.mpr ⟨a, ?_, rfl⟩)
  exact mem_filter.mpr ⟨h, by simp⟩

/-- A tail stands behind a tree of its own rule. -/
theorem bodies_of_tails {t : Tail} (h : t ∈ r.definition.tails) :
    Body.seq (.rule r 0) t.body ∈ t.form.bodies := by
  rw [Form.bodies, rule_of_tails r t h]
  refine mem_append_right _ (mem_map.mpr ⟨t, ?_, rfl⟩)
  exact mem_filter.mpr ⟨h, by simp⟩

end Rule

/-! ## What the parser looks for -/

mutual

/-- A body takes trees from the front of a token list, and the second list is left. -/
inductive Takes : Body → Forest → List Token → List Token → Prop
  | done {l : List Token} : Takes .done [] l l
  | token {t : Token} {l : List Token} : Takes (.token t.kind) [.leaf t] (t :: l) l
  | rule {r : Rule} {level : Nat} {a : Alternative} {us : Forest} {s : Suffix} {l k m : List Token}
      (ha : a ∈ r.definition.plain) (hb : Takes a.body us l k) (hs : Extends r level s k m) :
      Takes (.rule r level) [Chart.fold (.node a.form us) s] l m
  | seq {a b : Body} {ts us : Forest} {l k m : List Token} (ha : Takes a ts l k)
      (hb : Takes b us k m) : Takes (.seq a b) (ts ++ us) l m
  | altLeft {a b : Body} {ts : Forest} {l m : List Token} (h : Takes a ts l m) :
      Takes (.alt a b) ts l m
  | altRight {a b : Body} {ts : Forest} {l m : List Token} (h : Takes b ts l m) :
      Takes (.alt a b) ts l m
  | optNone {a : Body} {l : List Token} : Takes (.opt a) [] l l
  | optSome {a : Body} {ts : Forest} {l m : List Token} (h : Takes a ts l m) :
      Takes (.opt a) ts l m
  | manyNil {a : Body} {l : List Token} : Takes (.many a) [] l l
  | manyCons {a : Body} {ts us : Forest} {l k m : List Token} (ha : Takes a ts l k)
      (hlt : k.length < l.length) (hs : Takes (.many a) us k m) : Takes (.many a) (ts ++ us) l m

/-- Tails of a rule that bind at least as strongly as the level. -/
inductive Extends : Rule → Nat → Suffix → List Token → List Token → Prop
  | stop {r : Rule} {level : Nat} {l : List Token} : Extends r level [] l l
  | next {r : Rule} {level : Nat} {t : Tail} {us : Forest} {s : Suffix} {l k m : List Token}
      (ht : t ∈ r.definition.tails) (hl : level ≤ t.strength) (hb : Takes t.body us l k)
      (hs : Extends r level s k m) : Extends r level ((t.form, us) :: s) l m

end

/-- Trees that a body derives, of nodes that the grammar allows. -/
def Body.Makes (P : Token → Prop) (b : Body) (ts : Forest) : Prop :=
  b.Derives ts ∧ ∀ t ∈ ts, t.Conforms P

theorem Body.Makes.append {a b d : Body} {ts us : Forest} (ha : a.Makes P ts) (hb : b.Makes P us)
    (h : d.Derives (ts ++ us)) : d.Makes P (ts ++ us) :=
  ⟨h, fun t ht => (mem_append.mp ht).elim (ha.2 t) (hb.2 t)⟩

mutual

/-- What is taken are trees of the grammar, with the tokens that were passed. -/
theorem Takes.makes {b : Body} {us : Forest} {l m : List Token} :
    Takes b us l m → (∀ t ∈ l, P t) → b.Makes P us ∧ ParseTree.tokens.go us ++ m = l
  | .done, _ => ⟨⟨.done, nofun⟩, rfl⟩
  | .token, hP => ⟨⟨.token rfl, by simpa using .leaf (hP _ mem_cons_self)⟩, rfl⟩
  | .rule ha hb hs, hP => by
    obtain ⟨⟨hd, hconf⟩, rfl⟩ := hb.makes hP
    have hnode : (ParseTree.node _ _).Conforms P :=
      .node ⟨_, Rule.bodies_of_plain ha, hd⟩ hconf
    -- The tails behind the plain alternative are folded around it.
    obtain ⟨hrule, hconf, htokens⟩ := hs.makes (fun t ht => hP t (mem_append_right _ ht))
      (by simp [ParseTree.isRule, ParseTree.rule?, Rule.rule_of_plain _ _ ha]) hnode
    refine ⟨⟨.rule hrule, by simpa using hconf⟩, ?_⟩
    simpa [ParseTree.tokens.go, ParseTree.tokens] using htokens
  | .seq ha hb, hP => by
    obtain ⟨hma, rfl⟩ := ha.makes hP
    obtain ⟨hmb, rfl⟩ := hb.makes fun t ht => hP t (mem_append_right _ ht)
    exact ⟨hma.append hmb (.seq hma.1 hmb.1), by rw [ParseTree.tokens_go_append, append_assoc]⟩
  | .altLeft h, hP => ⟨⟨.altLeft (h.makes hP).1.1, (h.makes hP).1.2⟩, (h.makes hP).2⟩
  | .altRight h, hP => ⟨⟨.altRight (h.makes hP).1.1, (h.makes hP).1.2⟩, (h.makes hP).2⟩
  | .optNone, _ => ⟨⟨.optNone, nofun⟩, rfl⟩
  | .optSome h, hP => ⟨⟨.optSome (h.makes hP).1.1, (h.makes hP).1.2⟩, (h.makes hP).2⟩
  | .manyNil, _ => ⟨⟨.manyNil, nofun⟩, rfl⟩
  | .manyCons ha _ hs, hP => by
    obtain ⟨hma, rfl⟩ := ha.makes hP
    obtain ⟨hms, rfl⟩ := hs.makes fun t ht => hP t (mem_append_right _ ht)
    exact ⟨hma.append hms (.manyCons hma.1 hms.1),
      by rw [ParseTree.tokens_go_append, append_assoc]⟩

/-- A tree with tails behind it is a tree of the same rule. -/
theorem Extends.makes {r : Rule} {level : Nat} {s : Suffix}
    {l m : List Token} :
    Extends r level s l m → (∀ t ∈ l, P t) → ∀ {u : ParseTree},
    u.isRule r = true → u.Conforms P → (Chart.fold u s).isRule r = true ∧
      (Chart.fold u s).Conforms P ∧ (Chart.fold u s).tokens ++ m = u.tokens ++ l
  | .stop, _, _, hu, hconf => ⟨hu, hconf, rfl⟩
  | @Extends.next _ _ t us s _ _ _ ht _ hb hs, hP, u, hu, hconf => by
    obtain ⟨⟨hd, hus⟩, rfl⟩ := hb.makes hP
    obtain ⟨hrule, hconf', htokens⟩ := hs.makes (u := .node t.form (u :: us))
      (fun t ht => hP t (mem_append_right _ ht))
      (by simp [ParseTree.isRule, ParseTree.rule?, Rule.rule_of_tails _ t ht])
      (.node ⟨_, Rule.bodies_of_tails ht, .seq (.rule hu) hd⟩
        (forall_mem_cons.mpr ⟨hconf, hus⟩))
    refine ⟨hrule, hconf', htokens.trans ?_⟩
    rw [ParseTree.tokens, ParseTree.tokens.go, append_assoc]

end

/-! ## What is left -/

/-- Whether the body may take no token at all. -/
def Body.nullable : Body → Bool
  | .done | .opt _ | .many _ => true
  | .token _ | .rule _ _ => false
  | .seq a b => a.nullable && b.nullable
  | .alt a b => a.nullable || b.nullable

theorem Rule.plain_not_nullable (r : Rule) : ∀ a ∈ r.definition.plain, a.body.nullable = false := by
  cases r <;> decide

mutual

/-- What is left is an end of the tokens, a shorter one unless the body may be empty. -/
theorem Takes.suffix {b : Body} {us : Forest} {l m : List Token} :
    Takes b us l m → m <:+ l ∧ (b.nullable = false → m.length < l.length)
  | .done => ⟨suffix_rfl, nofun⟩
  | .token => ⟨suffix_cons _ _, fun _ => Nat.lt_succ_self _⟩
  | .rule ha hb hs => by
    obtain ⟨hsuf, hlt⟩ := hb.suffix
    exact ⟨hs.suffix.trans hsuf, fun _ =>
      Nat.lt_of_le_of_lt hs.suffix.length_le (hlt (Rule.plain_not_nullable _ _ ha))⟩
  | .seq ha hb => by
    refine ⟨hb.suffix.1.trans ha.suffix.1, fun h => ?_⟩
    have hle := ha.suffix.1.length_le
    have hle' := hb.suffix.1.length_le
    rcases Bool.and_eq_false_iff.mp h with h | h
    · exact Nat.lt_of_le_of_lt hle' (ha.suffix.2 h)
    · exact Nat.lt_of_lt_of_le (hb.suffix.2 h) hle
  | .altLeft h => ⟨h.suffix.1, fun hn => h.suffix.2 (Bool.or_eq_false_iff.mp hn).1⟩
  | .altRight h => ⟨h.suffix.1, fun hn => h.suffix.2 (Bool.or_eq_false_iff.mp hn).2⟩
  | .optNone => ⟨suffix_rfl, nofun⟩
  | .optSome h => ⟨h.suffix.1, nofun⟩
  | .manyNil => ⟨suffix_rfl, nofun⟩
  | .manyCons ha _ hs => ⟨hs.suffix.1.trans ha.suffix.1, nofun⟩

theorem Extends.suffix {r : Rule} {level : Nat} {s : Suffix}
    {l m : List Token} :
    Extends r level s l m → m <:+ l
  | .stop => suffix_rfl
  | .next _ _ hb hs => hs.suffix.trans hb.suffix.1

end

/-! ## Readings -/

namespace Reading

variable {α β γ : Type} {x y : Reading α} {T T' : α → List Token → Prop} {n : Nat}

/-- The places where a reading can stop, in the order of preference. -/
def ends (x : Reading α) : List Nat := x.stops.map (·.1)

theorem stops_or (x y : Reading α) :
    (x.or y).stops = x.stops ++ y.stops.filter fun s => s.1 ∉ x.ends := by
  unfold Reading.or merge
  split
  · next hnil =>
    have hall : ∀ s ∈ y.stops, decide (s.1 ∉ x.ends) = true := fun s _ => by
      simp [ends, isEmpty_iff.mp hnil]
    rw [filter_eq_self.mpr hall, isEmpty_iff.mp hnil, nil_append]
  · refine congrArg _ (filter_congr fun s _ => ?_)
    rw [Bool.eq_iff_iff]
    simp only [Bool.not_eq_true', any_eq_false, beq_iff_eq, decide_eq_true_eq, ends, mem_map,
      not_exists, not_and]

theorem ends_or (x y : Reading α) : (x.or y).ends = x.ends ++ y.ends.filter (· ∉ x.ends) := by
  rw [ends, stops_or, map_append, ← ends, ends, ends, filter_map]
  rfl

theorem mem_ends_or : n ∈ (x.or y).ends ↔ n ∈ x.ends ∨ n ∈ y.ends := by
  by_cases h : n ∈ x.ends <;> simp [ends_or, h]

theorem mem_or {s : Nat × α} :
    s ∈ (x.or y).stops ↔ s ∈ x.stops ∨ s ∈ y.stops ∧ s.1 ∉ x.ends := by
  simp [stops_or]

/-- All that was read from a list is looked for, and where something is to be found, something was
read. Here `T a m` says that `a` may be read with `m` left. -/
structure Exact (l : List Token) (x : Reading α) (T : α → List Token → Prop) : Prop where
  sound {n : Nat} {a : α} : (n, a) ∈ x.stops → ∃ m, m <:+ l ∧ n = m.length ∧ T a m
  full {m : List Token} {a : α} : T a m → m <:+ l ∧ m.length ∈ x.ends

theorem Exact.change (h : x.Exact l T) (hsound : ∀ a m, T a m → T' a m)
    (hfull : ∀ a m, T' a m → ∃ a', T a' m) : x.Exact l T' := by
  refine ⟨fun hs => ?_, fun ha => (hfull _ _ ha).elim fun _ ha => h.full ha⟩
  obtain ⟨m, hm, hn, ha⟩ := h.sound hs
  exact ⟨m, hm, hn, hsound _ _ ha⟩

theorem exact_nil (l : List Token) (reach : Nat) : Exact (α := α) l ⟨[], reach⟩ fun _ _ => False :=
  ⟨nofun, nofun⟩

theorem exact_single {a : α} (h : m <:+ l) (reach : Nat) :
    Exact l ⟨[(m.length, a)], reach⟩ fun b k => k = m ∧ b = a := by
  constructor
  · intro n b hs
    obtain ⟨rfl, rfl⟩ := Prod.mk.inj (mem_singleton.mp hs)
    exact ⟨m, h, rfl, rfl, rfl⟩
  · rintro k b ⟨rfl, rfl⟩
    exact ⟨h, mem_singleton_self _⟩

/-- Either of two readings. -/
theorem Exact.or (hx : x.Exact l T) (hy : y.Exact l T') :
    (x.or y).Exact l fun a m => T a m ∨ T' a m := by
  constructor
  · intro n a hs
    rcases mem_or.mp hs with hs | ⟨hs, -⟩
    · obtain ⟨m, hm, hn, ha⟩ := hx.sound hs
      exact ⟨m, hm, hn, .inl ha⟩
    · obtain ⟨m, hm, hn, ha⟩ := hy.sound hs
      exact ⟨m, hm, hn, .inr ha⟩
  · rintro m a (ha | ha)
    · exact ⟨(hx.full ha).1, mem_ends_or.mpr (.inl (hx.full ha).2)⟩
    · exact ⟨(hy.full ha).1, mem_ends_or.mpr (.inr (hy.full ha).2)⟩

theorem Exact.map (hx : x.Exact l T) (f : α → β) :
    (x.map f).Exact l fun b m => ∃ a, T a m ∧ b = f a := by
  constructor
  · intro n b hb
    obtain ⟨s, hs, heq⟩ := mem_map.mp hb
    cases heq
    obtain ⟨m, hm, hn, ha⟩ := hx.sound hs
    exact ⟨m, hm, hn, s.2, ha, rfl⟩
  · rintro m _ ⟨a, ha, -⟩
    have hends : (x.map f).ends = x.ends := by simp [ends, Reading.map]
    exact ⟨(hx.full ha).1, hends ▸ (hx.full ha).2⟩

theorem Exact.foldl {ι : Type} {g : ι → Reading α} {Q : ι → α → List Token → Prop} {is : List ι}
    (hx : x.Exact l T) (hg : ∀ i ∈ is, (g i).Exact l (Q i)) :
    (is.foldl (fun acc i => acc.or (g i)) x).Exact l fun a m => T a m ∨ ∃ i ∈ is, Q i a m := by
  induction is generalizing x T with
  | nil => exact hx.change (fun _ _ => .inl) fun a _ h => ⟨a, by simpa using h⟩
  | cons i is ih =>
    obtain ⟨hi, his⟩ := forall_mem_cons.mp hg
    refine (ih (hx.or hi) his).change (fun a m h => ?_) fun a m h => ⟨a, ?_⟩
    · simpa only [mem_cons, exists_eq_or_imp, or_assoc] using h
    · simpa only [mem_cons, exists_eq_or_imp, or_assoc] using h

/-- One reading behind the other. -/
theorem Exact.bind {f : Nat → Reading β} {join : α → β → γ}
    {U : List Token → β → List Token → Prop} (hx : x.Exact l T)
    (hf : ∀ a m, m <:+ l → T a m → (f m.length).Exact m (U m)) :
    (x.bind f join).Exact l fun d k => ∃ a m b, T a m ∧ U m b k ∧ d = join a b := by
  have hstops : ∀ s ∈ x.stops, ((f s.1).map (join s.2)).Exact l fun d k =>
      ∃ m b, m.length = s.1 ∧ T s.2 m ∧ U m b k ∧ d = join s.2 b := by
    intro s hs
    obtain ⟨m, hm, hn, ha⟩ := hx.sound hs
    have hmap := (hf s.2 m hm ha).map (join s.2)
    rw [← hn] at hmap
    constructor
    · intro n d hd
      obtain ⟨k, hk, hn', b, hb, rfl⟩ := hmap.sound hd
      exact ⟨k, hk.trans hm, hn', m, b, hn.symm, ha, hb, rfl⟩
    · rintro k _ ⟨m', b, hlen, ha', hb, rfl⟩
      -- only one end of the list has this length
      obtain rfl : m' = m := (suffix_of_suffix_length_le (hx.full ha').1 hm
        (Nat.le_of_eq (hlen.trans hn))).eq_of_length (hlen.trans hn)
      obtain ⟨hk, hd⟩ := hmap.full ⟨b, hb, rfl⟩
      exact ⟨hk.trans hm, hd⟩
  refine (Exact.foldl (exact_nil l x.reach) hstops).change ?_ ?_
  · rintro d k (h | ⟨s, -, m, b, -, ha, hb, rfl⟩)
    · exact h.elim
    · exact ⟨s.2, m, b, ha, hb, rfl⟩
  · rintro d k ⟨a, m, b, ha, hb, rfl⟩
    obtain ⟨hm, hend⟩ := hx.full ha
    obtain ⟨⟨n, a'⟩, ha', rfl⟩ := mem_map.mp hend
    obtain ⟨m', hm', hn, hT⟩ := hx.sound ha'
    obtain rfl : m' = m := (suffix_of_suffix_length_le hm' hm
      (Nat.le_of_eq hn.symm)).eq_of_length hn.symm
    exact ⟨join a' b, .inr ⟨_, ha', m', b, rfl, hT, hb, rfl⟩⟩

end Reading

open Reading

/-- The reading gives the places up to which the rule can be found. -/
abbrev Rule.Fits (r : Rule) (level : Nat) (l : List Token) (x : Reading Forest) : Prop :=
  x.Exact l (Takes (.rule r level) · l)

/-- The reading gives the places up to which tails of the rule can be found. -/
abbrev Rule.FitsTails (r : Rule) (level : Nat) (l : List Token) (x : Reading Suffix) : Prop :=
  x.Exact l (Extends r level · l)

/-! ## What is read at a place -/

namespace Body

/-- All rules in a body have the levels at which they are asked for, and those that can stand first
have a property. -/
def leads (first : Rule → Bool) : Body → Bool
  | .done | .token _ => true
  | .rule r level => first r && decide (level < r.levels)
  | .seq a b => a.leads first && b.leads fun r => !a.nullable || first r
  | .alt a b => a.leads first && b.leads first
  | .opt a | .many a => a.leads first

/-- A body any number of times. -/
theorem exact_iterate {step : Nat → Reading Forest}
    (h : ∀ k, k <:+ l → (step k.length).Exact k (Takes b · k)) (fuel : Nat) (hk : k <:+ l)
    (hfuel : k.length ≤ fuel) :
    (iterate step fuel k.length).Exact k (Takes (.many b) · k) := by
  induction fuel generalizing k with
  | zero =>
    obtain rfl := length_eq_zero_iff.mp (Nat.le_zero.mp hfuel)
    refine (exact_single suffix_rfl _).change ?_ ?_
    · rintro us m ⟨rfl, rfl⟩
      exact .manyNil
    · intro us m hm
      exact ⟨[], suffix_nil.mp hm.suffix.1, rfl⟩
  | succ fuel ih =>
    -- A round that takes nothing is not repeated, so the fuel is enough.
    have hforward : Exact k ⟨(step k.length).stops.filter (·.1 < k.length), (step k.length).reach⟩
        fun us m => Takes b us k m ∧ m.length < k.length := by
      constructor
      · intro n us hs
        obtain ⟨hs, hlt⟩ := mem_filter.mp hs
        obtain ⟨m, hm, rfl, hus⟩ := (h k hk).sound hs
        exact ⟨m, hm, rfl, hus, by simpa using hlt⟩
      · rintro m us ⟨hus, hlt⟩
        obtain ⟨hm, hend⟩ := (h k hk).full hus
        obtain ⟨s, hs, hn⟩ := mem_map.mp hend
        exact ⟨hm, mem_map.mpr ⟨s, mem_filter.mpr ⟨hs, by simpa [hn] using hlt⟩, hn⟩⟩
    refine ((hforward.bind fun us m hm hus => ih (hm.trans hk) (by omega)).or
      (exact_single suffix_rfl _)).change ?_ ?_
    · rintro _ _ (⟨us, m, vs, ⟨hus, hlt⟩, hvs, rfl⟩ | ⟨rfl, rfl⟩)
      · exact .manyCons hus hlt hvs
      · exact .manyNil
    · intro us m hus
      cases hus with
      | manyNil => exact ⟨[], .inr ⟨rfl, rfl⟩⟩
      | manyCons ha hlt hs => exact ⟨_, .inl ⟨_, _, _, ⟨ha, hlt⟩, hs, rfl⟩⟩

/-- What is known about the rules at the place where `l` is left and behind it: something holds of
all readings of rules that are asked for behind it, and of some rules at the place itself. -/
structure Known (W : Rule → Nat → List Token → Reading Forest → Prop)
    (token : Nat → Option Token) (rules : Rule → Nat → Nat → Reading Forest) (l : List Token)
    (first : Rule → Bool) : Prop where
  token : ∀ k, k <:+ l → token k.length = k.head?
  first : ∀ r level, first r = true → level < r.levels → W r level l (rules r level l.length)
  later : ∀ k, k <:+ l → k.length < l.length → ∀ r level, level < r.levels →
    W r level k (rules r level k.length)

variable {W : Rule → Nat → List Token → Reading Forest → Prop} {token : Nat → Option Token}
  {rules : Rule → Nat → Nat → Reading Forest} {first first' : Rule → Bool}

theorem Known.next (h : Known W token rules l first) (hm : m <:+ l)
    (hsame : m.length = l.length → ∀ r, first' r = true → first r = true) :
    Known W token rules m first' := by
  refine ⟨fun k hk => h.token k (hk.trans hm), fun r level hr hlevel => ?_, fun k hk hlen =>
    h.later k (hk.trans hm) (Nat.lt_of_lt_of_le hlen hm.length_le)⟩
  rcases Nat.lt_or_eq_of_le hm.length_le with hlen | hlen
  · exact h.later m hm hlen r level hlevel
  · have hr := hsame hlen r hr
    obtain rfl := hm.eq_of_length hlen
    exact h.first r level hr hlevel

/-- A body is read exactly if the rules that it begins with are. -/
theorem exact_read (h : Known Rule.Fits token rules l first) (hb : b.leads first = true) :
    (b.read token rules l.length).Exact l (Takes b · l) := by
  induction b generalizing l first with
  | done =>
    refine (exact_single suffix_rfl _).change ?_ ?_
    · rintro us m ⟨rfl, rfl⟩
      exact .done
    · intro us m hm
      cases hm
      exact ⟨_, rfl, rfl⟩
  | token kind =>
    have hnone : ∀ reach, (∀ t k, l = t :: k → t.kind ≠ kind) →
        Exact l ⟨[], reach⟩ (Takes (.token kind) · l) := fun reach hne =>
      (exact_nil l reach).change (fun _ _ h => h.elim) fun us m hm => by
        generalize hl : l = l' at hm
        cases hm
        exact absurd rfl (hne _ _ hl)
    rw [read, h.token l suffix_rfl]
    cases l with
    | nil => exact hnone _ nofun
    | cons t l =>
      dsimp only [head?_cons]
      split
      · next hk =>
        obtain rfl := eq_of_beq hk
        refine (exact_single (suffix_cons t l) _).change ?_ ?_
        · rintro us m ⟨rfl, rfl⟩
          exact .token
        · intro us m hm
          generalize hk : t.kind = kind at hm
          cases hm
          exact ⟨_, rfl, rfl⟩
      · next hk =>
        refine hnone _ fun u k hu => ?_
        cases hu
        simpa using hk
  | rule r level =>
    obtain ⟨hr, hlevel⟩ := Bool.and_eq_true_iff.mp hb
    exact h.first r level hr (by simpa using hlevel)
  | seq a b iha ihb =>
    obtain ⟨ha, hb⟩ := Bool.and_eq_true_iff.mp hb
    refine ((iha h ha).bind (U := fun m => (Takes b · m)) ?_).change ?_ ?_
    · intro us m hm hus
      -- where nothing was taken, the second body is read at the same place
      refine ihb (h.next hm fun hlen r hr => ?_) hb
      refine (Bool.or_eq_true_iff.mp hr).resolve_left fun hn => ?_
      exact absurd (hus.suffix.2 (by simpa using hn)) (by omega)
    · rintro _ _ ⟨us, m, vs, hus, hvs, rfl⟩
      exact .seq hus hvs
    · intro us m hm
      cases hm with
      | seq ha hb => exact ⟨_, _, _, _, ha, hb, rfl⟩
  | alt a b iha ihb =>
    obtain ⟨ha, hb⟩ := Bool.and_eq_true_iff.mp hb
    refine ((iha h ha).or (ihb h hb)).change ?_ ?_
    · exact fun us m h => h.elim .altLeft .altRight
    · intro us m hm
      cases hm with
      | altLeft h => exact ⟨us, .inl h⟩
      | altRight h => exact ⟨us, .inr h⟩
  | opt a ih =>
    refine ((ih h hb).or (exact_single suffix_rfl _)).change ?_ ?_
    · rintro us m (h | ⟨rfl, rfl⟩)
      · exact .optSome h
      · exact .optNone
    · intro us m hm
      cases hm with
      | optNone => exact ⟨[], .inr ⟨rfl, rfl⟩⟩
      | optSome h => exact ⟨us, .inl h⟩
  | many a ih =>
    refine exact_iterate (fun k hk => ?_) l.length suffix_rfl (Nat.le_refl _)
    exact ih (h.next hk fun _ _ hr => hr) hb

end Body

/-! ## Rules -/

namespace Rule

theorem plain_leads (r : Rule) :
    ∀ a ∈ r.definition.plain, a.body.leads (·.ctorIdx < r.ctorIdx) = true := by
  cases r <;> decide

theorem tails_lead (r : Rule) : ∀ t ∈ r.definition.tails,
    t.body.leads (·.ctorIdx < r.ctorIdx) = true ∧ t.body.nullable = false := by
  cases r <;> decide

end Rule

namespace Chart

variable {read : Body → Nat → Reading Forest}

theorem exact_readPlain (h : ∀ a ∈ r.definition.plain,
      (read a.body l.length).Exact l (Takes a.body · l)) :
    (readPlain read r l.length).Exact l fun t m =>
      ∃ a ∈ r.definition.plain, ∃ us, Takes a.body us l m ∧ t = .node a.form us :=
  (Exact.foldl (exact_nil l _) fun a ha => (h a ha).map _).change
    (fun _ _ h => h.resolve_left id) fun t _ h => ⟨t, .inr h⟩

/-- Tails are read exactly if those further on are. -/
theorem exact_readTails {later : Nat → Reading Suffix}
    (h : ∀ t ∈ r.definition.tails, (read t.body l.length).Exact l (Takes t.body · l))
    (hlater : ∀ m, m <:+ l → m.length < l.length → (later m.length).Exact m (Extends r level · m)) :
    (readTails read later r level l.length).Exact l (Extends r level · l) := by
  refine ((Exact.foldl (exact_nil l _) fun t ht => (h t (mem_filter.mp ht).1).bind
    (U := fun m => (Extends r level · m)) fun us m hm hus => hlater m hm
      (hus.suffix.2 (r.tails_lead t (mem_filter.mp ht).1).2)).or
    (exact_single suffix_rfl _)).change ?_ ?_
  · rintro _ k ((h | ⟨t, ht, us, m, s, hus, hs, rfl⟩) | ⟨rfl, rfl⟩)
    · exact h.elim
    · obtain ⟨ht, hl⟩ := mem_filter.mp ht
      exact .next ht (by simpa using hl) hus hs
    · exact .stop
  · intro s k hs
    cases hs with
    | stop => exact ⟨[], .inr ⟨rfl, rfl⟩⟩
    | next ht hl hb hs => exact ⟨_, .inl (.inr
      ⟨_, mem_filter.mpr ⟨ht, by simpa using hl⟩, _, _, _, hb, hs, rfl⟩)⟩

/-! ## Charts -/

section Charts

variable (W : Rule → Nat → List Token → Reading Forest → Prop)
  (X : Rule → Nat → List Token → Reading Suffix → Prop) (all : List Token)

/-- What holds of the readings behind a place, and of those of earlier rules at the place, goes over
to what a rule reads there. -/
def Carries : Prop :=
  ∀ (r : Rule) (level : Nat) (l : List Token) (token : Nat → Option Token)
    (rules : Rule → Nat → Nat → Reading Forest) (later : Nat → Reading Suffix),
    level < r.levels → l <:+ all → Body.Known W token rules l (·.ctorIdx < r.ctorIdx) →
    (∀ m, m <:+ l → m.length < l.length → X r level m (later m.length)) →
    W r level l ((readPlain (Body.read token rules) r l.length).bind later fun t s => [fold t s]) ∧
      X r level l (readTails (Body.read token rules) later r level l.length)

/-- The readings in a cell have a property. -/
structure GoodCell (r : Rule) (l : List Token) (cell : Cell) : Prop where
  whole : ∀ level < r.levels, ∃ t, cell.whole[level]? = some t ∧ W r level l t.get
  tails : ∀ level < r.levels, ∃ t, cell.tails[level]? = some t ∧ X r level l t.get

/-- The first cells of a row are good. -/
def GoodCells (l : List Token) (cells : Array Cell) (n : Nat) : Prop :=
  cells.size = n ∧ ∀ r : Rule, r.ctorIdx < n →
    ∃ cell, cells[r.ctorIdx]? = some cell ∧ GoodCell W X r l cell

/-- A chart whose readings from the ends of a list have a property. -/
def Good (c : Chart) : Prop :=
  ∀ l, l <:+ all → l.length < c.rows.size → ∃ row, c.rows[l.length]? = some row ∧
    row.token = l.head? ∧ GoodCells W X l row.cells Rule.all.length

variable {W X all}

theorem getElem?_all (r : Rule) : Rule.all[r.ctorIdx]? = some r := by
  cases r <;> rfl

theorem Good.row (hc : c.Good W X all) (hl : l <:+ all) (hlen : l.length < c.rows.size) :
    (c.rows[l.length]?).bind (·.token) = l.head? ∧ ∀ r : Rule, ∃ d,
      ((c.rows[l.length]?).bind fun row => row.cells[r.ctorIdx]?) = some d ∧
        GoodCell W X r l d := by
  obtain ⟨row, hrow, htoken, -, hcells⟩ := hc l hl hlen
  rw [hrow]
  exact ⟨htoken, fun r => hcells r (List.getElem?_eq_some_iff.mp (getElem?_all r)).1⟩

/-- A cell is good if the cells before it and behind it are. -/
theorem goodCell_cell {earlier : Array Cell} (hstep : Carries W X all) (hc : c.Good W X all)
    (hl : l <:+ all) (hsize : c.rows.size = l.length)
    (hearlier : GoodCells W X l earlier r.ctorIdx) :
    GoodCell W X r l (c.cell l.head? earlier r) := by
  unfold cell
  extract_lets n tokenAt cellAt wholeAt tailAt read levels
  have hrow : ∀ k, k <:+ l → k.length ≠ l.length → _ := fun k hk hne =>
    hc.row (hk.trans hl) (hsize ▸ Nat.lt_of_le_of_ne hk.length_le hne)
  -- In this row only the cells of earlier rules are known, in the rows further on all of them.
  have hcells : ∀ k, k <:+ l → ∀ r' : Rule, (k.length = l.length → r'.ctorIdx < r.ctorIdx) →
      ∃ d, cellAt k.length r' = some d ∧ GoodCell W X r' k d := by
    intro k hk r' hr
    simp only [cellAt, n, hsize, beq_iff_eq]
    split
    · next heq =>
      obtain rfl := hk.eq_of_length heq
      exact hearlier.2 r' (hr rfl)
    · next hne => exact (hrow k hk hne).2 r'
  have hwhole : ∀ k, k <:+ l → ∀ r' : Rule, (k.length = l.length → r'.ctorIdx < r.ctorIdx) →
      ∀ level < r'.levels, W r' level k (wholeAt r' level k.length) := by
    intro k hk r' hr level hlevel
    obtain ⟨d, hd, hgood⟩ := hcells k hk r' hr
    obtain ⟨t, ht, hx⟩ := hgood.whole level hlevel
    simpa only [wholeAt, hd, Option.bind_some, ht] using hx
  have hlater : ∀ level < r.levels, ∀ m, m <:+ l → m.length < l.length →
      X r level m (tailAt r level m.length) := by
    intro level hlevel m hm hlen
    obtain ⟨d, hd, hgood⟩ := hcells m hm r fun h => by omega
    obtain ⟨t, ht, hx⟩ := hgood.tails level hlevel
    simpa only [tailAt, hd, Option.bind_some, ht] using hx
  have hknown : Body.Known W tokenAt wholeAt l (·.ctorIdx < r.ctorIdx) := by
    refine ⟨fun k hk => ?_, fun r' level hr => ?_, fun k hk hlen r' => ?_⟩
    · simp only [tokenAt, n, hsize, beq_iff_eq]
      split
      · next heq => rw [hk.eq_of_length heq]
      · next hne => exact (hrow k hk hne).1
    · exact hwhole l suffix_rfl r' (fun _ => by simpa using hr) level
    · exact hwhole k hk r' fun h => by omega
  have hget : ∀ {β : Type} (f : Nat → Thunk β) (level : Nat), level < r.levels →
      (levels.map f).toArray[level]? = some (f level) := fun f level hlevel => by
    rw [getElem?_toArray, getElem?_map, getElem?_range hlevel]
    rfl
  constructor
  · intro level hlevel
    refine ⟨_, hget _ level hlevel, ?_⟩
    dsimp only [Thunk.get, n]
    rw [hsize]
    exact (hstep r level l _ _ _ hlevel hl hknown (hlater level hlevel)).1
  · intro level hlevel
    refine ⟨_, hget _ level hlevel, ?_⟩
    dsimp only [Thunk.get, n]
    rw [hsize]
    exact (hstep r level l _ _ _ hlevel hl hknown (hlater level hlevel)).2

/-- A row is filled cell by cell. -/
theorem goodCells_row (hstep : Carries W X all) (hc : c.Good W X all) (hl : l <:+ all)
    (hsize : c.rows.size = l.length) : GoodCells W X l (c.row l.head?).cells Rule.all.length := by
  -- the cells of the rules before a place are good when its cell is made
  have hfold : ∀ (rs : List Rule) (n : Nat) (earlier : Array Cell), Rule.all.drop n = rs →
      GoodCells W X l earlier n →
      GoodCells W X l (rs.foldl (fun earlier r => earlier.push (c.cell l.head? earlier r)) earlier)
        (n + rs.length) := by
    intro rs
    induction rs with
    | nil => exact fun _ _ _ hearlier => hearlier
    | cons r rs ih =>
      intro n earlier hdrop hearlier
      have hget : Rule.all[n]? = some r := by
        have hget := congrArg (·[0]?) hdrop
        simpa using hget
      rw [length_cons, ← Nat.add_assoc, Nat.add_right_comm]
      refine ih (n + 1) _ ?_ ⟨by rw [Array.size_push, hearlier.1], fun r' hr' => ?_⟩
      · rw [drop_add_one_eq_tail_drop, hdrop]
        rfl
      · rw [Array.getElem?_push, hearlier.1]
        split
        · next heq =>
          have hsame := getElem?_all r'
          rw [heq, hget] at hsame
          cases hsame
          exact ⟨_, rfl, goodCell_cell hstep hc hl hsize (heq ▸ hearlier)⟩
        · exact hearlier.2 r' (by omega)
  exact hfold Rule.all 0 #[] rfl ⟨rfl, nofun⟩

theorem Good.push (hstep : Carries W X all) (hc : c.Good W X all) (hl : l <:+ all)
    (hsize : c.rows.size = l.length) : (c.push l.head?).Good W X all := by
  intro k hk hlen
  rw [Chart.push, Array.getElem?_push, hsize]
  split
  · next heq =>
    obtain rfl : k = l := (suffix_of_suffix_length_le hk hl (Nat.le_of_eq heq)).eq_of_length heq
    exact ⟨_, rfl, rfl, goodCells_row hstep hc hl hsize⟩
  · next hne =>
    rw [Chart.push, Array.size_push] at hlen
    exact hc k hk (by omega)

/-- A chart is filled from the end of the text. -/
theorem good_build (hstep : Carries W X all) (h : l <:+ all) :
    (build l).Good W X all ∧ (build l).rows.size = l.length + 1 := by
  induction l with
  | nil => exact ⟨Good.push (l := []) hstep (fun _ _ hlen => by simp at hlen) h rfl, rfl⟩
  | cons t l ih =>
    obtain ⟨hgood, hsize⟩ := ih ((suffix_cons t l).trans h)
    exact ⟨hgood.push (l := t :: l) hstep h hsize, (Array.size_push _).trans (congrArg _ hsize)⟩

theorem known_build (hstep : Carries W X l) :
    Body.Known W (build l).token? (build l).whole l fun _ => true := by
  obtain ⟨hgood, hsize⟩ := good_build hstep (suffix_refl l)
  have hrow : ∀ k, k <:+ l → _ := fun k hk =>
    hgood.row hk (hsize ▸ Nat.lt_succ_of_le hk.length_le)
  have hwhole : ∀ k, k <:+ l → ∀ r level, level < r.levels →
      W r level k ((build l).whole r level k.length) := by
    intro k hk r level hlevel
    obtain ⟨d, hd, hgood⟩ := (hrow k hk).2 r
    obtain ⟨t, ht, hx⟩ := hgood.whole level hlevel
    simpa only [whole, hd, Option.bind_some, ht] using hx
  exact ⟨fun k hk => (hrow k hk).1, fun r level _ => hwhole l suffix_rfl r level,
    fun k hk _ => hwhole k hk⟩

end Charts

theorem carries_fits (all : List Token) : Carries Rule.Fits Rule.FitsTails all := by
  intro r level l token rules later _ _ hknown hlater
  constructor
  · refine ((exact_readPlain fun a ha => Body.exact_read hknown (r.plain_leads a ha)).bind
      (U := fun m => (Extends r level · m)) ?_).change ?_ ?_
    · rintro t m hm ⟨a, ha, us, hus, rfl⟩
      exact hlater m hm (hus.suffix.2 (r.plain_not_nullable a ha))
    · rintro _ k ⟨_, m, s, ⟨a, ha, us, hus, rfl⟩, hs, rfl⟩
      exact .rule ha hus hs
    · intro us m hm
      cases hm with
      | rule ha hb hs => exact ⟨_, _, _, _, ⟨_, ha, _, hb, rfl⟩, hs, rfl⟩
  · exact exact_readTails (fun t ht => Body.exact_read hknown (r.tails_lead t ht).1) hlater

/-! ## Parses -/

theorem exact_goal (l : List Token) (start : Rule) :
    ((goal start).read (build l).token? (build l).whole ((build l).rows.size - 1)).Exact l
      (Takes (goal start) · l) := by
  rw [(good_build (carries_fits l) (suffix_refl l)).2, Nat.add_sub_cancel]
  exact Body.exact_read (known_build (carries_fits l)) (by cases start <;> rfl)

theorem takes_start {start : Rule} (h : Takes (goal start) us l m) :
    ∃ t ts k, us = t :: ts ∧ Takes (.rule start 0) [t] l k := by
  unfold goal at h
  split at h
  · cases h with
    | rule ha hb hs => exact ⟨_, _, _, rfl, .rule ha hb hs⟩
  · cases h with
    | seq h _ =>
      cases h with
      | rule ha hb hs => exact ⟨_, _, _, rfl, .rule ha hb hs⟩

/-- A tree that the parser gives was found. -/
theorem takes_of_parse {start : Rule} (h : (build l).parse start = .ok t) :
    ∃ us, Takes (goal start) (t :: us) l [] := by
  unfold parse at h
  dsimp only at h
  split at h
  · next n u rest hfind =>
    cases h
    obtain ⟨m, -, hm, htakes⟩ := (exact_goal l start).sound (mem_of_find?_eq_some hfind)
    have hzero : n = 0 := by simpa using find?_some hfind
    exact ⟨rest, length_eq_zero_iff.mp (hm.symm.trans hzero) ▸ htakes⟩
  · cases h

/-- If there is something to find, the parser gives a tree. -/
theorem parses_of_takes {start : Rule} (h : Takes (goal start) us l []) :
    ∃ t, (build l).parse start = .ok t := by
  obtain ⟨⟨n, us'⟩, hs, rfl⟩ := mem_map.mp ((exact_goal l start).full h).2
  unfold parse
  dsimp only
  split
  · exact ⟨_, rfl⟩
  · next hnone =>
    exfalso
    obtain ⟨s, hfind⟩ := Option.isSome_iff_exists.mp
      (find?_isSome (p := (·.1 == 0)) |>.mpr ⟨_, hs, rfl⟩)
    obtain ⟨m, -, -, htakes⟩ := (exact_goal l start).sound (mem_of_find?_eq_some hfind)
    obtain ⟨t, ts, -, hts, -⟩ := takes_start htakes
    exact hnone s.1 t ts (by rw [hfind, ← hts])

theorem conforms_of_parse {P : Token → Prop} {start : Rule} (h : (build l).parse start = .ok t)
    (hP : ∀ tok ∈ l, P tok) : t.isRule start = true ∧ t.Conforms P := by
  obtain ⟨us, htakes⟩ := takes_of_parse h
  obtain ⟨u, ts, k, hts, htakes⟩ := takes_start htakes
  cases hts
  obtain ⟨⟨hd, hconf⟩, -⟩ := htakes.makes hP
  cases hd with
  | rule hrule => exact ⟨hrule, hconf t (mem_singleton_self t)⟩

end Chart

theorem Source.conforms_of_parse {s : Source} {start : Rule} {P : Token → Prop}
    (h : s.parse start = .ok t) (hP : ∀ tok ∈ s.visible.toList, P tok) :
    t.isRule start = true ∧ t.Conforms P :=
  Chart.conforms_of_parse h hP

end Resumable
