import Resumable.Proofs.Numbering
import Resumable.Proofs.Renaming

/-!
# What a statement becomes

A walk leaves what it puts next to a statement in the cutter. Here the row of statements is given
that a statement becomes in the end: first the calls that were taken out of its operands, then what
is put before it, the statement itself, and what is put behind it.

* `Cutting.Becomes`: what a statement becomes, as a row of statements.
* `Cutting.CutsStatement.becomes`, `Cutting.Becomes.cuts`: the rows are those of the walk.
* `Cutting.Becomes.marks`: the cuts in a row are numbered one after the other.
* `Cutting.cutsBody_of_definition`: the body of a function is as it was, or it has an entrance, and
  rows behind it.
-/

namespace Resumable

open List

variable {c c' : Cutter} {o stmt : Origin} {cs cs' : Children} {t f : Tree} {n : Node}
  {ts : List Tree}

/-- The kinds of statements that hold no others and do not leave the function. -/
def Kind.plain : Kind → Bool
  | returnStatement | statementList | ifElse | whileLoop | doWhileLoop | forLoop => false
  | _ => true

/-- The cutter with nothing next to the current statement. -/
def Cutter.fresh (c : Cutter) : Cutter := { c with before := [], after := [] }

@[simp] theorem Cutter.states_fresh (c : Cutter) : c.fresh.states = c.states := rfl

theorem Cutter.fresh_eq (hb : c.before = []) (ha : c.after = []) : c.fresh = c := by
  cases c
  simp only at hb ha
  subst hb ha
  rfl

namespace Cutting

/-- What is put behind a statement if every statement ends a state. -/
def pauses (o : Origin) (c : Cutter) : List Tree :=
  if c.splitAll then [.mk (cutNode .debugState c.log.nextId o (c.states + 1)) []] else []

/-- What is put before a statement that leaves a function with states. -/
def resets (o : Origin) (c : Cutter) : List Tree :=
  if c.states = 0 then [] else [.mk (.blank c.log.nextId .beforeReturn o) []]

/-- A statement that calls a function with states, with what is put next to it. -/
def inSub (o : Origin) (c : Cutter) (t : Tree) : List Tree :=
  [.mk (cutNode .beforeSub (c.log.nextId + 1) o (c.states + 1)) [], t,
    .mk (.blank (c.log.nextId + 2) .afterSub o) []]

mutual

/-- A statement becomes a row of statements. -/
inductive Becomes : Cutter → Tree → List Tree → Cutter → Prop
  | nop {c : Cutter} {n : Node} {cs : Children} (hk : n.kind = .nop) :
      Becomes c (.mk n cs) [.mk n cs] c.fresh
  | block {c c' : Cutter} {n : Node} {cs cs' : Children} (hk : n.kind = .statementList)
      (h : BecomesAll c cs cs' c') : Becomes c (.mk n cs) [.mk n cs'] c'
  | declaration {c c₁ : Cutter} {n : Node} {cs cs' : Children} {p : Persistence}
      (hk : n.kind = .variableDeclaration) (hp : c.persistence.declare n.id c.states = .ok p)
      (hm : startsMachine c.machines cs = false)
      (h : CutsOperands n.origin { c.fresh with persistence := p } cs cs' c₁) :
      Becomes c (.mk n cs) (c₁.before ++ .mk n cs' :: pauses n.origin c₁)
        (paused n.origin c₁).fresh
  | machineDeclaration {c c₁ : Cutter} {n m a : Node} {type : Tree} {as as' : Children}
      {p : Persistence} (hk : n.kind = .variableDeclaration)
      (hp : c.persistence.declare n.id c.states = .ok p) (hcall : m.kind = .call)
      (ha : a.kind = .argumentList) (hm : c.machines.hasStates (m.link? .declaration) = true)
      (h : CutsOperands n.origin { c.fresh with persistence := p } as as' c₁) :
      Becomes c
        (.mk n [(.declaredType, type), (.initializer, .mk m [(.argumentList, .mk a as)])])
        (c₁.before ++ inSub n.origin c₁ (.mk n [(.declaredType, type),
          (.initializer, withMachine c₁.log.nextId (.mk m [(.argumentList, .mk a as')]))]))
        (surrounded n.origin c₁).fresh
  | expression {c c₁ : Cutter} {n : Node} {cs cs' : Children}
      (hk : n.kind = .expressionStatement) (h : CutsOperands n.origin c.fresh cs cs' c₁) :
      Becomes c (.mk n cs) (c₁.before ++ .mk n cs' :: pauses n.origin c₁)
        (paused n.origin c₁).fresh
  | call {c c₁ : Cutter} {n m a : Node} {as as' : Children}
      (hk : n.kind = .callStatement) (hcall : m.kind = .call) (ha : a.kind = .argumentList)
      (h : CutsOperands n.origin c.fresh as as' c₁)
      (hm : c₁.machines.hasStates (m.link? .declaration) = false)
      (hb : m.flags.lookup .blocking = some false) :
      Becomes c (.mk n [(.expression, .mk m [(.argumentList, .mk a as)])])
        (c₁.before ++ .mk n [(.expression, .mk m [(.argumentList, .mk a as')])] ::
          pauses n.origin c₁) (paused n.origin c₁).fresh
  | machineCall {c c₁ : Cutter} {n m a : Node} {as as' : Children}
      (hk : n.kind = .callStatement) (hcall : m.kind = .call) (ha : a.kind = .argumentList)
      (h : CutsOperands n.origin c.fresh as as' c₁)
      (hm : c₁.machines.hasStates (m.link? .declaration) = true) :
      Becomes c (.mk n [(.expression, .mk m [(.argumentList, .mk a as)])])
        (c₁.before ++ inSub n.origin c₁ (.mk n [(.expression,
          withMachine c₁.log.nextId (.mk m [(.argumentList, .mk a as')]))]))
        (surrounded n.origin c₁).fresh
  | wait {c c₁ : Cutter} {n m a w : Node} {as as' : Children}
      (hk : n.kind = .callStatement) (hcall : m.kind = .call) (ha : a.kind = .argumentList)
      (h : CutsOperands n.origin c.fresh as as' c₁)
      (hm : c₁.machines.hasStates (m.link? .declaration) = false)
      (hb : m.flags.lookup .blocking = some true) (hw : WaitNode c₁ n m w) :
      Becomes c (.mk n [(.expression, .mk m [(.argumentList, .mk a as)])])
        (c₁.before ++ [.mk w [(.argumentList, .mk a as')]]) (waited n.id m.id c₁).fresh
  | branch {c c₁ c₂ : Cutter} {n : Node} {ops blocks ops' blocks' : Children}
      (hk : n.kind = .ifElse) (h₁ : CutsOperands n.origin c.fresh ops ops' c₁)
      (h₂ : BecomesBlocks c₁.fresh blocks blocks' c₂) :
      Becomes c (.mk n (ops ++ blocks)) (c₁.before ++ [.mk n (ops' ++ blocks')]) c₂
  | loop {c c₁ c₂ : Cutter} {n : Node} {ops blocks ops' blocks' : Children}
      {p : Persistence} (hk : n.kind.loops = true)
      (h₁ : CutsOperands n.origin { c.fresh with persistence := c.persistence.beginLoop c.states }
        ops ops' c₁)
      (h₂ : BecomesBlocks c₁.fresh blocks blocks' c₂)
      (hp : c₂.persistence.endLoop c₂.states = .ok p) :
      Becomes c (.mk n (ops ++ blocks)) (c₁.before ++ [.mk n (ops' ++ blocks')])
        { c₂ with persistence := p }
  | leave {c c₁ : Cutter} {n : Node} {cs cs' : Children} {o : Origin}
      (hk : n.kind = .returnStatement) (h : CutsOperands n.origin c.fresh cs cs' c₁) :
      Becomes c (.mk n cs) (c₁.before ++ resets o c₁ ++ [.mk n cs']) (wasReset o c₁).fresh

/-- A list of statements becomes another one. -/
inductive BecomesAll : Cutter → Children → Children → Cutter → Prop
  | nil {c : Cutter} : BecomesAll c [] [] c.fresh
  | cons {c c₁ c₂ : Cutter} {r : Role} {t : Tree} {ts : List Tree} {cs cs' : Children}
      (h : Becomes c t ts c₁) (hs : BecomesAll c₁ cs cs' c₂) :
      BecomesAll c ((r, t) :: cs) (ts.map (Role.statements, ·) ++ cs') c₂

/-- The blocks of a statement become other ones. -/
inductive BecomesBlocks : Cutter → Children → Children → Cutter → Prop
  | nil {c : Cutter} : BecomesBlocks c [] [] c.fresh
  | cons {c c₁ c₂ : Cutter} {r : Role} {n : Node} {cs cs' blocks blocks' : Children}
      (hk : n.kind = .statementList) (h : BecomesAll c cs cs' c₁)
      (hs : BecomesBlocks c₁ blocks blocks' c₂) :
      BecomesBlocks c ((r, .mk n cs) :: blocks) ((r, .mk n cs') :: blocks') c₂

end

/-- Induction along the blocks of a statement, which does not go into the blocks. -/
theorem BecomesBlocks.row_induction {motive : ∀ c cs cs' c', BecomesBlocks c cs cs' c' → Prop}
    (nil : ∀ {c}, motive c [] [] c.fresh .nil)
    (cons : ∀ {c c₁ c₂ r n cs cs' blocks blocks'} (hk : n.kind = .statementList)
      (h : BecomesAll c cs cs' c₁) (hs : BecomesBlocks c₁ blocks blocks' c₂),
      motive c₁ blocks blocks' c₂ hs →
      motive c ((r, .mk n cs) :: blocks) ((r, .mk n cs') :: blocks') c₂ (.cons hk h hs))
    {c : Cutter} {cs cs' : Children} {c' : Cutter} :
    ∀ h : BecomesBlocks c cs cs' c', motive c cs cs' c' h
  | .nil => nil
  | .cons hk h hs => cons hk h hs (row_induction nil cons hs)

/-! ## Rows from walks -/

mutual

theorem CutsOperand.after {stmt : Origin} {c c' : Cutter} {t t' : Tree}
    (h : CutsOperand stmt c t t' c') : c'.after = c.after :=
  match h with
  | .bare _ => rfl
  | .use _ => rfl
  | .inner _ h => h.after
  | .call _ _ h _ => h.after
  | .taken _ _ h _ => (append_nil _).trans h.after

theorem CutsOperands.after {stmt : Origin} {c c' : Cutter} {cs cs' : Children}
    (h : CutsOperands stmt c cs cs' c') : c'.after = c.after :=
  match h with
  | .nil => rfl
  | .cons h hs => hs.after.trans h.after

end

theorem row_paused (ha : c.after = []) :
    (paused o c).before ++ t :: (paused o c).after = c.before ++ t :: pauses o c := by
  unfold paused pauses
  split
  · simp [Cutter.cut, Cutter.made, ha]
  · rw [ha]

theorem row_surrounded (ha : c.after = []) :
    (surrounded o c).before ++ t :: (surrounded o c).after = c.before ++ inSub o c t := by
  simp [surrounded, Cutter.cut, Cutter.made, ha, inSub]

theorem row_waited {s call : NodeId} (ha : c.after = []) :
    (waited s call c).before ++ t :: (waited s call c).after = c.before ++ [t] := by
  simp [waited, Cutter.cut, Cutter.made, ha]

theorem row_wasReset (ha : c.after = []) :
    (wasReset o c).before ++ t :: (wasReset o c).after = c.before ++ resets o c ++ [t] := by
  unfold wasReset resets
  split
  · simp [ha]
  · simp [Cutter.made, ha]

mutual

/-- Behind a list of statements there is nothing next to the current statement that was not there
before. -/
theorem CutsStatements.beside {c c' : Cutter} {cs cs' : Children}
    (h : CutsStatements c cs cs' c') : c'.before = c.before ∧ c'.after = c.after :=
  match h with
  | .nil => ⟨rfl, rfl⟩
  | .cons _ hs => hs.beside

theorem CutsBlocks.beside {c c' : Cutter} {cs cs' : Children}
    (h : CutsBlocks c cs cs' c') : c'.before = c.before ∧ c'.after = c.after :=
  match h with
  | .nil => ⟨rfl, rfl⟩
  | .cons _ h hs =>
    ⟨hs.beside.1.trans h.beside.1, hs.beside.2.trans h.beside.2⟩

end

theorem Becomes.congr {ts' : List Tree} (h : Becomes c t ts c') (hts : ts' = ts) :
    Becomes c t ts' c' := hts ▸ h

mutual

/-- The row of a statement: what was put before it, the statement, and what was put behind it. -/
theorem CutsStatement.becomes {c₀ c c' : Cutter} {t t' : Tree} (h : CutsStatement c t t' c')
    (hc : c = c₀.fresh) : Becomes c t (c'.before ++ t' :: c'.after) c'.fresh :=
  match h with
  | .nop hk => by
    subst hc
    exact .nop hk
  | .block hk h => by
    have hrest := h.becomes
    subst hc
    rw [h.beside.1, h.beside.2]
    exact .block hk hrest
  | .declaration hk hp hm h => by
    subst hc
    -- Where nested statements are cut no neighbours are left over; elsewhere the row is written
    -- out.
    exact .congr (.declaration hk hp hm h) (row_paused h.after)
  | .machineDeclaration hk hp hcall ha hm h => by
    subst hc
    exact .congr (.machineDeclaration hk hp hcall ha hm h) (row_surrounded h.after)
  | .expression hk h => by
    subst hc
    exact .congr (.expression hk h) (row_paused h.after)
  | .call hk hcall ha h hm hb => by
    subst hc
    exact .congr (.call hk hcall ha h hm hb) (row_paused h.after)
  | .machineCall hk hcall ha h hm => by
    subst hc
    exact .congr (.machineCall hk hcall ha h hm) (row_surrounded h.after)
  | .wait hk hcall ha h hm hb hw => by
    subst hc
    exact .congr (.wait hk hcall ha h hm hb hw) (row_waited h.after)
  | .branch hk h₁ h₂ => by
    have hblocks := h₂.becomes
    subst hc
    rw [h₂.beside.1, h₂.beside.2, h₁.after]
    exact .branch hk h₁ hblocks
  | .loop hk h₁ h₂ hp => by
    have hblocks := h₂.becomes
    subst hc
    rw [h₂.beside.1, h₂.beside.2, h₁.after]
    exact Becomes.loop (c := c₀.fresh) hk h₁ hblocks hp
  | .leave hk h => by
    subst hc
    exact .congr (.leave hk h) (row_wasReset h.after)

theorem CutsStatements.becomes {c c' : Cutter} {cs cs' : Children}
    (h : CutsStatements c cs cs' c') : BecomesAll c.fresh cs cs' c'.fresh :=
  match h with
  | .nil => .nil
  | .cons h hs => .cons (h.becomes rfl) hs.becomes

theorem CutsBlocks.becomes {c c' : Cutter} {cs cs' : Children}
    (h : CutsBlocks c cs cs' c') : BecomesBlocks c.fresh cs cs' c'.fresh :=
  match h with
  | .nil => .nil
  | .cons hk h hs => .cons hk h.becomes hs.becomes

end

mutual

/-- A walk through statements does not depend on what lies next to the statement around them. -/
theorem CutsStatements.within : ∀ {c c' : Cutter} {cs cs' : Children},
    CutsStatements c cs cs' c' → ∀ b a : List Tree,
      CutsStatements { c with before := b, after := a } cs cs' { c' with before := b, after := a }
  | _, _, _, _, .nil, _, _ => .nil
  | _, _, _, _, .cons h hs, b, a => .cons h (hs.within b a)

theorem CutsBlocks.within : ∀ {c c' : Cutter} {cs cs' : Children},
    CutsBlocks c cs cs' c' → ∀ b a : List Tree,
      CutsBlocks { c with before := b, after := a } cs cs' { c' with before := b, after := a }
  | _, _, _, _, .nil, _, _ => .nil
  | _, _, _, _, .cons hk h hs, b, a => .cons hk (h.within b a) (hs.within b a)

end

mutual

/-- A row comes from a walk through its statement. -/
theorem Becomes.cuts {c c' : Cutter} {t : Tree} {ts : List Tree} (h : Becomes c t ts c') :
    ∃ t' c₁, CutsStatement c.fresh t t' c₁ ∧ ts = c₁.before ++ t' :: c₁.after ∧ c' = c₁.fresh :=
  match h with
  | .nop hk => ⟨_, _, .nop hk, rfl, rfl⟩
  | .block hk h => by
    obtain ⟨c₁, hc, rfl⟩ := h.cuts
    refine ⟨_, _, .block hk hc, ?_, rfl⟩
    rw [hc.beside.1, hc.beside.2]
    rfl
  | .declaration hk hp hm h =>
    ⟨_, _, .declaration hk hp hm h, (row_paused h.after).symm, rfl⟩
  | .machineDeclaration hk hp hcall ha hm h =>
    ⟨_, _, .machineDeclaration hk hp hcall ha hm h, (row_surrounded h.after).symm, rfl⟩
  | .expression hk h => ⟨_, _, .expression hk h, (row_paused h.after).symm, rfl⟩
  | .call hk hcall ha h hm hb =>
    ⟨_, _, .call hk hcall ha h hm hb, (row_paused h.after).symm, rfl⟩
  | .machineCall hk hcall ha h hm =>
    ⟨_, _, .machineCall hk hcall ha h hm, (row_surrounded h.after).symm, rfl⟩
  | .wait hk hcall ha h hm hb hw =>
    ⟨_, _, .wait hk hcall ha h hm hb hw, (row_waited h.after).symm, rfl⟩
  | @Becomes.branch _ c₁ _ _ _ _ _ _ hk h₁ h₂ => by
    obtain ⟨c₂, hc, rfl⟩ := h₂.cuts
    exact ⟨_, _, .branch hk h₁ (hc.within c₁.before c₁.after), by rw [h₁.after]; rfl, rfl⟩
  | @Becomes.loop _ c₁ _ _ _ _ _ _ _ hk h₁ h₂ hp => by
    obtain ⟨c₂, hc, rfl⟩ := h₂.cuts
    exact ⟨_, _, .loop hk h₁ (hc.within c₁.before c₁.after) hp, by rw [h₁.after]; rfl, rfl⟩
  | .leave hk h => ⟨_, _, .leave hk h, (row_wasReset h.after).symm, rfl⟩

theorem BecomesAll.cuts {c c' : Cutter} {cs cs' : Children} (h : BecomesAll c cs cs' c') :
    ∃ c₁, CutsStatements c.fresh cs cs' c₁ ∧ c' = c₁.fresh :=
  match h with
  | .nil => ⟨_, .nil, rfl⟩
  | .cons h hs => by
    obtain ⟨t', c₁, hc, hts, hc₁⟩ := h.cuts
    obtain ⟨c₂, hcs, hc₂⟩ := hs.cuts
    rw [hc₁] at hcs
    rw [hts]
    exact ⟨c₂, .cons hc hcs, hc₂⟩

theorem BecomesBlocks.cuts {c c' : Cutter} {cs cs' : Children}
    (h : BecomesBlocks c cs cs' c') : ∃ c₁, CutsBlocks c.fresh cs cs' c₁ ∧ c' = c₁.fresh :=
  match h with
  | .nil => ⟨_, .nil, rfl⟩
  | .cons hk h hs => by
    obtain ⟨c₁, hc, hc₁⟩ := h.cuts
    obtain ⟨c₂, hcs, hc₂⟩ := hs.cuts
    have heq : c₁.fresh.fresh = c₁ := Cutter.fresh_eq hc.beside.1 hc.beside.2
    rw [hc₁, heq] at hcs
    exact ⟨c₂, .cons hk hc hcs, hc₂⟩

end

/-! ## What is known from the walk -/

theorem Becomes.later (h : Becomes c t ts c') : Later c c' := by
  obtain ⟨t', c₁, hc, -, rfl⟩ := h.cuts
  exact (later_beside c [] []).trans (hc.later.trans (later_beside c₁ [] []))

theorem BecomesAll.later (h : BecomesAll c cs cs' c') : Later c c' := by
  obtain ⟨c₁, hc, rfl⟩ := h.cuts
  exact (later_beside c [] []).trans (hc.later.trans (later_beside c₁ [] []))

open Resumable.Tree

/-- The cuts in a row have the numbers of the states that were found in its statement. -/
theorem Becomes.marks (h : Becomes c t ts c') (ht : t.marks = []) :
    ts.flatMap Tree.marks = numbered c.states c'.states := by
  obtain ⟨t', c₁, hc, rfl, rfl⟩ := h.cuts
  obtain ⟨bef, aft, hb, ha, hm⟩ := hc.marks ht
  rw [hb, ha]
  exact hm

theorem BecomesAll.marks (h : BecomesAll c cs cs' c') (hcs : marks.go cs = []) :
    marks.go cs' = numbered c.states c'.states := by
  obtain ⟨c₁, hc, rfl⟩ := h.cuts
  exact (hc.marks hcs).2.2

theorem BecomesBlocks.marks (h : BecomesBlocks c cs cs' c') (hcs : marks.go cs = []) :
    marks.go cs' = numbered c.states c'.states := by
  obtain ⟨c₁, hc, rfl⟩ := h.cuts
  exact (hc.marks hcs).2.2

theorem CutsOperands.marks_before (h : CutsOperands stmt c cs cs' c') (hb : c.before = [])
    (hcs : marks.go cs = []) :
    c'.before.flatMap Tree.marks = numbered c.states c'.states ∧ marks.go cs' = [] := by
  obtain ⟨⟨-, ts, hts, hm⟩, hcs'⟩ := h.marks hcs
  rw [hb, nil_append] at hts
  exact ⟨hts ▸ hm, hcs'⟩

mutual

/-- An operand puts nothing in front of its statement but calls. -/
theorem CutsOperand.kind_before {stmt : Origin} {c c' : Cutter} {t t' : Tree}
    (h : CutsOperand stmt c t t' c') (hb : ∀ s ∈ c.before, s.kind = .callSub) :
    ∀ s ∈ c'.before, s.kind = .callSub :=
  match h with
  | .bare _ => hb
  | .use _ => hb
  | .inner _ h => h.kind_before hb
  | .call _ _ h _ => h.kind_before hb
  | .taken _ _ h _ => by
    intro s hs
    rcases mem_append.mp hs with hs | hs
    · exact h.kind_before hb s hs
    · rw [mem_singleton.mp hs]
      rfl

theorem CutsOperands.kind_before {stmt : Origin} {c c' : Cutter} {cs cs' : Children}
    (h : CutsOperands stmt c cs cs' c') (hb : ∀ s ∈ c.before, s.kind = .callSub) :
    ∀ s ∈ c'.before, s.kind = .callSub :=
  match h with
  | .nil => hb
  | .cons h hs => hs.kind_before (h.kind_before hb)

end

/-! ## Plain statements -/

theorem plain_pauses : ∀ t ∈ pauses o c, t.kind.plain = true := by
  intro t ht
  unfold pauses at ht
  split at ht
  · rw [mem_singleton.mp ht]
    rfl
  · cases ht

theorem plain_of_kind {k : Kind} (hk : n.kind = k) (h : k.plain = true) :
    (Tree.mk n cs).kind.plain = true :=
  (congrArg Kind.plain hk).trans h

theorem plain_inSub (ht : t.kind.plain = true) : ∀ s ∈ inSub o c t, s.kind.plain = true := by
  intro s hs
  simp only [inSub, mem_cons, not_mem_nil, or_false] at hs
  rcases hs with rfl | rfl | rfl
  · rfl
  · exact ht
  · rfl

theorem plain_waitNode {m w : Node} (h : WaitNode c n m w) : w.kind.plain = true := by
  cases h <;> rfl

theorem CutsOperand.plain {t' : Tree} (h : CutsOperand stmt c t t' c') :
    t.kind.plain = true ∧ t'.kind.plain = true := by
  have hbare : ∀ k : Kind, k.bare = true → k.plain = true := by
    intro k
    cases k <;> decide
  have hinner : ∀ k : Kind, k.inner = true → k.plain = true := by
    intro k
    cases k <;> decide
  cases h with
  | bare hk => exact ⟨hbare _ hk, hbare _ hk⟩
  | inner hk h => exact ⟨hinner _ hk, hinner _ hk⟩
  | use hk | call hk ha h hm => exact ⟨plain_of_kind hk rfl, plain_of_kind hk rfl⟩
  | taken hk ha h hm => exact ⟨plain_of_kind hk rfl, rfl⟩

theorem plain_before {c₁ : Cutter} (h : CutsOperands stmt c cs cs' c₁) (hb : c.before = []) :
    ∀ s ∈ c₁.before, s.kind.plain = true := by
  intro s hs
  rw [h.kind_before (by simp [hb]) s hs]
  rfl

/-- A plain statement becomes a row of plain ones. -/
theorem Becomes.plain (h : Becomes c t ts c') (ht : t.kind.plain = true) :
    ∀ s ∈ ts, s.kind.plain = true := by
  have hnot : ∀ {n : Node} {cs : Children} {k : Kind}, n.kind = k →
      (Tree.mk n cs).kind.plain = true → k.plain = true := by
    rintro n cs _ rfl h
    exact h
  cases h with
  | nop hk => exact forall_mem_singleton.mpr ht
  -- These kinds are not plain to begin with.
  | block hk | branch hk | leave hk => exact absurd (hnot hk ht) (by decide)
  | declaration hk hp hm h | expression hk h | call hk hcall ha h =>
    exact forall_mem_append.mpr ⟨plain_before h rfl,
      forall_mem_cons.mpr ⟨plain_of_kind hk rfl, plain_pauses⟩⟩
  | machineDeclaration hk hp hcall ha hm h | machineCall hk hcall ha h =>
    exact forall_mem_append.mpr ⟨plain_before h rfl, plain_inSub (plain_of_kind hk rfl)⟩
  | wait hk hcall ha h hm hb hw =>
    exact forall_mem_append.mpr ⟨plain_before h rfl,
      forall_mem_singleton.mpr (plain_waitNode hw)⟩
  | @loop _ c₁ _ n ops blocks ops' blocks' p hk h₁ h₂ hp =>
    refine forall_mem_append.mpr ⟨plain_before h₁ rfl, forall_mem_singleton.mpr ?_⟩
    exact ht

/-! ## Functions -/

theorem plain_first {main : Bool} (h : FirstNode f main n) : n.kind.plain = true := by
  cases h <;> rfl

theorem plain_prologue {skip : Nat} (h : prologue (cs.map (·.2)) = .ok skip) :
    ∀ p ∈ cs.take skip, p.2.kind.plain = true := by
  intro p hp
  have hmem : p.2 ∈ (cs.map (·.2)).take skip := by
    rw [← map_take]
    exact mem_map_of_mem hp
  rcases prologue_mem h _ hmem with hk | hk
  · rw [hk]
    rfl
  · rw [hk.1]
    rfl

/-- What comes before the statements that are cut: the set-up, the prologue and the dispatch. -/
def entrance (first dispatch : Node) (skip : Nat) (cs : Children) :
    Children :=
  (.statements, .mk first []) :: (cs.take skip ++ [(.statements, .mk dispatch [])])

theorem withDispatch_eq (first dispatch : Node) (skip : Nat) (cs rest : Children) :
    withDispatch first dispatch skip cs rest = entrance first dispatch skip cs ++ rest := by
  simp [withDispatch, entrance]

theorem plain_entrance {main : Bool} {first : Node} {id : NodeId} {states skip : Nat}
    (hfirst : FirstNode f main first) (hskip : prologue (cs.map (·.2)) = .ok skip)
    (hcs : marks.go cs = []) :
    ∀ p ∈ entrance first (dispatchNode id o states main) skip cs,
      p.2.kind.plain = true ∧ p.2.isCut = false := by
  refine forall_mem_cons.mpr ⟨⟨plain_first hfirst, ?_⟩, forall_mem_append.mpr
    ⟨fun p hp => ⟨plain_prologue hskip p hp, ?_⟩, forall_mem_singleton.mpr ⟨rfl, rfl⟩⟩⟩
  · exact not_isCut_of_marks (marks_eq_nil_iff.mpr ⟨mark?_first hfirst, rfl⟩)
  · exact not_isCut_of_marks (gathers_marks.eq_nil.mp hcs p (mem_of_mem_take hp))

/-- The body of a function after it was cut: it has no mark, or it begins with the dispatch and
goes on with the rows of the statements behind the prologue, some of them with other names. -/
inductive CutsBody (c : Cutter) (f : Tree) : Tree → Cutter → Prop
  | uncut {body : Tree} {c' : Cutter} (h : body.marks = []) : CutsBody c f body c'
  | machine {c₁ c' : Cutter} {main : Bool} {b first : Node} {d : Tree}
      {cs rest last : Children} {skip : Nat} {o : Origin} {g : Node → Node}
      (hf : f.child? .body = some (.mk b cs)) (hd : f.child? .declaration = some d)
      (hb : b.kind = .statementList) (hu : (Tree.mk b cs).uncut = true)
      (hskip : prologue (cs.map (·.2)) = .ok skip)
      (h : BecomesAll { c.fresh with states := 0, persistence := {} } (cs.drop skip) rest c₁)
      (hfirst : FirstNode f main first) (hg : Renames g)
      (hm : c₁.machines.add d.id d.node.name? c₁.log.nextId main c₁.persistence.kept =
        .ok c'.machines)
      (hlast : LastNodes (.mk b cs) ((Tree.mk b (entrance first
        (dispatchNode c₁.log.nextId o c₁.states main) skip cs ++ rest)).mapNodes g) main last) :
      CutsBody c f (.mk (g b) (mapNodes.go g (entrance first
        (dispatchNode c₁.log.nextId o c₁.states main) skip cs ++ rest) ++ last)) c'

theorem cutsBody_of_marks {f' body : Tree} (hb : f'.child? .body = some body) (h : f'.marks = []) :
    CutsBody c f body c' := by
  obtain ⟨n, cs⟩ := f'
  exact .uncut (gathers_marks.eq_nil.mp (marks_eq_nil_iff.mp h).2 _ (mem_of_lookup hb))

/-- The body of a function that was cut. -/
theorem CutsFunction.body {main : Bool} {c c' : Cutter} {f f' body : Tree}
    (h : CutsFunction main c f f' c') (hu : f.uncut = true) (hb : f'.child? .body = some body) :
    CutsBody c f body c' := by
  have hm := marks_of_uncut hu
  cases h with
  | rejected hmain hbody ho => exact cutsBody_of_marks hb hm
  | @stateless _ n b d cs rest skip hkind hskip h hs =>
    refine cutsBody_of_marks hb ?_
    obtain ⟨hn, hd, hb', hcs⟩ := marks_function_eq_nil_iff.mp hm
    rw [← take_append_drop skip cs, marks_go_append, append_eq_nil_iff] at hcs
    rw [marks_function hn hd hb', marks_go_append, hcs.1, (h.marks hcs.2).2.2, hs]
    rfl
  | @machine c₁ _ n b first d cs rest last skip o names hkind hskip h hs hfirst hnames hm hlast =>
    cases hb
    rw [withDispatch_eq] at hlast ⊢
    exact .machine rfl rfl hkind (uncut_child hu (mem_cons_of_mem _ mem_cons_self))
      hskip h.becomes hfirst (renames_names names) hm hlast

theorem CutsDefinition.body {c c' : Cutter} {f f' body : Tree} (h : CutsDefinition c f f' c')
    (hu : f.uncut = true) (hb : f'.child? .body = some body) : CutsBody c f body c' := by
  have hm := marks_of_uncut hu
  cases h with
  | unnamed | setUp => exact cutsBody_of_marks hb hm
  | starter hkind hfirst =>
    refine cutsBody_of_marks hb ?_
    obtain ⟨hn, hd, hb', hcs⟩ := marks_function_eq_nil_iff.mp hm
    rw [marks_function hn hd hb', marks.go, hcs]
    cases hfirst <;> rfl
  | function h => exact h.body hu hb

theorem cutsBody_of_definition {body : Tree} (hu : f.uncut = true)
    (hk : f.kind = .functionDefinition) (hf : (definition f c).2.fault = none)
    (hb : (definition f c).1.child? .body = some body) : CutsBody c f body (definition f c).2 :=
  (cutsDefinition_of_definition hu hk rfl hf).body hu hb

end Cutting

end Resumable
