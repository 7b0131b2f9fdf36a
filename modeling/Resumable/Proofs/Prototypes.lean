import Resumable.Manifest.Declarations
import Resumable.Proofs.Naming
import Resumable.Proofs.Steps

/-!
# Prototypes

The text of a signature is flattened into words, which are read back by their positions. Nothing is
lost on the way: the words fall where the prototype has them, whatever blanks stand around them, and
a parameter takes as many words as it was written with.

* `Prototype.words_of_written`: a signature is flattened into its words.
* `Signature.parameters_gives`, `Signature.function_gives`: the words are read back as they were
  written.
* `Manifest.writer_gives`: so they are for the function that writes a reply.
* `Signature.prototypes_survive`: all of this for any prototype.
-/

namespace Resumable

open List Text

/-! ## Prototypes and their texts -/

/-- A parameter of a function. -/
structure Parameter where
  constant : Bool
  base : String
  stars : Nat
  name : String

/-- A function without its body. -/
structure Prototype where
  result : String
  name : String
  parameters : List Parameter

/-- The text is one word. -/
def Signature.IsWord (w : String) : Prop := w ≠ "" ∧ ∀ c ∈ w.toList, separates c = false

open Signature

instance (w : String) : Decidable (IsWord w) :=
  decidable_of_iff (w ≠ "" ∧ w.toList.all (!separates ·) = true) (by simp [IsWord])

/-- The characters are blanks. -/
def Blanks (g : List Char) : Prop := ∀ c ∈ g, isBlank c = true

instance (g : List Char) : Decidable (Blanks g) :=
  decidable_of_iff (g.all isBlank = true) all_eq_true

namespace Parameter

/-- The words of a parameter can be told apart: its base is not the word for constants and does not
end in a star. -/
structure Proper (p : Parameter) : Prop where
  base : IsWord p.base
  name : IsWord p.name
  not_const : p.base ≠ "const"
  not_star : p.base.toList.getLast? ≠ some '*'

/-- The type of a parameter with its stars, in one word. -/
def typeWord (p : Parameter) : String := String.ofList (p.base.toList ++ replicate p.stars '*')

/-- The words of a parameter. -/
def words (p : Parameter) : List String :=
  if p.constant then ["const", p.typeWord, p.name] else [p.typeWord, p.name]

/-- A text of a parameter, with any blanks around its words. -/
def Written (p : Parameter) (text : List Char) : Prop :=
  ∃ a b c d, Blanks a ∧ Blanks b ∧ b ≠ [] ∧ Blanks c ∧ c ≠ [] ∧ Blanks d ∧
    text = a ++ (if p.constant then "const".toList ++ b else []) ++ p.typeWord.toList ++ c ++
      p.name.toList ++ d

/-- A text of several parameters, with commas between them. -/
def WrittenAll : List Parameter → List Char → Prop
  | [], text => Blanks text
  | [p], text => p.Written text
  | p :: ps, text => ∃ a b, text = a ++ ',' :: b ∧ p.Written a ∧ WrittenAll ps b

/-- A type with so many pointers around it. -/
def Pointing (inner : Tree) : Nat → Tree → Prop
  | 0, t => t = inner
  | k + 1, t => ∃ n u, t = .mk n [(.pointedType, u)] ∧ n.kind = .pointerType ∧ Pointing inner k u

/-- The declaration of a parameter. -/
def Declared (p : Parameter) (child : Role × Tree) : Prop :=
  ∃ n base t, child = (.declarations, .mk n [(.parameterType, t)]) ∧ n.kind = .argumentDecl ∧
    n.text .name = .ok (some p.name) ∧ Pointing (.mk base []) p.stars t ∧
    base.kind = .simpleType ∧ base.text .name = .ok (some p.base) ∧
    base.flag .constant = p.constant

end Parameter

namespace Prototype

/-- The words of a prototype can be told apart. -/
structure Proper (f : Prototype) : Prop where
  result : IsWord f.result
  name : IsWord f.name
  parameters : ∀ p ∈ f.parameters, p.Proper

/-- The words of a prototype. -/
def words (f : Prototype) : List String :=
  f.result :: f.name :: f.parameters.flatMap Parameter.words

/-- A text of a prototype, with any blanks around its words. -/
def Written (f : Prototype) (text : List Char) : Prop :=
  ∃ a b c ps d e, Blanks a ∧ Blanks b ∧ b ≠ [] ∧ Blanks c ∧ Parameter.WrittenAll f.parameters ps ∧
    Blanks d ∧ Blanks e ∧
    text = a ++ f.result.toList ++ b ++ f.name.toList ++ c ++ '(' :: ps ++ ')' :: d ++ ';' :: e

/-- The declaration of a function. -/
def Declared (f : Prototype) (t : Tree) : Prop :=
  ∃ n r l ps, t = .mk n [(.returnType, .mk r []), (.parameters, .mk l ps)] ∧
    n.kind = .functionDecl ∧ n.text .name = .ok (some f.name) ∧ r.kind = .simpleType ∧
    r.text .name = .ok (some f.result) ∧ l.kind = .argumentDeclList ∧
    Forall₂ Parameter.Declared f.parameters ps

end Prototype

/-! ## Words -/

section Words

variable {w : String} {g u : List Char} {c : Char}

/-- What separates words is passed over. -/
theorem wordsBy_skip (hg : ∀ c ∈ g, separates c = true) (u : List Char) :
    wordsBy separates [] (g ++ u) = wordsBy separates [] u := by
  induction g with
  | nil => rfl
  | cons c g ih =>
    obtain ⟨hc, hg⟩ := forall_mem_cons.mp hg
    rw [cons_append, wordsBy, if_pos hc]
    exact ih hg

/-- A word ends where something separates it from the next one. -/
theorem wordsBy_word (hw : IsWord w) (hc : separates c = true) (u : List Char) :
    wordsBy separates [] (w.toList ++ c :: u) = w :: wordsBy separates [] u := by
  -- the letters before come last letter first
  have hread : ∀ before v, (∀ d ∈ v, separates d = false) → before ++ v ≠ [] →
      wordsBy separates before (v ++ c :: u) =
        String.ofList (before.reverse ++ v) :: wordsBy separates [] u := by
    intro before v hv hne
    induction v generalizing before with
    | nil =>
      rw [append_nil] at hne
      rw [nil_append, wordsBy, if_pos hc, if_neg (by simpa using hne), append_nil]
    | cons d v ih =>
      obtain ⟨hd, hv⟩ := forall_mem_cons.mp hv
      rw [cons_append, wordsBy, if_neg (by simp [hd]), ih (d :: before) hv (by simp)]
      simp
  have hne : w.toList ≠ [] := by simpa using hw.1
  simpa using hread [] w.toList hw.2 hne

theorem wordsBy_word_skip (hw : IsWord w) (hg : ∀ c ∈ g, separates c = true) (hne : g ≠ [])
    (u : List Char) :
    wordsBy separates [] (w.toList ++ (g ++ u)) = w :: wordsBy separates [] u := by
  obtain ⟨c, g, rfl⟩ := exists_cons_of_ne_nil hne
  obtain ⟨hc, hg⟩ := forall_mem_cons.mp hg
  rw [cons_append, wordsBy_word hw hc, wordsBy_skip hg]

theorem Blanks.separate (h : Blanks g) : ∀ c ∈ g, separates c = true := by
  intro c hc
  simp [separates, h c hc]

theorem Blanks.separate_snoc (h : Blanks g) (hc : separates c = true) :
    ∀ d ∈ g ++ [c], separates d = true := by
  intro d hd
  rcases mem_append.mp hd with hd | hd
  · exact h.separate d hd
  · rwa [mem_singleton.mp hd]

end Words

namespace Parameter

variable {p : Parameter} {u : List Char} {c : Char}

theorem Proper.isWord_typeWord (h : p.Proper) : IsWord p.typeWord := by
  refine ⟨fun hnil => h.base.1 ?_, fun c hc => ?_⟩
  · have hlist := congrArg String.toList hnil
    simp only [typeWord, String.toList_ofList, String.toList_empty, append_eq_nil_iff] at hlist
    exact String.toList_eq_nil_iff.mp hlist.1
  · rw [typeWord, String.toList_ofList, mem_append] at hc
    rcases hc with hc | hc
    · exact h.base.2 c hc
    · rw [eq_of_mem_replicate hc]
      decide

theorem isWord_const : IsWord "const" := by decide

/-- A parameter gives its words, whatever blanks stand around them. -/
theorem Written.words (h : p.Written u) (hp : p.Proper) (hc : separates c = true) (v : List Char) :
    wordsBy separates [] (u ++ c :: v) = p.words ++ wordsBy separates [] v := by
  obtain ⟨a, b, g, d, ha, hb, hbne, hg, hgne, hd, rfl⟩ := h
  have hrest : wordsBy separates [] (p.typeWord.toList ++ (g ++ (p.name.toList ++
      (d ++ [c] ++ v)))) = p.typeWord :: p.name :: wordsBy separates [] v := by
    rw [wordsBy_word_skip hp.isWord_typeWord hg.separate hgne,
      wordsBy_word_skip hp.name (hd.separate_snoc hc) (by simp)]
  rw [Parameter.words]
  split
  · have hconst := wordsBy_word_skip isWord_const hb.separate hbne
      (p.typeWord.toList ++ (g ++ (p.name.toList ++ (d ++ [c] ++ v))))
    rw [hrest] at hconst
    simpa [append_assoc, wordsBy_skip ha.separate] using hconst
  · simpa [append_assoc, wordsBy_skip ha.separate] using hrest

theorem WrittenAll.words {ps : List Parameter} (h : WrittenAll ps u) (hps : ∀ p ∈ ps, p.Proper)
    (hc : separates c = true) (v : List Char) :
    wordsBy separates [] (u ++ c :: v) = ps.flatMap Parameter.words ++ wordsBy separates [] v := by
  fun_induction WrittenAll ps u with
  | case1 u =>
    have hskip := wordsBy_skip (Blanks.separate_snoc h hc) v
    simpa using hskip
  | case2 p u => simpa using h.words (hps p (by simp)) hc v
  | case3 p ps u hne ih =>
    obtain ⟨a, b, rfl, ha, hb⟩ := h
    obtain ⟨hp, hps⟩ := forall_mem_cons.mp hps
    have hfirst := ha.words hp (c := ',') (by decide) (b ++ c :: v)
    rw [ih b hb hps] at hfirst
    simpa [append_assoc] using hfirst

end Parameter

/-- A prototype gives its words. -/
theorem Prototype.words_of_written {f : Prototype} {text : String} (h : f.Written text.toList)
    (hf : f.Proper) : Signature.words text = f.words := by
  obtain ⟨a, b, c, ps, d, e, ha, hb, hbne, hc, hps, hd, he, htext⟩ := h
  have hend : wordsBy separates [] (d ++ (';' :: e)) = [] := by
    have hall : ∀ x ∈ d ++ [';'] ++ e, separates x = true := by
      intro x hx
      rcases mem_append.mp hx with hx | hx
      · exact hd.separate_snoc (by decide) x hx
      · exact he.separate x hx
    have hskip := wordsBy_skip hall []
    simpa [wordsBy] using hskip
  have hparameters := hps.words hf.parameters (c := ')') (by decide) (d ++ (';' :: e))
  have hname := wordsBy_word_skip hf.name (hc.separate_snoc (c := '(') (by decide)) (by simp)
    (ps ++ ')' :: (d ++ (';' :: e)))
  have hresult := wordsBy_word_skip hf.result hb.separate hbne
    (f.name.toList ++ (c ++ ['('] ++ (ps ++ ')' :: (d ++ (';' :: e)))))
  rw [hname, hparameters, hend, append_nil] at hresult
  rw [Signature.words, htext]
  simpa [append_assoc, wordsBy_skip ha.separate, Prototype.words] using hresult

open Step

/-! ## Reading the words -/

namespace Signature

variable {σ : Type} [HasLog σ] {p : Parameter}

/-- The stars of a type are told apart from its name. -/
theorem splitStars_typeWord (h : p.Proper) : splitStars p.typeWord = (p.base, p.stars) := by
  have hdrop : (p.base.toList.reverse).dropWhile (· == '*') = p.base.toList.reverse := by
    rw [dropWhile_eq_self_iff]
    intro hlen
    have hlast := h.not_star
    rw [getLast?_eq_head?_reverse, head?_eq_getElem?, getElem?_eq_getElem hlen] at hlast
    simpa using hlast
  have htake : (p.base.toList.reverse).takeWhile (· == '*') = [] := by
    have hsplit := takeWhile_append_dropWhile (p := (· == '*')) (l := p.base.toList.reverse)
    rwa [hdrop, append_left_eq_self] at hsplit
  rw [splitStars, Parameter.typeWord, String.toList_ofList, reverse_append, reverse_replicate,
    dropWhile_append_of_pos (by simp), takeWhile_append_of_pos (by simp), hdrop, htake]
  simp

theorem typeWord_ne_const (h : p.Proper) : p.typeWord ≠ "const" := by
  intro heq
  have hsplit := splitStars_typeWord h
  rw [heq] at hsplit
  exact h.not_const (Prod.mk.inj hsplit).1.symm

theorem pointing_succ {n : Node} {inner t : Tree} {k : Nat} (hn : n.kind = .pointerType)
    (h : Parameter.Pointing (.mk n [(.pointedType, inner)]) k t) :
    Parameter.Pointing inner (k + 1) t := by
  induction k generalizing t with
  | zero => exact ⟨n, inner, h, hn, rfl⟩
  | succ k ih =>
    obtain ⟨m, u, rfl, hm, hu⟩ := h
    exact ⟨m, u, rfl, hm, ih hu⟩

/-- A pointer for each star. -/
theorem pointersTo_gives (o : Origin) (k : Nat) (t : Tree) :
    Gives (pointersTo o k t : Step σ Tree) (Parameter.Pointing t k) := by
  induction k generalizing t with
  | zero => exact .pure rfl
  | succ k ih =>
    refine (newNode_gives .pointerType o).bind ?_
    rintro n ⟨id, rfl⟩ x
    obtain ⟨t', x', hrun, hpointing⟩ := ih (.mk (.blank id .pointerType o) [(.pointedType, t)]) x
    exact ⟨t', x', hrun, pointing_succ rfl hpointing⟩

theorem finish_gives (o : Origin) {ps : List Parameter} {rest : List String} {n base : Node}
    (hp : p.Proper) (hn : n.kind = .argumentDecl) (hbase : base.kind = .simpleType)
    (hconst : base.flag .constant = p.constant)
    (hrest : Gives (parameters o rest : Step σ Children) (Forall₂ Parameter.Declared ps)) :
    Gives (parameters.finish o n base p.typeWord (p.name :: rest) : Step σ Children)
      (Forall₂ Parameter.Declared (p :: ps)) := by
  rw [parameters.finish, splitStars_typeWord hp]
  refine (pointersTo_gives o p.stars _).bind fun t ht => hrest.bind fun later hlater => .pure ?_
  exact .cons ⟨n.named p.name, base.named p.base, t, rfl, hn, Node.text_setText _ _ _, ht, hbase,
    Node.text_setText _ _ _, hconst⟩ hlater

/-- The parameters are read back one after the other. -/
theorem parameters_gives (o : Origin) {ps : List Parameter} (hps : ∀ p ∈ ps, p.Proper) :
    Gives (parameters o (ps.flatMap Parameter.words) : Step σ Children)
      (Forall₂ Parameter.Declared ps) := by
  induction ps with
  | nil =>
    rw [flatMap_nil, parameters]
    exact .pure .nil
  | cons p ps ih =>
    obtain ⟨hp, hps⟩ := forall_mem_cons.mp hps
    rw [flatMap_cons, Parameter.words]
    cases hconst : p.constant with
    | true =>
      rw [if_pos rfl, cons_append, cons_append, cons_append, nil_append, parameters]
      refine (newNode_gives _ o).bind ?_
      rintro n ⟨i, rfl⟩
      refine (newNode_gives _ o).bind ?_
      rintro base ⟨j, rfl⟩
      exact finish_gives o hp rfl rfl (by rw [Node.flag_setFlag, hconst]) (ih hps)
    | false =>
      -- The word of the type is not taken for a qualifier.
      rw [if_neg (by simp), cons_append, cons_append, nil_append, parameters]
      refine (newNode_gives _ o).bind ?_
      rintro n ⟨i, rfl⟩
      refine (newNode_gives _ o).bind ?_
      rintro base ⟨j, rfl⟩
      split
      · next heq _ => exact absurd heq (typeWord_ne_const hp)
      · next heq _ => exact absurd heq (typeWord_ne_const hp)
      · exact finish_gives o hp rfl rfl (by rw [hconst]; rfl) (ih hps)

/-- A prototype is read back. -/
theorem function_gives (o : Origin) {f : Prototype} {text : String} (hf : f.Proper)
    (h : f.Written text.toList) : Gives (function o text : Step σ Tree) f.Declared := by
  rw [function, Prototype.words_of_written h hf]
  dsimp only [Prototype.words]
  refine (newNode_gives _ o).bind ?_
  rintro n ⟨i, rfl⟩
  refine (newNode_gives _ o).bind ?_
  rintro r ⟨j, rfl⟩
  refine (newNode_gives _ o).bind ?_
  rintro l ⟨k, rfl⟩
  refine (parameters_gives o hf.parameters).bind fun ps hps => .pure ?_
  exact ⟨_, _, _, ps, rfl, rfl, Node.text_setText _ _ _, rfl, Node.text_setText _ _ _, rfl, hps⟩

end Signature

/-! ## The function that writes a reply -/

namespace Manifest

/-- The parameter for a field of a reply. -/
def fieldParameter (f : Field) : Parameter := ⟨false, f.type, 0, Tree.shown f.name⟩

/-- The prototype of the function that writes a reply. -/
def replyPrototype (name : String) (fields : List Field) : Prototype :=
  ⟨"void", name, ⟨false, "REPLY_HANDLE", 0, "sa_rh"⟩ :: fields.map fieldParameter⟩

theorem blanks_space : Blanks " ".toList := by decide

theorem written_field (f : Field) : (fieldParameter f).Written
    (" ".toList ++ f.type.toList ++ " ".toList ++ (Tree.shown f.name).toList) := by
  refine ⟨" ".toList, " ".toList, " ".toList, [], blanks_space, blanks_space, by decide,
    blanks_space, by decide, nofun, ?_⟩
  simp [fieldParameter, Parameter.typeWord]

theorem writtenAll_fields {p : Parameter} {u : List Char} (h : p.Written u) (fields : List Field) :
    Parameter.WrittenAll (p :: fields.map fieldParameter) (u ++ fields.flatMap fun f =>
      (", " ++ f.type ++ " " ++ Tree.shown f.name).toList) := by
  induction fields generalizing p u with
  | nil => simpa [Parameter.WrittenAll] using h
  | cons f fields ih =>
    refine ⟨u, _, ?_, h, ih (written_field f)⟩
    simp

/-- The signature that is put together for it. -/
theorem written_reply (name : String) (fields : List Field) : (replyPrototype name fields).Written
    ("void " ++ name ++ "( REPLY_HANDLE sa_rh" ++ String.join (fields.map fun f =>
      ", " ++ f.type ++ " " ++ Tree.shown f.name) ++ ");").toList := by
  have hfirst : Parameter.Written ⟨false, "REPLY_HANDLE", 0, "sa_rh"⟩
      " REPLY_HANDLE sa_rh".toList :=
    ⟨" ".toList, " ".toList, " ".toList, [], blanks_space, blanks_space, by decide, blanks_space,
      by decide, nofun, by decide⟩
  refine ⟨[], " ".toList, [], _, [], [], nofun, blanks_space, by decide, nofun,
    writtenAll_fields hfirst fields, nofun, nofun, ?_⟩
  simp [replyPrototype, flatMap_map]

/-- The types that a field may have. -/
def fieldTypes : List String := ["uint8_t", "uint16_t", "int16_t"]

theorem type_of_mem {items : List (Option String × Option String)} {fields : List Field}
    (h : fieldsOf fieldType? items = .ok fields) :
    ∀ f ∈ fields, f.type ∈ fieldTypes := by
  -- A field has one of a few types, and with any other there are no fields at all.
  have htype : ∀ s t, fieldType? s = some t → t ∈ fieldTypes := by
    intro s t hs
    unfold fieldType? numberType? at hs
    split at hs <;> simp_all [fieldTypes]
  induction items generalizing fields with
  | nil =>
    cases h
    nofun
  | cons item items ih =>
    obtain ⟨type, name⟩ := item
    rw [fieldsOf, mapM_cons] at h
    cases type with
    | none => cases h
    | some type =>
      cases ht : fieldType? (squeeze type) with
      | none =>
        simp only [ht] at h
        cases h
      | some t =>
        simp only [ht] at h
        cases hrest : fieldsOf fieldType? items with
        | error e =>
          rw [fieldsOf] at hrest
          rw [hrest] at h
          cases h
        | ok rest =>
          have hmem := ih hrest
          rw [fieldsOf] at hrest
          rw [hrest] at h
          cases h
          exact forall_mem_cons.mpr ⟨htype _ _ ht, hmem⟩

/-- The prototype is proper if the names are words. -/
theorem proper_reply {name : String} {fields : List Field} (hname : IsWord name)
    (htypes : ∀ f ∈ fields, f.type ∈ fieldTypes)
    (hnames : ∀ f ∈ fields, IsWord (Tree.shown f.name)) : (replyPrototype name fields).Proper := by
  have htype : ∀ t ∈ "REPLY_HANDLE" :: fieldTypes, IsWord t ∧ t ≠ "const" ∧
      t.toList.getLast? ≠ some '*' := by
    decide
  have hvoid : IsWord "void" := by decide
  refine ⟨hvoid, hname, forall_mem_cons.mpr ⟨?_, fun p hp => ?_⟩⟩
  · exact ⟨(htype _ mem_cons_self).1, by decide, by decide, by decide⟩
  · obtain ⟨f, hf, rfl⟩ := mem_map.mp hp
    obtain ⟨hword, hconst, hstar⟩ := htype f.type (mem_cons_of_mem _ (htypes f hf))
    exact ⟨hword, hnames f hf, hconst, hstar⟩

/-- The function that writes a reply has a parameter for each field. -/
theorem writer_gives {name : String} {fields : List Field} (hne : fields ≠ [])
    (hproper : (replyPrototype name fields).Proper) :
    Gives (writer name fields) fun ts => ∃ n g b, ts = [.mk n [(.declaration, g), b]] ∧
      n.kind = .functionDefinition ∧ (replyPrototype name fields).Declared g := by
  rw [writer, if_neg (by simpa using hne)]
  refine Gives.bind (P := fun t => ∃ n g b, t = .mk n [(.declaration, g), b] ∧
    n.kind = .functionDefinition ∧ (replyPrototype name fields).Declared g) ?_ ?_
  · refine (newNode_gives _ _).bind ?_
    rintro n ⟨i, rfl⟩
    refine (newNode_gives _ _).bind fun l _ => ?_
    refine (Signature.function_gives .manifest hproper (written_reply name fields)).bind ?_
    rintro _ ⟨m, r, ps, qs, rfl, hm⟩
    refine Gives.bind (P := fun _ => True) ?_ fun s _ =>
      .pure ⟨_, _, _, rfl, rfl, _, r, ps, qs, rfl, hm⟩
    exact (newNode_gives _ _).bind fun _ _ => .pure trivial
  · rintro _ ⟨n, g, b, rfl, hn, hg⟩
    exact .pure ⟨n, g, b, rfl, hn, hg⟩

end Manifest

/-- **Signatures survive.** The text of a prototype, with any blanks around its words, is read as
the declaration of the prototype: the name, the result and just the parameters, in their order, each
with as many pointers as it has stars around a type with its base and its constancy. So the function
that writes a reply has the handle as its first parameter, and behind it one for each field, in the
order of the manifest and with the type of the field. -/
theorem Signature.prototypes_survive :
    (∀ (σ : Type) [HasLog σ] (o : Origin) (f : Prototype) (text : String), f.Proper →
      f.Written text.toList → Gives (function o text : Step σ Tree) f.Declared) ∧
    ∀ (m : Manifest) (fields : List Field) (name : String),
      fieldsOf fieldType? m.replyItems = .ok fields → fields ≠ [] → IsWord name →
      (∀ f ∈ fields, ∃ w, f.name = some w ∧ IsWord w) →
      Gives (Manifest.writer name fields) fun ts => ∃ n g b,
        ts = [.mk n [(.declaration, g), b]] ∧ n.kind = .functionDefinition ∧
        Prototype.Declared ⟨"void", name, ⟨false, "REPLY_HANDLE", 0, "sa_rh"⟩ ::
          fields.map fun f => ⟨false, f.type, 0, Tree.shown f.name⟩⟩ g := by
  refine ⟨fun σ _ o f text hf h => function_gives o hf h, ?_⟩
  intro m fields name hfields hne hname hnames
  refine Manifest.writer_gives hne (Manifest.proper_reply hname (Manifest.type_of_mem hfields) ?_)
  intro f hf
  obtain ⟨w, hw, hword⟩ := hnames f hf
  rwa [hw]

/-- A constant with two stars, and a reply with a byte. -/
theorem Signature.prototypes_survive_send :
    (∃ t l, function (σ := Log) .manifest "uint8_t send( const  void** data );" {} = .ok t l ∧
      Prototype.Declared ⟨"uint8_t", "send", [⟨true, "void", 2, "data"⟩]⟩ t) ∧
    ∃ ts l, Manifest.writer "reply" [⟨some "level", "uint8_t"⟩] {} = .ok ts l ∧ ∃ n g b,
      ts = [.mk n [(.declaration, g), b]] ∧ n.kind = .functionDefinition ∧
      Prototype.Declared ⟨"void", "reply",
        [⟨false, "REPLY_HANDLE", 0, "sa_rh"⟩, ⟨false, "uint8_t", 0, "level"⟩]⟩ g := by
  have hword : ∀ w ∈ ["uint8_t", "send", "void", "data", "reply", "level"], IsWord w := by decide
  constructor
  · refine prototypes_survive.1 Log .manifest ⟨"uint8_t", "send", [⟨true, "void", 2, "data"⟩]⟩ _
      ⟨hword _ (by simp), hword _ (by simp), ?_⟩ ?_ {}
    · rintro p (_ | ⟨_, ⟨⟩⟩)
      exact ⟨hword _ (by simp), hword _ (by simp), by decide, by decide⟩
    · have hblank := Manifest.blanks_space
      have htwo : Blanks "  ".toList := by decide
      exact ⟨[], " ".toList, [], " const  void** data ".toList, [], [], nofun, hblank, by decide,
        nofun, ⟨" ".toList, "  ".toList, " ".toList, " ".toList, hblank, htwo, by decide, hblank,
          by decide, hblank, by decide⟩, nofun, nofun, by decide⟩
  · have hfields : fieldsOf fieldType? (Manifest.replyItems ⟨.mk "plugin" [] "" [.mk "response" []
        "" [.mk "field" [("name", "level"), ("type", "encoded-uint[max=1]")] "" []]]⟩) =
        .ok [⟨some "level", "uint8_t"⟩] := by decide
    refine prototypes_survive.2 _ _ "reply" hfields (by simp) (hword _ (by simp)) ?_ {}
    rintro f (_ | ⟨_, ⟨⟩⟩)
    exact ⟨"level", rfl, hword _ (by simp)⟩

end Resumable
