import Resumable.Construction.Constituent

/-!
# Types

References to types, from the specifiers, qualifiers and stars of a declaration.
-/

namespace Resumable

namespace Construction

/-- The specifiers of a declaration, sorted. -/
structure Specifiers where
  storage : Option ParseTree := none
  others : List ParseTree := []
  types : List ParseTree := []
  qualifiers : List ParseTree := []

def specifiers (specs : List ParseTree) : Step Log Specifiers := go {} specs
where
  go (s : Specifiers) : List ParseTree → Step Log Specifiers
    | [] => return s
    | spec :: rest => do
      match spec.child? .storageClassSpecifier, spec.child? .functionSpecifier,
        spec.child? .typeSpecifier, spec.child? .typeQualifier with
      | some c, _, _, _ =>
        match s.storage with
        | none => go { s with storage := some c } rest
        | some _ =>
          reportError spec.origin "More than one storage specifier not allowed"
          go s rest
      | _, some c, _, _ => go { s with others := s.others ++ [c] } rest
      | _, _, some c, _ => go { s with types := s.types ++ [c] } rest
      | _, _, _, some c => go { s with qualifiers := s.qualifiers ++ [c] } rest
      | _, _, _, _ => throw .wrongKind

/-- Reports a qualifier that means nothing where it stands. -/
def unsupportedQualifier {σ : Type} [HasLog σ] (origin : Origin) (qualifier : String) :
    Step σ Unit :=
  reportError origin s!"Unsupported qualifier '{qualifier}'"

/-- Adds a qualifier to a node. Named types and pointers can be constant, a type definition is
introduced by a qualifier of its own, and everything else takes none. -/
def addQualifier {σ : Type} [HasLog σ] (n : Node) (origin : Origin) (qualifier : String) :
    Step σ Node := do
  match n.kind with
  | .simpleType | .pointerType =>
    if qualifier = "const" then return n.setFlag .constant true
    unsupportedQualifier origin qualifier
    return n
  | .typedefStatement => if qualifier = "typedef" then return n else throw .noMember
  | .typeRef | .refType | .invalidType | .functionDecl | .papiFunctionDecl | .operatorDecl
  | .argumentDecl | .variableDeclaration =>
    unsupportedQualifier origin qualifier
    return n
  | _ => throw .noMember

def addQualifiers (n : Node) (qualifiers : List ParseTree) : Step Log Node :=
  qualifiers.foldlM (fun n q => addQualifier n q.origin q.text) n

/-- Adds the storage class and the function specifiers of a declaration to it. -/
def qualifyDeclaration (n : Node) (s : Specifiers) : Step Log Node :=
  addQualifiers n (s.storage.toList ++ s.others)

def baseType (types qualifiers : List ParseTree) : Step Log Tree := do
  match types with
  | [] => throw .badText
  | [spec] =>
    let n ←
      if (spec.child? .structOrUnionSpecifier).isSome || (spec.child? .enumSpecifier).isSome then
        reportError spec.origin "Unsupported type"
        newNode .invalidType spec.origin
      else
        let n ← newNode .simpleType spec.origin
        pure (n.named spec.text)
    return .mk (← addQualifiers n qualifiers) []
  -- several type words have no meaning
  | _ => throw .noMember

def starCount : ParseTree → Nat
  | .leaf _ => 0
  | .node _ cs => go cs + 1
where
  go : List ParseTree → Nat
    | [] => 0
    | c :: cs => if c.isRule .pointer then starCount c else go cs

/-- Puts pointers around a type, one for each star. All of them have the qualifiers behind the
first star. -/
def pointers (pointer : Option ParseTree) (t : Tree) : Step Log Tree :=
  match pointer with
  | none => return t
  | some p => go p (starCount p) t
where
  go (p : ParseTree) : Nat → Tree → Step Log Tree
    | 0, t => return t
    | n + 1, t => do
      let node ← newNode .pointerType p.origin
      let node ← addQualifiers node (p.childrenOf .typeQualifier)
      go p n (.mk node [(.pointedType, t)])

def specifierRow : ParseTree → List ParseTree × List ParseTree
  | .leaf _ => ([], [])
  | .node _ cs => go cs
where
  go : List ParseTree → List ParseTree × List ParseTree
    | [] => ([], [])
    | c :: cs =>
      let (types, qualifiers) := go cs
      if c.isRule .typeSpecifier then (c :: types, qualifiers)
      else if c.isRule .typeQualifier then (types, c :: qualifiers)
      else if c.isRule .specifierQualifierList then specifierRow c
      else (types, qualifiers)

def typeName (t : ParseTree) : Step Log Tree := do
  let (types, qualifiers) :=
    match t.child? .specifierQualifierList with
    | some row => specifierRow row
    | none => ([], [])
  let type ← baseType types qualifiers
  match t.child? .abstractDeclarator with
  | none => return type
  | some d =>
    match d.child? .directAbstractDeclarator with
    | some _ =>
      reportError t.origin "Unsupported type"
      return type
    | none => pointers (d.child? .pointer) type

def parameters (list : Option ParseTree) : Step Log (List (Role × Tree)) :=
  match list with
  | none => return []
  | some l => (l.childrenOf .parameterDeclaration).mapM fun p => do
    let arg ← newNode .argumentDecl p.origin
    let specs ← specifiers (p.childrenOf .declarationSpecifier)
    let arg ← qualifyDeclaration arg specs
    let type ← baseType specs.types specs.qualifiers
    match p.child? .declarator, p.child? .abstractDeclarator with
    | some d, _ =>
      let type ← pointers (d.child? .pointer) type
      let name := (d.child? .directDeclarator).bind (·.token? .identifier)
      if name.isNone then reportError p.origin "Unsupported parameter"
      let arg := arg.named (← identifierText name)
      return (.declarations, .mk arg [(.parameterType, type)])
    | _, some d =>
      let type ← pointers (d.child? .pointer) type
      if (d.child? .directAbstractDeclarator).isSome then
        reportError p.origin "Unsupported parameter"
      return (.declarations, .mk arg [(.parameterType, type)])
    | _, _ => return (.declarations, .mk arg [(.parameterType, type)])

end Construction

end Resumable
