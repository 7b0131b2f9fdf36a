import Resumable.Construction.Statements

/-!
# Declarations

The syntax trees of declarations, function definitions and directives.
-/

namespace Resumable

namespace Construction

def dropped (t : ParseTree) (message : String) : Step Log (List Tree) := do
  reportError t.origin message
  return []

def parameterList (declarator : ParseTree) : Step Log Tree := do
  let n ← newNode .argumentDeclList (originAt declarator 1)
  return .mk n (← parameters (declarator.child? .parameterTypeList))

/-- A type definition that is read as two type names in a row. -/
def plainTypedef (t : ParseTree) (specs : Specifiers) : Step Log (List Tree) := do
  match specs.types.reverse with
  | last :: first :: rest =>
    match last.child? .typedefName with
    | none => dropped t "Invalid typedef declaration"
    | some newName => do
      let n ← newNode .typedefStatement t.origin
      let name ← identifierText (newName.token? .identifier)
      let type ← baseType (first :: rest).reverse specs.qualifiers
      let n ← qualifyDeclaration (n.named name) specs
      return [.mk n [(.aliasedType, type)]]
  | _ => dropped t "Invalid typedef declaration"

def declared (isTypedef : Bool) (t item : ParseTree) (specs : Specifiers)
    (initializer : Option Constituent) : Step Log (List Tree) := do
  match item.child? .declarator with
  | none => throw .noMember
  | some declarator =>
    match declarator.child? .directDeclarator with
    | none => throw .noMember
    | some direct =>
      let type ← baseType specs.types specs.qualifiers
      let type ← pointers (declarator.child? .pointer) type
      let nameToken := direct.token? .identifier
      if isTypedef then
        let n ← newNode .typedefStatement t.origin
        let name ← identifierText nameToken
        let n ← qualifyDeclaration (n.named name) specs
        return [.mk n [(.aliasedType, type)]]
      else if nameToken.isSome then
        let n ← newNode .variableDeclaration t.origin
        let name ← identifierText nameToken
        let n := { n.named name with nameSpot := nameToken.map (·.spot) }
        let init ← optional .initializer initializer
        let n ← qualifyDeclaration n specs
        return [.mk n ((.declaredType, type) :: init)]
      else
        match direct.child? .directDeclarator with
        | none => dropped t "Unsupported declaration"
        | some inner =>
          match inner.token? .identifier with
          | none => dropped t "Invalid function declaration"
          | some tok =>
            let n ← newNode .functionDecl declarator.origin
            let name ← identifierText (some tok)
            let ps ← parameterList direct
            let n ← qualifyDeclaration (n.named name) specs
            return [.mk n [(.returnType, type), (.parameters, ps)]]

/-- A declaration. The initializer is a part of a part, so it is handed in: the list of
declarators stands for the initializers of its items. -/
def declaration (t : ParseTree) (parts : List Constituent) : Step Log (List Tree) := do
  let specs ← specifiers (t.childrenOf .declarationSpecifier)
  let isTypedef := (specs.storage.map (·.text)) == some "typedef"
  match Constituent.first? parts .initDeclaratorList with
  | none =>
    if isTypedef then plainTypedef t specs
    else dropped t "Incomplete declaration not supported"
  | some list =>
    match list.parse.childrenOf .initDeclarator with
    | [item] =>
      let initializer := (item.child? .initializer).map fun init => ⟨init, list.build⟩
      declared isTypedef t item specs initializer
    | _ => dropped t "Combined declaration not supported"

def functionDefinition (t : ParseTree) (parts : List Constituent) : Step Log (List Tree) := do
  if (t.childrenOf .declarationSpecifier).isEmpty then
    dropped t "Unsupported implicit return type"
  else
    match t.child? .declarator with
    | none => throw .noMember
    | some declarator =>
      match declarator.child? .directDeclarator with
      | none => throw .noMember
      | some direct =>
        if (direct.token? .identifier).isSome then dropped t "Invalid function declaration"
        else
          match direct.child? .directDeclarator with
          | none => throw .wrongKind
          | some inner =>
            match inner.token? .identifier with
            | none => dropped t "Invalid function declaration"
            | some tok =>
              let d ← newNode .functionDefinition t.origin
              let n ← newNode .functionDecl declarator.origin
              let name ← identifierText (some tok)
              let specs ← specifiers (t.childrenOf .declarationSpecifier)
              let n ← qualifyDeclaration (n.named name) specs
              let type ← baseType specs.types specs.qualifiers
              let type ← pointers (declarator.child? .pointer) type
              let ps ← parameterList direct
              let body ← Constituent.need (Constituent.first? parts .compoundStatement)
              let decl := Tree.mk n [(.returnType, type), (.parameters, ps)]
              return [.mk d [(.declaration, decl), (.body, body)]]

def directive (t : ParseTree) (parts : List Constituent) : Step Log (List Tree) := do
  match t.child? .includeDirective, t.child? .defineConstantDirective with
  | some file, _ =>
    let n ← newNode .includeFile t.origin
    return [.mk (n.setText .fileName ((file.token? .stringLiteral).map (·.text))) []]
  | _, some constant =>
    let n ← newNode .constantDefine t.origin
    let name ← identifierText (constant.token? .identifier)
    let e ← Constituent.need (Constituent.first? parts .defineConstantDirective)
    return [.mk (n.named name) [(.expression, e)]]
  | _, _ =>
    let n ← newNode .directive t.origin
    return [.mk (n.setText .body (some t.text)) []]

end Construction

end Resumable
