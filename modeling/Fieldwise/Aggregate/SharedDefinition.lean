import Fieldwise.FreshNames
import Fieldwise.Tree.Declarator
import Fieldwise.Tree.Document

/-!
# Definitions that several declarators share

One declaration can define a type and declare several variables with it. Before variables are
replaced one by one, `Splitting.run` makes each of them stand on its own: in a run of variables with
one type definition, the first keeps the definition and the others refer to it by its tag. A struct
without tag gets a generated one, and so does a union or enumeration that is referred to.
-/

namespace Fieldwise

namespace Node

/-- The type definition that the declaration of a variable contains. -/
def definedType? (n : Node) : Option Node :=
  match n with
  | mk _ (.decl (some _) _) (type :: _) =>
    match type.layers with
    | none => none
    | some _ =>
      match type.baseType with
      | mk m (.structType tag true) ps => some (mk m (.structType tag true) ps)
      | mk m (.unionType tag true) ps => some (mk m (.unionType tag true) ps)
      | mk m (.enumType tag) [values] =>
        if values.isPresent then some (mk m (.enumType tag) [values]) else none
      | _ => none
  | _ => none

/-- The type with another tag. -/
def withTag (tag : Option String) : Node → Node
  | mk m (.structType _ complete) ps => mk m (.structType tag complete) ps
  | mk m (.unionType _ complete) ps => mk m (.unionType tag complete) ps
  | mk m (.enumType _) ps => mk m (.enumType tag) ps
  | n => n

/-- A reference to a type by its tag. -/
def typeReference (tag : Option String) : Node → Node
  | mk _ (.unionType _ _) _ => build (.unionType tag false) []
  | mk _ (.enumType _) _ => build (.enumType tag) [absent]
  | _ => build (.structType tag false) []

mutual

/-- The lists of declarations in a file, in the order in which they are looked at: each list before
those in its items. Expressions and types are not looked into. -/
def declarationLists : Node → List (List Node)
  | mk _ .file items => items :: declarationListsIn items
  | mk _ .funcDef (_ :: body :: _) => declarationLists body
  | mk _ .compound items => items :: declarationListsIn items
  | mk _ .caseLabel (_ :: items) => items :: declarationListsIn items
  | mk _ .defaultLabel items => items :: declarationListsIn items
  | mk _ .ifStmt [_, yes, no] => declarationLists yes ++ declarationLists no
  | mk _ .switch [_, stmt] => declarationLists stmt
  | mk _ .whileLoop [_, stmt] => declarationLists stmt
  | mk _ .doWhile [_, stmt] => declarationLists stmt
  | mk _ (.label _) [stmt] => declarationLists stmt
  | mk _ .forLoop [start, _, _, stmt] => declarationLists start ++ declarationLists stmt
  | mk _ .declList items => [items]
  | _ => []

/-- The lists of declarations in several statements. -/
def declarationListsIn : List Node → List (List Node)
  | [] => []
  | n :: ns => declarationLists n ++ declarationListsIn ns

end

end Node

/-- A document whose shared definitions are being split, and the names for new tags. -/
structure Splitting where
  document : Document
  names : Names

namespace Splitting

/-- The tag that a type has now. -/
def tag (s : Splitting) (type : Node) : Option String := (s.document.current type).name?

/-- Gives a type without tag a generated one. -/
def nameType (s : Splitting) (type : Node) : Splitting :=
  match s.tag type with
  | some _ => s
  | none =>
    let (name, names) := s.names.next "_anonymous_"
    { document := s.document.modify type (Node.withTag (some name)), names }

/-- Makes a declaration refer to its type by the tag. -/
def refer (s : Splitting) (decl type : Node) : Splitting :=
  let (reference, document) := s.document.withKeys [type.typeReference (s.tag type)]
  { s with document := document.modifyParts (decl.child .type).typeDecl fun _ => reference }

/-- Splits the declarations of a list, where `last` is the definition of the one before. -/
def splitItems (s : Splitting) (last : Option Node) : List Node → Splitting
  | [] => s
  | decl :: rest =>
    match decl.definedType? with
    | none => splitItems s none rest
    | some type =>
      let s := if type.isA .structType then s.nameType type else s
      if last.any type.same then splitItems ((s.nameType type).refer decl type) last rest
      else splitItems s (some type) rest

/-- Splits all shared definitions. -/
def run (s : Splitting) : Splitting :=
  s.document.root.declarationLists.foldl (fun s items => s.splitItems none items) s

end Splitting

end Fieldwise
