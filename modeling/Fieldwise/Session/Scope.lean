import Fieldwise.Session.Basic
import Fieldwise.Tree.Expression

/-!
# Scopes and bindings

Which declarations are bindings (`classify`), and which of them a name means at a place of the
program (`lookup`). A scope is the node whose items declare names: a block, a case, a `for` loop, a
function with its parameters, or the file. `hides` tells where below a scope a name has another
meaning.
-/

namespace Fieldwise

open Report

/-- What a declaration is to the rewriting. -/
inductive Verdict where
  /-- No variable of an aggregate type. -/
  | unrelated
  /-- One that is left alone, for a reason. -/
  | skipped (reason : SkipReason)
  | binding (b : Binding)

namespace Session

variable (s : Session)

/-- The function whose parameter list a node is, if it is that of a definition. -/
def definitionOf? (params : Node) : Option Node := do
  let funcDecl ← s.document.parent? params
  let owner ← s.document.parent? funcDecl
  let funcDef ← s.document.parent? owner
  if funcDef.isA .funcDef && (funcDef.child .decl).same owner then some funcDef else none

/-- The scope that a declaration is in. -/
def scopeOf? (decl : Node) : Option Node :=
  match s.document.parent? decl with
  | some parent => if parent.isA .paramList then s.definitionOf? parent else some parent
  | none => none

/-- The number of elements of an array variable, or why it is not known. -/
def arrayExtent (decl type : Node) : Except Failure (Except SkipReason Int) := do
  if type.dimension.isPresent then
    match ← type.arraySize with
    | some size => return .ok size
    | none => return .error .variableLength
  else
    let init := decl.child .init
    let size ← if init.isA .initList then init.listLength else pure none
    match size with
    | some size => return .ok size
    | none => return .error .noStaticSize

/-- What a declaration in a scope is, with these declarators around the aggregate. -/
def verdict (decl : Node) (aggregate : Aggregate) (scope : Node) (layers : List Layer) :
    Except Failure Verdict :=
  match layers, scope.isA .funcDef with
  | [], _ => return .binding { decl, aggregate, kind := .value, scope }
  | [.pointer], _ | [.array], true => return .binding { decl, aggregate, kind := .pointer, scope }
  | [.array], false => do
    match ← arrayExtent decl (decl.child .type) with
    | .ok size => return .binding { decl, aggregate, kind := .array, scope, size := some size }
    | .error reason => return .skipped reason
  | [.pointer, .pointer], _ => return .skipped .multiLevel
  | .array :: .array :: _, _ => return .skipped .multiDimensional
  | _, _ => return .skipped .unsupportedDeclarator

/-- What a declaration is. Only declarations in blocks and parameter lists are bindings. -/
def verdictOn (decl : Node) : Except Failure Verdict :=
  match decl.name?, (decl.child .type).layers with
  | some _, some layers =>
    match s.aggregateOf? (decl.child .type), s.scopeOf? decl with
    | some aggregate, some scope =>
      if scope.isA .declList then return .skipped .forHeader
      else if scope.isA .funcDef || scope.isBlock then
        verdict decl (aggregate.refresh s.document) scope layers
      else return .unrelated
    | _, _ => return .unrelated
  | _, _ => return .unrelated

/-- The binding that a declaration is, if it is one; why it is not is reported, quietly where the
declaration was met while looking up a name. -/
def classify (decl : Node) (quiet : Bool) : Report (Option Binding) := do
  match ← Report.of (s.verdictOn decl) with
  | .unrelated => return none
  | .skipped reason =>
    note (.skipped (decl.name?.getD "") reason quiet) decl.line
    return none
  | .binding b => return some b

/-- Those of some declarations that are bindings of an aggregate. -/
def bindingsAmong (a : Aggregate) : List Node → Report (List Binding)
  | [] => return []
  | decl :: rest =>
    let type := decl.child .type
    if decl.name?.isSome && type.layers.isSome && (s.aggregateOf? type).any a.same then do
      match ← s.classify decl false with
      | some b => return b :: (← bindingsAmong a rest)
      | none => bindingsAmong a rest
    else bindingsAmong a rest

/-- The variables and the parameters of an aggregate. -/
def bindings (a : Aggregate) : Report (List Binding × List Binding) := do
  let found ← s.bindingsAmong a (s.document.root.ofClass .decl)
  return (found.filter fun b => !b.isParam, found.filter Binding.isParam)

/-! ### Scopes -/

/-- The items of a scope that may declare names. -/
def itemsOf (scope : Node) : List Node :=
  match scope with
  | .mk _ .forLoop (start :: _) => if start.isA .declList then start.items else []
  | .mk _ .funcDef (decl :: _) =>
    let type := decl.child .type
    if type.isA .funcDecl then (type.child .args).items else []
  | .mk _ .compound items | .mk _ .file items | .mk _ .defaultLabel items => items
  | .mk _ .caseLabel (_ :: items) => items
  | _ => []

/-- Whether an item is a declaration of a name. -/
def declares (name : String) (item : Node) : Bool := item.isA .decl && item.name? == some name

/-- The declaration of a name among items, not after the item `last`. -/
def declaredAmong (name : String) (last : Node) : List Node → Option Node
  | [] => none
  | item :: rest =>
    if declares name item then some item
    else if item.same last then none
    else declaredAmong name last rest

/-- The binding that a name means in the nearest of some scopes that declares it, for a use in the
item `child` of the first of them. -/
def lookupIn (name : String) (child : Node) : List Node → Report (Option Binding)
  | [] => return none
  | scope :: outer =>
    match s.decomposedIn? scope name with
    | some b => return some b
    | none =>
      match declaredAmong name child (itemsOf scope) with
      | some decl => s.classify decl true
      | none => lookupIn name scope outer

/-- The binding that a name means at a node, if it means one. -/
def lookup (n : Node) (name : String) : Report (Option Binding) :=
  s.lookupIn name n (s.document.ancestors n)

/-- Whether a declaration of a name comes before an item of a block, or is that item. -/
def hiddenAt (name : String) (node : Node) (hidden : Bool) : List Node → Bool
  | [] => false
  | item :: rest =>
    let hidden := hidden || declares name item
    if item.same node then hidden else hiddenAt name node hidden rest

/-- Whether the name of a binding means something else in a node below `parent`. -/
def hides (b : Binding) (parent node : Node) : Bool :=
  if node.same b.scope then false
  else if (node.isA .compound || node.isA .forLoop || node.isA .funcDef) &&
      s.isDecomposedIn node b.name then true
  else if (node.isA .forLoop || node.isA .funcDef) &&
      (itemsOf node).any (declares b.name) then true
  else if parent.same b.scope || !parent.isBlock then false
  else hiddenAt b.name node false (itemsOf parent)

end Session

end Fieldwise
