import Fieldwise.Session.Assignment

/-!
# Occurrences of a binding

Rewriting the uses of a decomposed binding. The occurrences of its name in its scope are found
first, without those where the name means something else; then each is rewritten by what stands
around it: the selection of a member, an assignment, an argument of a call, a test of a pointer. An
occurrence that an earlier rewriting removed is passed over, and a use of any other shape is
reported and left as it is.
-/

namespace Fieldwise

/-- The operator of an application, and its operand. -/
def Node.unary? : Node → Option (UnaryOp × Node)
  | .mk _ (.unaryOp op) [e] => some (op, e)
  | _ => none

/-- The occurrences of the name of a binding in its scope. -/
def Session.occurrences (s : Session) (b : Binding) : List Node :=
  let root := if b.isParam then b.scope.child .body else b.scope
  s.document.references root b.name fun parent n => n.same b.decl || s.hides b parent n

namespace Engine

/-- Reports that a use is left unchanged. -/
def warn (b : Binding) (n : Node) (usage : Usage) : Engine Unit :=
  note (.unsupported usage b.name) n.line

/-- The node above a node. -/
def parentOf (n : Node) : Engine Node := do
  return ((← getThe Session).document.parent? n).getD .absent

/-- Puts a node in the place of another one. -/
def replace (n new : Node) : Engine Unit := edit fun d => d.replace n new

/-- Puts statements in the place of one. -/
def replaceStatement (n : Node) (new : List Node) : Engine Unit := do
  edit fun d => d.insertAfter n new
  edit fun d => d.detach n

end Engine

/-- The operand that a binding is when its members are selected this way. -/
def Binding.accessed (b : Binding) (access : Access) : Option Operand :=
  match access, b.kind with
  | .dot, .value => some b.bare
  | .arrow, .pointer => some (b.operand (some .deref) .absent)
  | .arrow, .array => some (b.operand (some .element) (.intLiteral 0))
  | _, _ => none

/-- The statements that set the pointers of all fields to one value. -/
def Binding.setAll (b : Binding) (value : Node) : List Node :=
  b.fieldNames.map fun name => .assign (.ident name) value.copy

namespace Engine

/-- Rewrites the selection `ref` of a member of an operand. The size of an array that a pointer
points to is that of its type, and the address of what a pointer points to is the pointer. -/
def member (b : Binding) (ref : Node) (o : Option Operand) : Engine Unit := do
  match o, ((ref.child .field).name?.bind b.aggregate.field?) with
  | some o, some f =>
    if o.denotes == some .object then
      let new := o.object f
      let holder ← parentOf ref
      match holder.unary?, new.unary? with
      | some (.sizeof, _), _ =>
        if f.isArray && b.kind == .pointer then replace ref f.type.typenameOf else replace ref new
      | some (.address, _), some (.deref, pointer) => replace holder pointer
      | _, _ => replace ref new
    else warn b ref .memberAccess
  | _, _ => warn b ref .memberAccess

/-- The operand around an occurrence, and where it is written. -/
def occurrenceOperand (b : Binding) (n : Node) : Engine (Node × Operand) := do
  let parent ← parentOf n
  match parent with
  | .mk _ (.unaryOp .deref) [_] => return (parent, b.operand (some .deref) .absent)
  | .mk _ (.unaryOp .address) [_] => return (parent, b.operand (some .address) .absent)
  | .mk _ .arrayRef [array, subscript] =>
    if array.same n then
      let above ← parentOf parent
      match above.unary? with
      | some (.address, _) => return (above, b.operand (some .elementAddress) subscript)
      | _ => return (parent, b.operand (some .element) subscript)
    else return (n, b.bare)
  | _ => return (n, b.bare)

/-- The operand that an expression is, if it is one. -/
def operandOf? (e : Node) : Engine (Option Operand) :=
  let u := e.unwrap
  match u.symbol with
  | .mk _ (.ident name) _ => do
    return (← report fun s => s.lookup e name).map fun b => b.operand u.wrap u.subscript
  | _ => return none

/-- Whether an expression is tested where it stands: compared with null, or used as a condition. -/
def tested (e context : Node) : Engine Bool :=
  match context with
  | .mk _ (.binaryOp op) [left, right] =>
    if op == .equal || op == .notEqual then do
      let other := if left.same e then right else left
      report fun s => Report.of (other.isNull s.options.nullNames)
    else return op == .logicalAnd || op == .logicalOr
  | .mk _ (.unaryOp op) _ => return op == .not
  | _ => do
    let p ← report fun s => Report.of (s.document.place e)
    return p.slot?.any fun (slot, _) => slot == .cond

/-- Whether a bare pointer is tested where it stands. -/
def testsPointer (e context : Node) (o : Operand) : Engine Bool :=
  if o.shape == (.pointer, none) then tested e context else return false

/-- The statements for the assignment of a new value to a pointer: null, or an allocation. -/
def pointerAssignment (b : Binding) (value : Node) : Engine (Option (List Node)) := do
  if ← report fun s => Report.of (value.isNull s.options.nullNames) then
    return some (b.setAll value)
  else
    match ← report fun s => s.allocation b value with
    | some calls =>
      return some (b.fieldNames.zipWith (fun name call => .assign (.ident name) call) calls)
    | none => return none

/-- The statements for an assignment between two operands of one aggregate, where the other side is
the expression `other`. -/
def aggregateAssignment (b : Binding) (o : Operand) (isTarget : Bool) (other : Node) :
    Engine (Option (List Node)) := do
  match ← operandOf? other with
  | none => return none
  | some p =>
    if p.binding.aggregate.same b.aggregate then
      if isTarget then assign o p else assign p o
    else return none

/-- Rewrites an assignment in which an operand of the binding, written as `e`, is one side. -/
def assignment (b : Binding) (statement target value e : Node) (o : Operand) : Engine Unit := do
  if ← report fun s => Report.of (s.document.isStatement statement) then
    let isTarget := e.same target
    let byPointer ←
      if isTarget && o.shape == (.pointer, none) then pointerAssignment b value else pure none
    let statements ← match byPointer with
      | some statements => pure (some statements)
      | none => aggregateAssignment b o isTarget (if isTarget then value else target)
    match statements with
    | some statements => replaceStatement statement statements
    | none => warn b statement .assignment
  else warn b statement .assignmentAsValue

/-- Rewrites a call in which an operand of the binding, written as `e`, is an argument: a call that
stands for an assignment, one that releases memory, or one that passes the fields on. -/
def call (b : Binding) (call : Node) (args : List Node) (e : Node) (o : Operand) : Engine Unit := do
  let deallocators := (← getThe Session).options.deallocators
  match call.callName? with
  | some "operator=" =>
    match args with
    | [target, value] => assignment b call target value e o
    | _ => throw .operandCount
  | name =>
    match name.filter deallocators.contains, o.shape with
    | some name, (.pointer, none) =>
      let alone ← report fun s => Report.of (s.document.isStatement call)
      if args.length == 1 && alone then
        replaceStatement call (b.fieldNames.map fun v => .call name [.ident v])
      else warn b call .deallocation
    | _, _ =>
      if o.denotes.isSome then
        edit fun d => d.splice e (b.aggregate.fields.map o.expression)
      else warn b e .argument

/-- Rewrites an operand of the binding, written as `e`, by what is around it. -/
def operandUse (b : Binding) (e : Node) (o : Operand) : Engine Unit := do
  let context ← parentOf e
  let above ← parentOf context
  match context with
  | .mk _ (.assignment op) [target, value] =>
    if op == .plain then assignment b context target value e o
    else warn b context .compoundAssignment
  | _ =>
    if context.isA .exprList && above.isA .funcCall then
      match above.callArgs? with
      | some args => call b above args e o
      | none => throw .noArguments
    else if ← testsPointer e context o then
      replace e (.ident (b.fieldNames.headD ""))
    else if context.isA .decl && (context.child .init).same e then
      match ← report fun s => s.classify context true with
      | some target =>
        if target.aggregate.same b.aggregate then
          note (.deferred b.name target.name) e.line
        else warn b e .plain
      | none => warn b e .plain
    else warn b e .plain

/-- Rewrites one occurrence of the name of a binding. -/
def rewriteOccurrence (b : Binding) (n : Node) : Engine Unit := do
  let parent ← parentOf n
  let above ← parentOf parent
  let selected := match above with
    | .mk _ (.structRef access) [object, _] => if object.same parent then some access else none
    | _ => none
  match parent, selected with
  | .mk _ (.structRef access) [object, _], _ =>
    if object.same n then member b parent (b.accessed access) else operandUse b n b.bare
  | .mk _ (.unaryOp op) [_], some access =>
    match op, access with
    | .deref, .dot => member b above (b.accessed .arrow)
    | .address, .arrow => member b above (b.accessed .dot)
    | _, _ => warn b above .memberAccess
  | .mk _ .arrayRef [array, subscript], some .dot =>
    if array.same n then member b above (some (b.operand (some .element) subscript))
    else operandUse b n b.bare
  | _, _ =>
    let (e, o) ← occurrenceOperand b n
    operandUse b e o

/-- Rewrites those of some occurrences that are still in the program. -/
def rewriteAll (b : Binding) : List Node → Engine Unit
  | [] => return ()
  | n :: ns => do
    if (← getThe Session).document.attached n then rewriteOccurrence (← refresh b) n
    rewriteAll b ns

/-- Rewrites the uses of a binding. -/
def rewrite (b : Binding) : Engine Unit := do
  let b ← refresh b
  let found := (← getThe Session).occurrences b
  note (.occurrences found.length b.name) b.decl.line
  rewriteAll b found

end Engine

end Fieldwise
