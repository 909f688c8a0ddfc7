import Fieldwise.Failure
import Fieldwise.Tree.Outline

/-!
# The log

What a run reports. A `Notice` is one thing to report, with the names it is about; an `Entry` adds
the line of the program. Notices that are about a place in the program show it as `@`.

A `Report` is a computation that may add entries and may fail, and changes nothing else. Entries
stay when it fails.
-/

namespace Fieldwise

/-- How urgent an entry is. -/
inductive Level where
  | debug | info | warning
deriving DecidableEq

/-- The part of the program that an entry comes from. -/
inductive Component where
  | registry | fields | initializers | assignments | references | params | driver | cli
deriving DecidableEq

/-- Why a declaration of an aggregate is left alone. -/
inductive SkipReason where
  | forHeader | variableLength | noStaticSize | multiLevel | multiDimensional
  | unsupportedDeclarator
deriving DecidableEq

/-- Why a struct is not an aggregate. -/
inductive StructProblem where
  | unnamedMember
  | aggregateField (field : String)
  | flexibleMember (field : String)
  | noFields
deriving DecidableEq

/-- How a use that cannot be rewritten uses a variable. -/
inductive Usage where
  | plain | memberAccess | compoundAssignment | assignmentAsValue | assignment | deallocation
  | argument
deriving DecidableEq

/-- One thing to report. -/
inductive Notice where
  | anonymousStruct
  | redefinition (aggregate : String)
  | found (aggregate : String) (fields : List String)
  | structSkipped (aggregate : String) (problem : StructProblem)
  /-- A declaration that is not decomposed; `quiet` when only a name is being looked up. -/
  | skipped (binding : String) (reason : SkipReason) (quiet : Bool)
  | synthesized (binding : String) (fields : List String)
  | scaledAllocation (binding : String)
  | literalAllocation (binding size aggregate : String)
  | globalArrayCopy (field binding : String)
  | elementDesignator (binding : String)
  | stringElement (binding : String)
  | initialized (binding strategy : String)
  | unsupportedInit (binding : String)
  | assigned (target source rule : String)
  | unsupported (usage : Usage) (binding : String)
  | occurrences (count : Nat) (binding : String)
  | deferred (binding target : String)
  | prototype (function : String)
  | parameter (binding function : String)
  | bindings (aggregate : String) (vars params : Nat)
  | notDecomposable (tag : Option String)
  | unknownStruct (name : String)
  | upToDate (file : String)
  | missingInclude (file : String)
  | decomposed (file : String) (aggregates : List String)

/-- A notice and the line it is about. -/
structure Entry where
  notice : Notice
  line : Option Nat := none

namespace Level

/-- The word for a level. -/
def text : Level → String
  | debug => "DEBUG"
  | info => "INFO"
  | warning => "WARNING"

/-- The rank of a level, least urgent first. -/
def rank : Level → Nat
  | debug => 0
  | info => 1
  | warning => 2

/-- The level with a given word. -/
def ofText? : String → Option Level
  | "DEBUG" => some debug
  | "INFO" => some info
  | "WARNING" => some warning
  | _ => none

end Level

/-- The name of a component. -/
def Component.text : Component → String
  | registry => "registry"
  | fields => "fields"
  | initializers => "initializers"
  | assignments => "assignments"
  | references => "references"
  | params => "params"
  | driver => "driver"
  | cli => "cli"

/-- What is said of a declaration that is left alone. -/
def SkipReason.text : SkipReason → String
  | forHeader => "is declared in a for header"
  | variableLength => "is a variable-length array"
  | noStaticSize => "has no static size"
  | multiLevel => "has multi-level indirection"
  | multiDimensional => "is a multi-dimensional array"
  | unsupportedDeclarator => "has an unsupported declarator"

/-- What is said of a struct that is no aggregate. -/
def StructProblem.text : StructProblem → String
  | unnamedMember => "has an unnamed member, skipped"
  | aggregateField f => "has aggregate field " ++ f ++ ", nested aggregates are not decomposed"
  | flexibleMember f => "has flexible array member " ++ f ++ ", skipped"
  | noFields => "has no fields, skipped"

/-- The word for a use. -/
def Usage.text : Usage → String
  | plain => "use"
  | memberAccess => "member access"
  | compoundAssignment => "compound assignment"
  | assignmentAsValue => "assignment used as a value"
  | assignment => "assignment"
  | deallocation => "deallocation"
  | argument => "argument"

namespace Notice

/-- The component that reports a notice. -/
def component : Notice → Component
  | anonymousStruct | redefinition .. | found .. | structSkipped .. | skipped .. => .registry
  | synthesized .. => .fields
  | scaledAllocation .. | literalAllocation .. | globalArrayCopy .. | elementDesignator ..
  | stringElement .. | initialized .. | unsupportedInit .. => .initializers
  | assigned .. => .assignments
  | unsupported .. | occurrences .. | deferred .. => .references
  | prototype .. | parameter .. => .params
  | bindings .. | notDecomposable .. | unknownStruct .. => .driver
  | upToDate .. | missingInclude .. | decomposed .. => .cli

/-- How urgent a notice is. -/
def level : Notice → Level
  | anonymousStruct | synthesized .. | assigned .. | occurrences .. | deferred ..
  | missingInclude .. => .debug
  | skipped _ _ quiet => if quiet then .debug else .warning
  | found .. | initialized .. | prototype .. | parameter .. | bindings .. | upToDate ..
  | decomposed .. => .info
  | redefinition .. | structSkipped .. | scaledAllocation .. | literalAllocation ..
  | globalArrayCopy .. | elementDesignator .. | stringElement .. | unsupportedInit ..
  | unsupported .. | notDecomposable .. | unknownStruct .. => .warning

/-- The wording of a notice. -/
def text : Notice → String
  | anonymousStruct => "anonymous struct without alias at @"
  | redefinition a => "@: redefinition of " ++ a ++ " skipped"
  | found a fields => "found " ++ a ++ " with fields " ++ ", ".intercalate fields
  | structSkipped a problem => "@: " ++ a ++ " " ++ problem.text
  | skipped v reason _ => "@: " ++ v ++ " " ++ reason.text ++ ", skipped"
  | synthesized v fields => "@: " ++ v ++ " -> " ++ ", ".intercalate fields
  | scaledAllocation v =>
    "@: allocation of " ++ v ++ " scaled by a non-literal factor is not supported"
  | literalAllocation v size a =>
    "@: " ++ v ++ " allocated with literal size " ++ size ++ ", assumed to hold one " ++ a
  | globalArrayCopy f v =>
    "@: array field " ++ f ++ " of " ++ v ++ " cannot be copied at file scope"
  | elementDesignator v => "@: unsupported element designator in " ++ v
  | stringElement v => "@: string initializer of an array field of " ++ v ++ " is not supported"
  | initialized v strategy => "@: " ++ v ++ " initialized as " ++ strategy
  | unsupportedInit v => "@: unsupported initializer of " ++ v ++ ", fields left uninitialized"
  | assigned target source case => target ++ " = " ++ source ++ " matched " ++ case
  | unsupported usage v => "@: unsupported " ++ usage.text ++ " of " ++ v ++ " left unchanged"
  | occurrences count v => "@: " ++ toString count ++ " occurrences of " ++ v
  | deferred v target => "@: " ++ v ++ " is copied when " ++ target ++ " is decomposed"
  | prototype f => "@: prototype of " ++ f ++ " updated"
  | parameter v f => "@: parameter " ++ v ++ " of " ++ f ++ " decomposed"
  | bindings a vars params =>
    a ++ ": " ++ toString vars ++ " variables, " ++ toString params ++ " parameters"
  | notDecomposable tag => "@: struct " ++ nameOrNone tag ++ " is not decomposable"
  | unknownStruct name => "no decomposable struct named " ++ name
  | upToDate file => file ++ " is up to date"
  | missingInclude file => file ++ " not found, kept in the output"
  | decomposed file aggregates =>
    file ++ ": decomposed " ++
      if aggregates.isEmpty then "nothing" else ", ".intercalate aggregates

end Notice

/-- Whether an entry is at least as urgent as a level. -/
def Entry.reaches (e : Entry) (level : Level) : Bool := level.rank ≤ e.notice.level.rank

/-- A computation that may report and may fail. Its state is the log, newest entry first. -/
abbrev Report := ExceptT Failure (StateM (List Entry))

namespace Report

/-- Reports one thing. -/
def note (notice : Notice) (line : Option Nat) : Report Unit :=
  modifyThe (List Entry) ({ notice, line } :: ·)

/-- The result of a computation that does not report. -/
def of {α : Type} (r : Except Failure α) : Report α := ExceptT.mk (pure r)

/-- The result of a computation, with its entries in order. -/
def entries {α : Type} (r : Report α) : Except Failure α × List Entry :=
  let (result, log) := r.run.run []
  (result, log.reverse)

end Report

end Fieldwise
