import Fieldwise.Tree.Class

/-!
# Failures

Why a rewriting stops. Shapes of programs that are not supported are no failures: they are noted and
left as they are. Some failures break an assertion, which has a description. The others are about
numbers that cannot be converted, and about nodes that lack what they are asked for.
-/

namespace Fieldwise

/-- What a rewriting cannot go on from. -/
inductive Failure where
  /-- A node is to be edited that stands nowhere below the root. -/
  | notAttached (c : Class)
  /-- A single child is to be replaced by several nodes. -/
  | notInList (c : Class)
  /-- An integer constant is no numeral, or has more digits than are converted. -/
  | badNumeral (text : String)
  /-- A number has more digits than are converted. -/
  | tooManyDigits
  /-- A call that stands for an assignment has not got two arguments. -/
  | operandCount
  /-- One aggregate is to be assigned to another one. -/
  | differentAggregates
  /-- A member of a struct is no declaration, and so cannot have a name. -/
  | noName
  /-- The type of a field is a function, which cannot have qualifiers. -/
  | noQualifiers
  /-- The arguments of a call are asked for that has none. -/
  | noArguments
deriving DecidableEq

/-- The kinds of failures: an assertion is broken, a number has no value or no text, or a node lacks
what it is asked for. -/
inductive FailureKind where
  | assertion | value | missing
deriving DecidableEq

namespace Failure

/-- The kind of a failure. -/
def kind : Failure → FailureKind
  | notAttached _ | notInList _ | operandCount | differentAggregates => .assertion
  | badNumeral _ | tooManyDigits => .value
  | noName | noQualifiers | noArguments => .missing

/-- The description of a failure, if it has one. -/
def message? : Failure → Option String
  | notAttached c => some (c.text ++ " is not attached")
  | notInList c => some (c.text ++ " is not in a list")
  | operandCount => some "@: operator= takes two operands"
  | differentAggregates => some "assignment between different aggregates"
  | badNumeral _ | tooManyDigits | noName | noQualifiers | noArguments => none

/-- A failure breaks an assertion just if it has a description. -/
theorem kind_eq_assertion_iff (f : Failure) : f.kind = .assertion ↔ f.message?.isSome := by
  cases f <;> simp [kind, message?]

end Failure

end Fieldwise
