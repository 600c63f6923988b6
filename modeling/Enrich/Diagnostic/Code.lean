/-!
# What can be reported

Every report has a code, and the code decides whether the report is an error or a warning.  The
first digit of a code in writing names a class: 1 for trees of an unexpected form, 2 for broken
rules, 3 for input that no rule covers, 4 for remarks on generated code, 5 for the host that
compiles it, 9 for the reporting itself.

* `Code.severity_eq_warning_iff`: the warnings are the two remarks on generated code.
-/

namespace Enrich

/-- How bad a report is. -/
inductive Severity where
  /-- The definition was dropped and the unit fails. -/
  | error
  /-- The code is fine, but may be a surprise. -/
  | warning
deriving DecidableEq, Repr

namespace Severity

def text : Severity → String
  | .error => "error"
  | .warning => "warning"

end Severity

/-- The kinds of report. -/
inductive Code where
  /-- An extension annotation with a number of arguments other than one. -/
  | annotationArity
  /-- A staged extension without a declared result type. -/
  | missingResultType
  /-- An extension body that declares a reserved name. -/
  | redeclaredName
  /-- An extension annotation in its old spelling. -/
  | deprecatedSpelling
  /-- More than one extension annotation on a definition. -/
  | severalAnnotations
  /-- An extension target that has no form as a type. -/
  | targetNotHandled
  /-- A captured value that has no form as a tree. -/
  | captureNotLifted
  /-- A runtime extension, which ties its callers to the scope it is defined in. -/
  | runtimeWrapper
  /-- A staged extension where none is expanded. -/
  | notExpanded
  /-- Generated code that the host refused. -/
  | treeRejected
  /-- A fault of the reporting program. -/
  | internal
  /-- Errors that were left out because there were too many. -/
  | tooManyErrors
deriving DecidableEq, Repr

namespace Code

def text : Code → String
  | .annotationArity => "E1001"
  | .missingResultType => "E2001"
  | .redeclaredName => "E2002"
  | .deprecatedSpelling => "E2003"
  | .severalAnnotations => "E2004"
  | .targetNotHandled => "E3001"
  | .captureNotLifted => "E3002"
  | .runtimeWrapper => "E4001"
  | .notExpanded => "E4002"
  | .treeRejected => "E5001"
  | .internal => "E9001"
  | .tooManyErrors => "E9002"

/-- Remarks on generated code are warnings, all else is an error. -/
def severity : Code → Severity
  | .runtimeWrapper | .notExpanded => .warning
  | _ => .error

/-- Two codes are warnings; all others are errors. -/
theorem severity_eq_warning_iff {c : Code} :
    c.severity = .warning ↔ c = .runtimeWrapper ∨ c = .notExpanded := by
  cases c <;> simp [severity]

end Code

end Enrich
