import Enrich.Diagnostic.Code
import Enrich.Span
/-!
# Diagnostics

A diagnostic is a report in words: a code, a message, labels that point into the code, and notes
and hints after them.  The label that points at what is reported is primary; the others give
context.

* `Diagnostic.ofCode_isError`: a diagnostic that is made from its code is an error exactly when the
  code says so.
-/

namespace Enrich

/-- A place in the code with a few words on it. -/
structure Label where
  span : Span
  message : String
  /-- Does it point at what is reported? -/
  isPrimary : Bool
deriving DecidableEq, Repr

/-- Text after the labels. -/
inductive Attachment where
  /-- Background on the rule. -/
  | note (text : String)
  /-- A change that would help. -/
  | help (text : String)
deriving DecidableEq, Repr

/-- A report in words. -/
structure Diagnostic where
  code : Code
  severity : Severity := code.severity
  message : String := ""
  labels : List Label := []
  attachments : List Attachment := []
deriving DecidableEq, Repr

/-- The label of what is reported. -/
def Label.primary (span : Span) (message : String) : Label := ⟨span, message, true⟩

/-- A label for context. -/
def Label.secondary (span : Span) (message : String) : Label := ⟨span, message, false⟩

/-- A label on a line of its own; an arrow marks the primary ones. -/
def Label.text (l : Label) : String :=
  "\n  " ++ (if l.isPrimary then "-->" else "   ") ++ " " ++ l.span.text ++ ": " ++ l.message

/-- An attachment on a line of its own. -/
def Attachment.line : Attachment → String
  | .note text => "\n  = note: " ++ text
  | .help text => "\n  = help: " ++ text

namespace Diagnostic

/-- Does the diagnostic fail the unit? -/
def isError (d : Diagnostic) : Bool := d.severity = .error

/-- Where the first primary label points. -/
def primarySpan? (d : Diagnostic) : Option Span :=
  (d.labels.find? Label.isPrimary).map Label.span

/-- The diagnostic in full: a headline, the labels, the attachments. -/
def text (d : Diagnostic) : String :=
  d.severity.text ++ " [" ++ d.code.text ++ "]: " ++ d.message
    ++ String.join (d.labels.map Label.text) ++ String.join (d.attachments.map Attachment.line)

/-- What is made from its code is an error exactly when the code is one of an error. -/
theorem ofCode_isError (c : Code) (m : String) (ls : List Label) (as : List Attachment) :
    ({ code := c, message := m, labels := ls, attachments := as } : Diagnostic).isError = true ↔
      c.severity = .error := by
  simp [isError]

end Diagnostic

end Enrich
