import Enrich.Diagnostic.Basic
import Enrich.Extension.Recognition
import Enrich.Extension.Reserved
import Enrich.Extension.Target
import Enrich.Tree.Printer
/-!
# What the expander finds

A finding is the cause of a report: which rule is broken, by which definition and where.  Names and
trees stay what they are until a finding is put into words, so findings do not depend on any
wording and can be counted, compared and reasoned about.

There are two sorts.  A `Fault` makes the expander give something up: it is an error.  A `Remark`
goes with code that is fine: it is a warning.

* `Fault.diagnostic_isError`, `Remark.diagnostic_isError`: the words of a fault are an error and
  the words of a remark are not.
-/

namespace Enrich

/-! ## 1. Causes -/

/-- Something that makes the expander give up a definition, or a spelling. -/
inductive Fault where
  /-- An extension annotation has `arity` arguments instead of one. -/
  | malformed (arity : Nat) (span : Span)
  /-- The definition `name` at `span` has several extension annotations. -/
  | several (name : Name) (span : Span) (annotations : List Span)
  /-- The annotation at `span` is in the old spelling.  If the definition it stands on was removed
  for being out of place, `removed` is the name of that definition. -/
  | oldSpelling (span : Span) (removed : Option Name)
  /-- The target is not a type; `span` is where the offending part of it stands. -/
  | targetNotHandled (payload : Tree) (span : Span)
  /-- The staged extension `name` declares no result type. -/
  | missingResult (name : Name) (span : Span)
  /-- The body of a staged extension declares a reserved name. -/
  | redeclared (binding : Binding)
deriving DecidableEq

/-- Something to know about an extension that is fine. -/
inductive Remark where
  /-- The runtime extension `name` was given a wrapper class. -/
  | runtimeWrapper (name : Name) (span : Span)
  /-- The staged extension `name` is out of place and was kept as it is; `span` is where its
  annotation stands. -/
  | notExpanded (name : Name) (span : Span)
deriving DecidableEq

/-- The cause of a report. -/
inductive Finding where
  | fault (f : Fault)
  | remark (r : Remark)
deriving DecidableEq

/-- The kind of report for a fault. -/
def Fault.code : Fault → Code
  | .malformed _ _ => .annotationArity
  | .several _ _ _ => .severalAnnotations
  | .oldSpelling _ _ => .deprecatedSpelling
  | .targetNotHandled _ _ => .targetNotHandled
  | .missingResult _ _ => .missingResultType
  | .redeclared _ => .redeclaredName

/-- The kind of report for a remark. -/
def Remark.code : Remark → Code
  | .runtimeWrapper _ _ => .runtimeWrapper
  | .notExpanded _ _ => .notExpanded

/-- The kind of report. -/
def Finding.code : Finding → Code
  | .fault f => f.code
  | .remark r => r.code

/-! ## 2. In words -/

/-- A text in the quotes of messages. -/
def ticked (s : String) : String := "`" ++ s ++ "`"

/-- A fault in words. -/
def Fault.diagnostic (names : AnnotationNames) (i : Interner) (f : Fault) : Diagnostic :=
  let quoted (n : Name) := ticked (i.text n)
  let annotated (n : Name) := ticked ("@" ++ i.text n)
  match f with
  | .malformed arity span => {
      code := f.code
      message := "extension annotation takes exactly one argument, found " ++ toString arity
      labels := [.primary span "expected a single target type"] }
  | .several name span annotations => {
      code := f.code
      message := quoted name ++ " carries " ++ toString annotations.length
        ++ " extension annotations"
      labels := .primary span "only one extension annotation is allowed" ::
        annotations.map (.secondary · "extension annotation") }
  | .oldSpelling span removed => {
      code := f.code
      message := annotated names.deprecated ++ " is deprecated"
      labels := [.primary span "deprecated spelling"]
      attachments := .help ("use " ++ annotated names.staged ++ " instead") ::
        (removed.map fun n =>
          Attachment.note (quoted n ++ " is outside an object or package and was removed")).toList }
  | .targetNotHandled payload span => {
      code := f.code
      message := "type not handled: " ++ ticked (payload.print i)
      labels := [.primary span NotAType.message]
      attachments :=
        [.note "an extension target is a type name, optionally applied to type arguments"] }
  | .missingResult name span => {
      code := f.code
      message := "staged extension " ++ quoted name ++ " needs an explicit result type"
      labels := [.primary span "result type missing"]
      attachments :=
        [.help ("declare it: " ++ ticked ("def " ++ i.text name ++ "(...): T = ..."))] }
  | .redeclared b => {
      code := f.code
      message := "extension body redeclares " ++ quoted b.name
      labels := [.primary b.span (b.kind.text ++ " " ++ quoted b.name ++ " declared here")]
      attachments := [.note (quoted b.name
        ++ " refers to the extension's receiver or a parameter and cannot be shadowed")] }

/-- A remark in words. -/
def Remark.diagnostic (i : Interner) (r : Remark) : Diagnostic :=
  let quoted (n : Name) := ticked (i.text n)
  match r with
  | .runtimeWrapper name span => {
      code := r.code
      message := "runtime extension " ++ quoted name ++ " is called through its wrapper class"
      labels := [.primary span "wrapper class generated here"]
      attachments := [.note "call sites now depend on this definition's enclosing scope"] }
  | .notExpanded name span => {
      code := r.code
      message := "staged extension " ++ quoted name ++ " is not expanded here"
      labels := [.primary span "only members of objects and packages are expanded"]
      attachments := [.note "the definition is kept as an ordinary method"] }

/-- A finding in words. -/
def Finding.diagnostic (names : AnnotationNames) (i : Interner) : Finding → Diagnostic
  | .fault f => f.diagnostic names i
  | .remark r => r.diagnostic i

/-- The words of a fault are an error. -/
@[simp] theorem Fault.diagnostic_isError (names : AnnotationNames) (i : Interner) (f : Fault) :
    (f.diagnostic names i).isError = true := by
  cases f <;> rfl

/-- The words of a remark are not an error. -/
@[simp] theorem Remark.diagnostic_isError (i : Interner) (r : Remark) :
    (r.diagnostic i).isError = false := by
  cases r <;> rfl

@[simp] theorem Finding.diagnostic_code (names : AnnotationNames) (i : Interner) (f : Finding) :
    (f.diagnostic names i).code = f.code := by
  obtain f | r := f
  · cases f <;> rfl
  · cases r <;> rfl

end Enrich
