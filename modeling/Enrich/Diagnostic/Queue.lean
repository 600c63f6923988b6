import Enrich.Diagnostic.Basic
/-!
# The diagnostic queue

A queue collects the diagnostics of one unit.  It may refuse a diagnostic that equals one it holds,
and it holds no more errors than its limit; errors beyond the limit are counted and left out.
Emptying the queue puts what it holds in the order of the code, and says at the end how many errors
were left out, if any were.

* `Queue.flush_fst`, `Queue.flush_snd`: what emptying the queue yields and what it leaves.
-/

namespace Enrich

/-- How a queue filters. -/
structure QueueConfig where
  /-- How many errors are held at most; zero for no limit. -/
  errorLimit : Nat := 10
  /-- Is a diagnostic refused that equals one in the queue? -/
  deduplicate : Bool := true
deriving DecidableEq, Repr

/-- The queue that refuses nothing. -/
def QueueConfig.unlimited : QueueConfig := { errorLimit := 0, deduplicate := false }

/-- The fact that an error was reported. -/
structure Reported where
deriving DecidableEq, Repr

namespace Reported

def text (_ : Reported) : String := "error(s) emitted"

/-- A number of errors other than none shows that one was reported. -/
def ofCount? (n : Nat) : Option Reported := if n = 0 then none else some {}

end Reported

/-- A diagnostic on the channel of the other severity. -/
inductive Misreport where
  /-- Something that is not an error was reported as one. -/
  | errorExpected (found : Severity)
  /-- An error was reported as a warning. -/
  | warningExpected
deriving DecidableEq, Repr

/-- The misuse in words. -/
def Misreport.message : Misreport → String
  | .errorExpected found => "`error` called with " ++ found.text
  | .warningExpected => "`warning` called with an error"

/-- The diagnostics held, in the order in which they came. -/
structure Queue where
  config : QueueConfig := {}
  held : List Diagnostic := []
  /-- All errors reported since the queue was last emptied. -/
  errorCount : Nat := 0
  /-- The errors among them that the limit kept out. -/
  suppressed : Nat := 0
deriving DecidableEq, Repr

namespace Queue

/-- How many errors are held. -/
def heldErrors (q : Queue) : Nat := q.held.countP Diagnostic.isError

/-- Is there no room for another error? -/
def limitReached (q : Queue) : Bool :=
  q.config.errorLimit > 0 && q.heldErrors ≥ q.config.errorLimit

/-- Takes a diagnostic in, unless it is refused, and says whether it was taken in. -/
def add (q : Queue) (d : Diagnostic) : Bool × Queue :=
  let q := { q with errorCount := q.errorCount + d.isError.toNat }
  if q.config.deduplicate && q.held.contains d then (false, q)
  else if d.isError && q.limitReached then (false, { q with suppressed := q.suppressed + 1 })
  else (true, { q with held := q.held ++ [d] })

/-- Reports an error. -/
def error (q : Queue) (d : Diagnostic) : Except Misreport (Reported × Queue) :=
  if d.isError then .ok ({}, (q.add d).2) else .error (.errorExpected d.severity)

/-- Reports a warning. -/
def warning (q : Queue) (d : Diagnostic) : Except Misreport Queue :=
  if d.isError then .error .warningExpected else .ok (q.add d).2

/-- The fact that there were errors, if there were. -/
def hasErrors (q : Queue) : Option Reported := Reported.ofCount? q.errorCount

/-- Diagnostics go by their primary span; those without one come last. -/
def before (a b : Diagnostic) : Bool :=
  match a.primarySpan?, b.primarySpan? with
  | some s, some t => s.le t
  | none, some _ => false
  | _, none => true

/-- The report that errors were left out. -/
def tooManyErrors (limit suppressed : Nat) : Diagnostic where
  code := .tooManyErrors
  message := "stopped reporting after " ++ toString limit ++ " errors (" ++ toString suppressed
    ++ " more not shown)"
  attachments := [.note "raise the error limit to see every error"]

/-- Empties the queue. -/
def flush (q : Queue) : List Diagnostic × Queue :=
  let sorted := q.held.mergeSort before
  let rest := if q.suppressed > 0 then [tooManyErrors q.config.errorLimit q.suppressed] else []
  (sorted ++ rest, { config := q.config })

/-- After a flush a queue is as new. -/
@[simp] theorem flush_snd (q : Queue) : q.flush.2 = { config := q.config } := rfl

/-- What a flush yields: what is held, sorted, and a last diagnostic if any was left out. -/
theorem flush_fst (q : Queue) : q.flush.1 = q.held.mergeSort before ++
    if q.suppressed > 0 then [tooManyErrors q.config.errorLimit q.suppressed] else [] := rfl

/-- Takes diagnostics in from first to last. -/
def addAll (q : Queue) (ds : List Diagnostic) : Queue := ds.foldl (fun q d => (q.add d).2) q

end Queue

end Enrich
