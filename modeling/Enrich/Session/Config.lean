import Enrich.Diagnostic.Queue
import Enrich.Extension.Vocabulary
import Enrich.Text.Blank
/-!
# Configuration of a session

A configuration has a default for everything.  One environment variable can change one thing: how
many errors are reported.  Its value is a decimal number, blanks around it and a plus sign before
it allowed; a value that is no such number, or too large for a machine word, is ignored.

* `Config.ofLimit_eq`: whatever the variable holds, nothing but the error limit changes.
-/

namespace Enrich

/-- What a session can be told. -/
structure Config extends Options where
  queue : QueueConfig := {}
deriving DecidableEq, Repr

/-- A decimal number that fits into sixty-four bits. -/
def parseLimit (s : String) : Option Nat :=
  let digits :=
    match Text.trim s.toList with
    | '+' :: ds => ds
    | ds => ds
  if digits.isEmpty || !digits.all Char.isDigit then none
  else
    let n := digits.foldl (fun n c => 10 * n + (c.toNat - '0'.toNat)) 0
    if n < UInt64.size then some n else none

namespace Config

/-- The variable that holds the error limit. -/
def errorLimitVariable : String := "EXT_ERROR_LIMIT"

/-- The default with another error limit, if there is a valid one. -/
def ofLimit (value : Option String) : Config :=
  match value.bind parseLimit with
  | some n => { queue.errorLimit := n }
  | none => {}

/-- The configuration for an environment, which is asked for one variable. -/
def ofLookup {m : Type → Type} [Monad m] (lookup : String → m (Option String)) : m Config := do
  return ofLimit (← lookup errorLimitVariable)

/-- A value that is absent or no number leaves the limit at ten. -/
theorem ofLimit_eq (value : Option String) :
    ofLimit value = { queue.errorLimit := (value.bind parseLimit).getD 10 } := by
  unfold ofLimit
  cases value.bind parseLimit <;> rfl

end Config

end Enrich
