import Enrich.Extension.Expansion
import Enrich.Reified.Compile
import Enrich.Reified.Emit
import Enrich.Session.Config
/-!
# Sessions

A session keeps one interner and one configuration over the expanding of units and the compiling of
reified values.  Each unit has a counter of generated names and a queue of its own, so the only
thing one operation hands to the next is the interner.

* `Outcome.isFailed_iff`: a unit fails exactly when an error is among its diagnostics.
-/

namespace Enrich

/-- An interner and a configuration for all operations. -/
structure Session where
  interner : Interner := .new
  config : Config := {}

/-- The expanded unit, and what there is to say about it. -/
structure Outcome where
  tree : Tree
  diagnostics : List Diagnostic

namespace Outcome

/-- Could some definition not be expanded? -/
def isFailed (o : Outcome) : Bool := o.diagnostics.any Diagnostic.isError

def errors (o : Outcome) : List Diagnostic := o.diagnostics.filter Diagnostic.isError

def warnings (o : Outcome) : List Diagnostic := o.diagnostics.filter fun d => !d.isError

theorem isFailed_iff {o : Outcome} : o.isFailed = true ↔ ∃ d ∈ o.diagnostics, d.isError = true :=
  List.any_eq_true

end Outcome

/-- Why a reified value could not be made into something to call. -/
inductive ReifiedError (ε : Type) where
  | reify (e : ReifyError)
  | compile (e : CompileError ε)

/-- The report of a value that cannot be flattened.  A value without a form as a tree is the
caller's; a tag without a capture is a fault of whoever built the reified value. -/
def ReifyError.diagnostic (e : ReifyError) : Diagnostic :=
  match e with
  | .unsupported _ tpe => {
      code := .captureNotLifted
      message := e.message
      labels := [.primary tpe.span "captured with this type"]
      attachments := [.help "capture a value the lift function can turn into a tree"] }
  | .dangling _ _ => { code := .internal, message := e.message }

namespace ReifiedError

variable {ε : Type} [ToString ε]

/-- The failure in words. -/
def message : ReifiedError ε → String
  | .reify e => e.message
  | .compile e => e.message

/-- The failure as a report. -/
def diagnostic : ReifiedError ε → Diagnostic
  | .reify e => e.diagnostic
  | .compile e => {
      code := .treeRejected
      message := "generated tree rejected: " ++ toString e.first
      attachments := [.note ("retry keeping attached types: " ++ toString e.second),
        .note ("tree: " ++ ticked e.text)] }

end ReifiedError

namespace Session

variable {V : Type} {m : Type → Type} {ε γ : Type}

/-- Expands a unit on its own: the vocabulary is interned, the unit is expanded with a new counter,
and what was found is put into words. -/
def expandReports (s : Session) (t : Tree) : Tree × List Diagnostic × Interner :=
  let (v, interner) := (Vocabulary.intern s.config.toOptions).run s.interner
  let (tree, state) := (expandUnit v t).run { supply := { interner } }
  let i := state.supply.interner
  (tree, state.findings.map (·.diagnostic v.annotations i), i)

/-- What a session reports is what a run finds, in words. -/
theorem expandReports_of_run {s : Session} {t t' : Tree} {v : Vocabulary} {i : Interner}
    {state : ExpandState} (hv : (Vocabulary.intern s.config.toOptions).run s.interner = (v, i))
    (hr : (expandUnit v t).run { supply := { interner := i } } = (t', state)) :
    s.expandReports t = (t', state.findings.map (·.diagnostic v.annotations state.supply.interner),
      state.supply.interner) := by
  simp only [expandReports, hv, hr]

/-- Expands a unit and reports through a queue. -/
def expand (t : Tree) : StateM Session Outcome := fun s =>
  let (tree, reports, interner) := s.expandReports t
  let queue : Queue := { config := s.config.queue }
  ({ tree, diagnostics := (queue.addAll reports).flush.1 }, { s with interner })

/-- What comes out of a session is the expanded unit and what the queue lets through. -/
theorem run_expand_fst (s : Session) (t : Tree) :
    ((expand t).run s).1 =
      { tree := (s.expandReports t).1
        diagnostics :=
          (({ config := s.config.queue } : Queue).addAll (s.expandReports t).2.1).flush.1 } := by
  simp only [expand, StateT.run]

/-- Flattens a reified value and emits it as one expression. -/
def emitReified (lift : Lift V) (r : Reified V) :
    StateM Session (Except ReifyError Tree) := fun s =>
  match r.flatten lift with
  | .error e => (.error e, s)
  | .ok flat =>
    let (tree, interner) := flat.emit.run s.interner
    (.ok tree, { s with interner })

/-- Flattens, emits and compiles a reified value. -/
def compileReified [Monad m] (lift : Lift V) (host : Tree → m (Except ε γ)) (r : Reified V) :
    StateT Session m (Except (ReifiedError ε) γ) := fun s => do
  match (emitReified lift r).run s with
  | (.error e, s) => return (.error (.reify e), s)
  | (.ok tree, s) => return ((← compile host tree s.interner).mapError .compile, s)

end Session

end Enrich
