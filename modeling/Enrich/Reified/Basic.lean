import Enrich.Tree.Build
/-!
# Reified values

A reified value is an expression that rebuilds a runtime value.  The expression may need other
runtime values, its captures: where it needs capture `i`, it has the tag `i`.  A capture is a plain
value, which a `Lift` turns into a tree, or a reified value with captures of its own.

* `Reified.size`, `Capture.size`: how many captures there are at all levels, each nested value
  counting once for itself.
-/

namespace Enrich

mutual

/-- An expression together with the values that its tags stand for. -/
inductive Reified (V : Type) where
  | mk (expr : Tree) (captures : List (Capture V))

/-- A captured value and its declared type. -/
inductive Capture (V : Type) where
  | leaf (value : V) (tpe : Tree)
  | nested (value : Reified V) (tpe : Tree)

end

variable {V : Type}

/-- Turns a captured value into a tree that evaluates to it, given its type, if there is one. -/
abbrev Lift (V : Type) := V → Tree → Option Tree

namespace Reified

def expr : Reified V → Tree
  | .mk e _ => e

def captures : Reified V → List (Capture V)
  | .mk _ cs => cs

end Reified

/-- The declared type of a capture. -/
def Capture.tpe : Capture V → Tree
  | .leaf _ t | .nested _ t => t

mutual

/-- The number of captures below a reified value. -/
def Reified.size : Reified V → Nat
  | .mk _ cs => captureSizes cs

/-- The number of captures that a capture stands for: those below it, and itself. -/
def Capture.size : Capture V → Nat
  | .leaf _ _ => 1
  | .nested r _ => r.size + 1

private def captureSizes : List (Capture V) → Nat
  | [] => 0
  | c :: cs => c.size + captureSizes cs

end

/-- The size of a level is the sum of the sizes of its captures. -/
theorem Reified.size_mk (e : Tree) (cs : List (Capture V)) :
    (Reified.mk e cs).size = cs.foldr (fun c n => c.size + n) 0 := by
  have hall : ∀ cs : List (Capture V), captureSizes cs = cs.foldr (fun c n => c.size + n) 0 := by
    intro cs
    induction cs with
    | nil => rfl
    | cons c cs ih => rw [captureSizes, ih, List.foldr_cons]
  rw [Reified.size, hall]

/-! ## Positions -/

/-- A number that is too large for the position of a capture. -/
structure PositionOverflow where
  position : Nat
deriving DecidableEq, Repr

def PositionOverflow.message (e : PositionOverflow) : String :=
  "capture index " ++ toString e.position ++ " overflows u32"

/-- The position of a capture, which has to fit into thirty-two bits. -/
def capturePosition (n : Nat) : Except PositionOverflow Nat :=
  if n < UInt32.size then .ok n else .error ⟨n⟩

/-- The text of the name that the capture at a position is bound to. -/
def captureNameText (position : Nat) : String := "capture$" ++ toString position

/-! ## Failures -/

/-- Why a reified value cannot be flattened. -/
inductive ReifyError where
  /-- The value at flat position `position` has no form as a tree. -/
  | unsupported (position : Nat) (tpe : Tree)
  /-- The tag `tag` stands in an expression with `count` captures only. -/
  | dangling (tag count : Nat)
deriving DecidableEq

def ReifyError.message : ReifyError → String
  | .unsupported position _ =>
    "captured value #" ++ toString position ++ " has no tree representation"
  | .dangling tag count =>
    "capture #" ++ toString tag ++ " referenced, but only " ++ toString count
      ++ " captures are present"

end Enrich
