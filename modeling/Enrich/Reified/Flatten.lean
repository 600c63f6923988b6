import Enrich.Reified.Basic
import Enrich.Tree.Replace
/-!
# Flattening

Flattening puts all captures, at whatever depth, into one list.  The captures of a nested value come
first, then the nested expression itself as one more capture: `[A, B{C, D}]` becomes `[A, C, D, B]`.
So every capture only needs captures before it, and each tag is replaced by the flat position of
what it stood for.

Positions are computed, not threaded: a level is told the position of its first capture, and each
capture tells how many positions it took.

* `Tree.tags_eq`, `Tree.retag_of_tag`, `Tree.retag_of_not_tag`: the equations of tags and of their
  renumbering.
-/

namespace Enrich

variable {V : Type}

/-! ## 1. Tags -/

namespace Tree

/-- The tags in the code of a tree, in reading order. -/
def tags : Tree → List Nat :=
  fold fun t s =>
    match t.shape with
    | .tag i => [i]
    | _ => s.children.flatMap Prod.snd

/-- The equation of the tags in a tree. -/
theorem tags_eq (t : Tree) :
    t.tags =
      match t.shape with
      | .tag i => [i]
      | _ => t.shape.children.flatMap tags := by
  rw [tags, fold_eq]
  simp only [Shape.map, Shape.children_bimap, List.flatMap_map]

/-- The tag with its new number, if there is one for it. -/
def renumbered? (positions : List Nat) (t : Tree) : Option Tree :=
  match t.shape with
  | .tag i => positions[i]?.map (tag · t.span)
  | _ => none

/-- Gives every tag the number that the list has for it. -/
def retag (positions : List Nat) (t : Tree) : Tree := t.replace (renumbered? positions)

/-- A tag is given the position of its capture. -/
theorem retag_of_tag {positions : List Nat} {t : Tree} {i k : Nat} (h : t.shape = .tag i)
    (hk : positions[i]? = some k) : t.retag positions = tag k t.span :=
  replace_of_some (by simp [renumbered?, h, hk])

theorem retag_of_not_tag {positions : List Nat} {t : Tree} (h : ∀ i, t.shape ≠ .tag i) :
    t.retag positions = ⟨t.shape.map (retag positions), t.span, t.ty⟩ := by
  refine replace_of_none ?_
  unfold renumbered?
  split
  · rename_i i hs
    exact absurd hs (h i)
  · rfl

end Tree

/-! ## 2. Levels -/

/-- Where a flat capture comes from. -/
inductive CaptureOrigin where
  /-- A plain value that was turned into a tree. -/
  | leaf
  /-- The expression of a nested reified value. -/
  | nested
deriving DecidableEq, Repr

/-- A capture whose tree needs captures before it only. -/
structure FlatCapture where
  tree : Tree
  tpe : Tree
  origin : CaptureOrigin
deriving DecidableEq

/-- An expression and all the captures it needs, in order. -/
structure Flattened where
  expr : Tree
  captures : List FlatCapture
deriving DecidableEq

mutual

/-- Flattens one level whose first capture goes to position `base`. -/
def Reified.flattenAt (lift : Lift V) (base : Nat) : Reified V → Except ReifyError Flattened
  | .mk expr captures => do
    let (positions, flat) ← flattenCaptures lift base captures
    match expr.tags.find? (positions.length ≤ ·) with
    | some i => throw (.dangling i positions.length)
    | none => return { expr := expr.retag positions, captures := flat }

/-- Flattens one capture; its own flat capture is the last of the list. -/
def Capture.flattenAt (lift : Lift V) (base : Nat) :
    Capture V → Except ReifyError (List FlatCapture)
  | .leaf value tpe =>
    match lift value tpe with
    | some tree => return [{ tree, tpe, origin := .leaf }]
    | none => throw (.unsupported base tpe)
  | .nested value tpe => do
    let flat ← value.flattenAt lift base
    return flat.captures ++ [{ tree := flat.expr, tpe, origin := .nested }]

/-- Flattens captures from first to last; yields the position of each and all flat captures. -/
def flattenCaptures (lift : Lift V) (base : Nat) :
    List (Capture V) → Except ReifyError (List Nat × List FlatCapture)
  | [] => return ([], [])
  | c :: cs => do
    let flat ← c.flattenAt lift base
    let next := base + flat.length
    let (positions, rest) ← flattenCaptures lift next cs
    return ((next - 1) :: positions, flat ++ rest)

end

/-- Puts all captures into one list. -/
def Reified.flatten (lift : Lift V) (r : Reified V) : Except ReifyError Flattened :=
  r.flattenAt lift 0

end Enrich
