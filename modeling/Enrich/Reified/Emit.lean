import Enrich.Reified.Flatten
/-!
# Emission

A flattened value is emitted as a block: one binding per capture, in order, and then the expression.
A tag, whether it is spliced or not, becomes a reference to the binding of its capture.  Without
captures there is nothing to bind and the expression stands for itself.
-/

namespace Enrich

/-- The name that the capture at a position is bound to. -/
def captureName (position : Nat) : StateM Interner Name :=
  modifyGet (·.intern (captureNameText position))

namespace Tree

/-- The reference that a tag stands for, at the place of the tag. -/
def boundTag? (names : List Name) (t : Tree) : Option Tree :=
  match t.shape with
  | .tag i => names[i]?.map (ident · t.span)
  | _ => none

/-- The reference that a tag or the splice of a tag stands for. -/
def bound? (names : List Name) (t : Tree) : Option Tree :=
  match t.shape with
  | .splice inner => inner.boundTag? names
  | _ => t.boundTag? names

/-- Replaces tags by references to the names of the captures. -/
def bindTags (names : List Name) (t : Tree) : Tree := t.replace (bound? names)

end Tree

namespace Flattened

/-- The binding of a capture. -/
def binding (names : List Name) (c : FlatCapture) (name : Name) : Tree :=
  let init := c.tree.bindTags names
  .valueDef { ValueDef.ofInit name init init.span with tpe := some c.tpe }

/-- The block that binds the captures to given names. -/
def emitWith (f : Flattened) (names : List Name) : Tree :=
  .block (f.captures.zipWith (binding names) names) (f.expr.bindTags names) f.expr.span

/-- The flattened value as one expression that needs no captures. -/
def emit (f : Flattened) : StateM Interner Tree := do
  if f.captures.isEmpty then return f.expr
  let names ← (List.range f.captures.length).mapM captureName
  return f.emitWith names

end Flattened

end Enrich
