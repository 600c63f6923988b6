import Enrich.Tree.Build
/-!
# Attached types

A typing pass may leave the name of a type on any node.  Code that was put together from parts
typed in different scopes has to be typed anew, and for that the attached types are dropped first.

Both functions look at the code of a tree and not into annotations.
-/

namespace Enrich

namespace Tree

/-- The tree without the types attached to its code. -/
def dropTypes : Tree → Tree :=
  fold fun t s => ⟨s.map Prod.snd, t.span, none⟩

/-- The equation of dropping types. -/
theorem dropTypes_eq (t : Tree) : t.dropTypes = ⟨t.shape.map dropTypes, t.span, none⟩ := by
  rw [dropTypes, fold_eq]
  simp only [Shape.map, Shape.bimap_bimap]
  rfl

/-- Does the code of the tree carry an attached type somewhere? -/
def hasTypes : Tree → Bool :=
  fold fun t s => t.ty.isSome || s.children.any Prod.snd

/-- The equation of the test: the type of the node, or any in the code below it. -/
theorem hasTypes_eq (t : Tree) : t.hasTypes = (t.ty.isSome || t.shape.children.any hasTypes) := by
  rw [hasTypes, fold_eq]
  simp only [Shape.map, Shape.children_bimap, List.any_map]
  rfl

end Tree

end Enrich
