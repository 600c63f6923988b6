import Enrich.Tree.Names
/-!
# The nodes of a tree

A tree is read node by node, each before those inside it.  Most of what reads a tree reads its code
and passes over annotations; how much is read is told by an `Extent`.

* `Tree.nodes`: the nodes that are read, in reading order.
-/

namespace Enrich

namespace Tree

/-- How much of a tree is read. -/
inductive Extent where
  /-- The code, without the annotations. -/
  | code
  /-- The code and the annotations in it. -/
  | everything
deriving DecidableEq, Repr

/-- The annotations that are read in a layer. -/
def Extent.annotations {α β : Type} : Extent → Shape α β → List α
  | .code, _ => []
  | .everything, s => s.annotations

theorem Extent.annotations_bimap {α β γ δ : Type} (extent : Extent) (f : α → γ) (g : β → δ)
    (s : Shape α β) : extent.annotations (s.bimap f g) = (extent.annotations s).map f := by
  cases extent with
  | code => rfl
  | everything => exact Shape.annotations_bimap f g s

/-- The nodes of a tree, each before those inside it. -/
def nodes (extent : Extent) : Tree → List Tree :=
  foldAll fun t s => t :: (extent.annotations s ++ s.children).flatMap Prod.snd

theorem nodes_eq (extent : Extent) (t : Tree) :
    t.nodes extent =
      t :: (extent.annotations t.shape ++ t.shape.children).flatMap (nodes extent) := by
  rw [nodes, foldAll_eq, extent.annotations_bimap, Shape.children_bimap, List.flatMap_append,
    List.flatMap_append, List.flatMap_map, List.flatMap_map]

/-- The root is read first, and then its children, one after the other. -/
theorem nodes_code_eq (t : Tree) : t.nodes .code = t :: t.shape.children.flatMap (nodes .code) := by
  rw [nodes_eq]
  rfl

theorem mem_nodes_code_iff {t u : Tree} :
    u ∈ t.nodes .code ↔ u = t ∨ ∃ c ∈ t.shape.children, u ∈ c.nodes .code := by
  rw [nodes_code_eq, List.mem_cons, List.mem_flatMap]

/-- What is read of a child is read of the tree. -/
theorem nodes_child_subset {extent : Extent} {t c : Tree} (h : c ∈ t.shape.children) :
    c.nodes extent ⊆ t.nodes extent := by
  intro u hu
  rw [nodes_eq]
  exact List.mem_cons_of_mem _ (List.mem_flatMap.mpr ⟨c, List.mem_append_right _ h, hu⟩)

/-- What there is in an annotation is read with everything. -/
theorem nodes_annotation_subset {t a : Tree} (h : a ∈ t.shape.annotations) :
    a.nodes .everything ⊆ t.nodes .everything := by
  intro u hu
  rw [nodes_eq]
  exact List.mem_cons_of_mem _ (List.mem_flatMap.mpr ⟨a, List.mem_append_left _ h, hu⟩)

end Tree

end Enrich
