import Enrich.Tree.Build
/-!
# Replacing subtrees

`t.replace f` replaces from the root downwards: where `f` answers, its answer stands in place of
the subtree and is not searched again; everywhere else the node is kept and its children are
replaced.  Spans and attached types of the nodes that are kept stay as they are, and annotations
are not entered.

Splicing, the numbering of captures and the binding of captures are all instances; what they have
in common is stated here.

* `Tree.replace_eq_self`: replacing nothing changes nothing.
* `Tree.replace_of_some`, `Tree.replace_of_none`: the equations of the two cases.
-/

namespace Enrich

namespace Tree

/-- Puts the answers of `f` in place of the topmost subtrees where it answers. -/
def replace (f : Tree → Option Tree) : Tree → Tree :=
  fold fun t s => (f t).getD ⟨s.map Prod.snd, t.span, t.ty⟩

/-- A tree that is replaced is not looked into. -/
theorem replace_of_some {f : Tree → Option Tree} {t u : Tree} (h : f t = some u) :
    t.replace f = u := by
  rw [replace, fold_eq, h]
  rfl

theorem replace_of_none {f : Tree → Option Tree} {t : Tree} (h : f t = none) :
    t.replace f = ⟨t.shape.map (replace f), t.span, t.ty⟩ := by
  rw [replace, fold_eq, h]
  simp only [Option.getD_none, Shape.map, Shape.bimap_bimap]
  rfl

/-- Replacing nothing changes nothing. -/
theorem replace_eq_self {f : Tree → Option Tree} (h : ∀ t, f t = none) (t : Tree) :
    t.replace f = t := by
  induction t using induction with
  | step t ha hc =>
    have hs : t.shape.map (replace f) = t.shape.bimap id id :=
      Shape.bimap_congr (fun _ _ => rfl) hc
    rw [replace_of_none (h t), hs, Shape.bimap_id, eta]

end Tree

end Enrich
