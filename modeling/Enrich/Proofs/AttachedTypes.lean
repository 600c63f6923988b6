import Enrich.Proofs.Unsplicing
import Enrich.Proofs.Unwritten
/-!
# Where attached types are dropped and looked for

`Tree.dropTypes` and `Tree.hasTypes` go over the code and pass over annotations.  So a type inside an
annotation, of a definition or of a parameter, is neither dropped nor found, and the two are right
about a whole tree exactly if no annotation in its code has one.

What a whole tree is measured by is `Tree.untyped`, which enters annotations, and the nodes of the
tree, those of annotations included.

* `Tree.nodes_of_commutes`: what goes over a tree node by node goes over its nodes.
* `Tree.carriesTypes_everything`: the types in a tree are those in its code and in annotations.
* `Tree.dropTypes_spares_annotations`: the main statement.
-/

namespace Enrich

namespace Tree

/-! ## 1. Nodes of the code and of annotations -/

/-- The annotations in the code of a tree. -/
def annotationTrees (t : Tree) : List Tree := (t.nodes .code).flatMap (·.shape.annotations)

theorem annotationTrees_eq (t : Tree) :
    t.annotationTrees = t.shape.annotations ++ t.shape.children.flatMap annotationTrees := by
  rw [annotationTrees, nodes_eq, List.flatMap_cons, List.flatMap_assoc]
  rfl

/-- A node is one of the code or of an annotation in the code. -/
theorem mem_nodes_everything_iff {t u : Tree} :
    u ∈ t.nodes .everything ↔
      u ∈ t.nodes .code ∨ ∃ a ∈ t.annotationTrees, u ∈ a.nodes .everything := by
  induction t using induction with
  | step t _ ih =>
    have hroot : u ∈ t.nodes .everything ↔
        u = t ∨ (∃ a ∈ t.shape.annotations, u ∈ a.nodes .everything) ∨
          ∃ c ∈ t.shape.children, u ∈ c.nodes .everything := by
      rw [nodes_eq, List.mem_cons, List.flatMap_append, List.mem_append, List.mem_flatMap,
        List.mem_flatMap]
      rfl
    have hbelow : (∃ c ∈ t.shape.children, u ∈ c.nodes .everything) ↔
        (∃ c ∈ t.shape.children, u ∈ c.nodes .code) ∨
          ∃ c ∈ t.shape.children, ∃ a ∈ c.annotationTrees, u ∈ a.nodes .everything := by
      rw [← exists_or]
      refine exists_congr fun c => ?_
      rw [← and_or_left]
      exact and_congr_right fun hc => ih c hc
    rw [hroot, hbelow, mem_nodes_code_iff, annotationTrees_eq]
    simp only [List.mem_append, List.mem_flatMap]
    constructor
    · rintro (h | ⟨a, ha, hu⟩ | h | ⟨c, hc, a, ha, hu⟩)
      · exact .inl (.inl h)
      · exact .inr ⟨a, .inl ha, hu⟩
      · exact .inl (.inr h)
      · exact .inr ⟨a, .inr ⟨c, hc, ha⟩, hu⟩
    · rintro ((h | h) | ⟨a, ha | ⟨c, hc, ha⟩, hu⟩)
      · exact .inl h
      · exact .inr (.inr (.inl h))
      · exact .inr (.inl ⟨a, ha, hu⟩)
      · exact .inr (.inr (.inr ⟨c, hc, a, ha, hu⟩))

/-- What is done to a node by doing it to what is read below it is done to all nodes that are
read. -/
theorem nodes_of_commutes {extent : Extent} {f : Tree → Tree}
    (hannotations : ∀ t, extent.annotations (f t).shape = (extent.annotations t.shape).map f)
    (hchildren : ∀ t, (f t).shape.children = t.shape.children.map f) (t : Tree) :
    (f t).nodes extent = (t.nodes extent).map f := by
  induction t using induction with
  | step t ha hc =>
    have hread : ∀ a ∈ extent.annotations t.shape, a ∈ t.shape.annotations := by
      cases extent with
      | code => exact fun a h => absurd h List.not_mem_nil
      | everything => exact fun a h => h
    rw [nodes_eq, nodes_eq extent t, hannotations, hchildren, ← List.map_append, List.flatMap_map,
      List.map_cons, List.map_flatMap]
    refine congrArg (f t :: ·) (List.flatMap_congr fun u hu => ?_)
    exact (List.mem_append.mp hu).elim (fun h => ha u (hread u h)) (hc u)

theorem nodes_dropTypes (t : Tree) : t.dropTypes.nodes .code = (t.nodes .code).map dropTypes :=
  nodes_of_commutes (fun _ => rfl)
    (fun t => by rw [dropTypes_eq, Shape.map, Shape.children_bimap]) t

theorem nodes_untyped (t : Tree) :
    t.untyped.nodes .everything = (t.nodes .everything).map untyped :=
  nodes_of_commutes (fun t => by rw [untyped_eq, Extent.annotations_bimap])
    (fun t => by rw [untyped_eq, Shape.children_bimap]) t

/-- Annotations are left as they are. -/
theorem annotationTrees_dropTypes (t : Tree) : t.dropTypes.annotationTrees = t.annotationTrees := by
  rw [annotationTrees, nodes_dropTypes, annotationTrees, List.flatMap_map]
  refine List.flatMap_congr fun u _ => ?_
  rw [dropTypes_eq, Shape.map, Shape.annotations_bimap, List.map_id]

/-! ## 2. Nodes with an attached type -/

/-- Is there an attached type on some node that is read? -/
def carriesTypes (extent : Extent) (t : Tree) : Bool := (t.nodes extent).any (·.ty.isSome)

/-- Is there an attached type inside an annotation? -/
def annotationsTyped (t : Tree) : Bool := t.annotationTrees.any (carriesTypes .everything)

/-- **The types in a tree** are those in its code and those in annotations. -/
theorem carriesTypes_everything (t : Tree) :
    t.carriesTypes .everything = (t.carriesTypes .code || t.annotationsTyped) := by
  rw [Bool.eq_iff_iff]
  simp only [carriesTypes, annotationsTyped, List.any_eq_true, Bool.or_eq_true]
  constructor
  · rintro ⟨u, hu, hty⟩
    rcases mem_nodes_everything_iff.mp hu with hu | ⟨a, ha, hu⟩
    · exact .inl ⟨u, hu, hty⟩
    · exact .inr ⟨a, ha, u, hu, hty⟩
  · rintro (⟨u, hu, hty⟩ | ⟨a, ha, u, hu, hty⟩)
    · exact ⟨u, mem_nodes_everything_iff.mpr (.inl hu), hty⟩
    · exact ⟨u, mem_nodes_everything_iff.mpr (.inr ⟨a, ha, hu⟩), hty⟩

/-- What is found are the types on nodes of the code. -/
theorem hasTypes_eq_carriesTypes (t : Tree) : t.hasTypes = t.carriesTypes .code := by
  induction t using induction with
  | step t _ ih =>
    rw [hasTypes_eq, carriesTypes, nodes_eq, List.any_cons, List.any_flatMap]
    congr 1
    rw [Bool.eq_iff_iff, List.any_eq_true, List.any_eq_true]
    refine exists_congr fun c => and_congr_right fun hc => ?_
    rw [ih c hc]
    rfl

/-- A tree is the one without types exactly if there are none in it. -/
theorem untyped_eq_self_iff (t : Tree) : t.untyped = t ↔ t.carriesTypes .everything = false := by
  constructor
  · intro h
    rw [← h, carriesTypes, nodes_untyped, List.any_map, List.any_eq_false]
    intro u _
    rw [Function.comp_apply, untyped_eq]
    exact Bool.false_ne_true
  · induction t using induction with
    | step t ha hc =>
      intro h
      rw [carriesTypes, nodes_eq, List.any_cons, Bool.or_eq_false_iff, List.flatMap_append,
        List.any_append, Bool.or_eq_false_iff, List.any_flatMap, List.any_flatMap,
        List.any_eq_false, List.any_eq_false, Option.isSome_eq_false_iff, Option.isNone_iff_eq_none]
        at h
      obtain ⟨hty, hannotations, hchildren⟩ := h
      have hbelow : t.shape.bimap untyped untyped = t.shape.bimap id id :=
        Shape.bimap_congr (fun a hm => ha a hm (Bool.eq_false_iff.mpr (hannotations a hm)))
          fun c hm => hc c hm (Bool.eq_false_iff.mpr (hchildren c hm))
      rw [untyped_eq, hbelow, Shape.bimap_id, ← hty, eta]

/-! ## 3. The main statement -/

/-- **Dropping and looking for types pass over annotations.**  Dropping changes nothing but attached
types.  It takes those of the code and leaves annotations as they are, so what is left carries a
type exactly if an annotation does, and it is the tree without types exactly if none does.  What is
looked for are the types of the code; that tells whether there is one anywhere exactly if the code
has one or the annotations have none. -/
theorem dropTypes_spares_annotations (t : Tree) :
    t.dropTypes.untyped = t.untyped ∧
      t.dropTypes.annotationTrees = t.annotationTrees ∧
      (∀ u ∈ t.dropTypes.nodes .code, u.ty = none) ∧
      t.dropTypes.carriesTypes .everything = t.annotationsTyped ∧
      (t.dropTypes = t.untyped ↔ t.annotationsTyped = false) ∧
      t.hasTypes = t.carriesTypes .code ∧
      (t.hasTypes = t.carriesTypes .everything ↔
        t.hasTypes = true ∨ t.annotationsTyped = false) := by
  have hannotations := annotationTrees_dropTypes t
  have hleft : t.dropTypes.carriesTypes .everything = t.annotationsTyped := by
    rw [carriesTypes_everything, ← hasTypes_eq_carriesTypes, hasTypes_dropTypes, Bool.false_or,
      annotationsTyped, hannotations, annotationsTyped]
  have hsame : t.dropTypes = t.untyped ↔ t.annotationsTyped = false := by
    rw [← hleft, ← untyped_eq_self_iff, untyped_dropTypes, eq_comm]
  have hfound : t.hasTypes = t.carriesTypes .everything ↔
      t.hasTypes = true ∨ t.annotationsTyped = false := by
    rw [carriesTypes_everything, ← hasTypes_eq_carriesTypes]
    cases t.hasTypes <;> cases t.annotationsTyped <;> decide
  refine ⟨untyped_dropTypes t, hannotations, fun u hu => ?_, hleft, hsame,
    hasTypes_eq_carriesTypes t, hfound⟩
  rw [nodes_dropTypes] at hu
  obtain ⟨c, -, rfl⟩ := List.mem_map.mp hu
  rw [dropTypes_eq]

/-- In `@note() val x = 1`, with the annotation typed and the value not, no type is found and none is
dropped. -/
theorem dropTypes_spares_annotations_value :
    let note : Tree := ⟨.apply (.ofShape (.new (.typeIdent ⟨10⟩ .nowhere)) .nowhere) [], .nowhere,
      some ⟨10⟩⟩
    let t : Tree := .valueDef {
      mods := { annotations := [note] }, name := ⟨11⟩, tpe := none
      init := some (.ofShape (.literal (.int 1)) .nowhere), span := .nowhere }
    t.carriesTypes .everything = true ∧ t.hasTypes = false ∧
      t.dropTypes.carriesTypes .everything = true ∧ t.dropTypes ≠ t.untyped := by
  intro note t
  obtain ⟨-, -, -, hleft, hsame, hcode, -⟩ := dropTypes_spares_annotations t
  have htyped : t.annotationsTyped = true := by decide +kernel
  refine ⟨by decide +kernel, hcode.trans (by decide +kernel), hleft.trans htyped, fun h => ?_⟩
  exact Bool.false_ne_true ((hsame.mp h).symm.trans htyped)

end Tree

end Enrich
