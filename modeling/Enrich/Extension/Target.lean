import Enrich.Tree.Build
/-!
# Extension targets

The argument of an annotation is parsed as a value, so the type `Map[K, List[V]]` arrives as type
arguments given to value references.  A target is that argument as a type, together with the names
it mentions, which decide where the type parameters of the method go: those the target mentions
belong to the wrapper class, the others stay with the method.

* `Tree.asType?_eq`: the equation of the conversion.
* `splitTypeParams_fst`, `splitTypeParams_snd`: each side keeps the order of declaration.
-/

namespace Enrich

/-- The type that an extension extends. -/
structure Target where
  tpe : Tree
  /-- The names of the identifiers in `tpe`, in order. -/
  names : List Name
deriving DecidableEq

/-- An argument, or a part of it, has no form as a type. -/
structure NotAType where
  tree : Tree
deriving DecidableEq

namespace NotAType

/-- Where the offending tree stands. -/
def span (e : NotAType) : Span := e.tree.span

def message : String := "cannot use this expression as an extension target type"

end NotAType

namespace Tree

/-- The tree as a type: references become references to types and type arguments become applied
types.  Everything else is refused, the first such node in reading order being named. -/
def asType? : Tree → Except NotAType Tree :=
  fold fun t s =>
    match s with
    | .ident n | .typeIdent n => .ok (typeIdent n t.span)
    | .typeApply fn args | .appliedType fn args => do
      let fn ← fn.2
      let args ← args.mapM Prod.snd
      return appliedType fn args t.span
    | _ => .error ⟨t⟩

/-- The equation of the conversion to a type. -/
theorem asType?_eq (t : Tree) :
    t.asType? =
      match t.shape with
      | .ident n | .typeIdent n => .ok (typeIdent n t.span)
      | .typeApply fn args | .appliedType fn args => do
        let fn ← fn.asType?
        let args ← args.mapM asType?
        return appliedType fn args t.span
      | _ => .error ⟨t⟩ := by
  rw [asType?, fold_eq]
  obtain ⟨s, sp, ty⟩ := t
  cases s with
  | typeApply fn args | appliedType fn args =>
    simp only [Shape.map, Shape.bimap, List.mapM_map]
    rfl
  | _ => rfl

/-- The names of the references in the code of a tree, in order. -/
def identifiers : Tree → List Name :=
  fold fun t s =>
    match t.shape with
    | .ident n | .typeIdent n => [n]
    | _ => s.children.flatMap Prod.snd

theorem identifiers_eq (t : Tree) :
    t.identifiers =
      match t.shape with
      | .ident n | .typeIdent n => [n]
      | _ => t.shape.children.flatMap identifiers := by
  rw [identifiers, fold_eq]
  simp only [Shape.map, Shape.children_bimap, List.flatMap_map]

/-- The target that an annotation argument stands for. -/
def asTarget? (t : Tree) : Except NotAType Target := do
  let tpe ← t.asType?
  return { tpe, names := tpe.identifiers }

end Tree

/-- Splits type parameters into those that the target mentions and the others. -/
def splitTypeParams (tparams : List TypeParam) (target : Target) :
    List TypeParam × List TypeParam :=
  tparams.partition fun tp => target.names.contains tp.name

/-- The wrapper takes the type parameters that the target mentions. -/
theorem splitTypeParams_fst (tparams : List TypeParam) (target : Target) :
    (splitTypeParams tparams target).1 =
      tparams.filter fun tp => target.names.contains tp.name := by
  simp [splitTypeParams, List.partition_eq_filter_filter]

/-- The method keeps those that it does not. -/
theorem splitTypeParams_snd (tparams : List TypeParam) (target : Target) :
    (splitTypeParams tparams target).2 =
      tparams.filter fun tp => !target.names.contains tp.name := by
  simp [splitTypeParams, List.partition_eq_filter_filter, Function.comp_def]

end Enrich
