import Enrich.Tree.Build
/-!
# Visiting a tree, with effects

A `Visit m` says what an observer does at each kind of place.  As in a rebuilding pass, a handler
is given the place and the action that visits what is inside it, and may do something before or
after that action or leave it out.

The children of a node are visited in the order of `Shape.children`; annotations are not entered.

* `Tree.visit_eq`: the equation of the recursion.
-/

namespace Enrich

variable {m : Type → Type} {α β : Type}

/-! ## 1. One layer -/

section

variable [Monad m]

/-- Visits the type and the right-hand side of a value definition. -/
def ValueDef.visit (tree : β → m Unit) (d : ValueDef α β) : m Unit := do
  d.tpe.forM tree
  d.init.forM tree

/-- Visits the parameters, the result type and the body of a method. -/
def MethodDef.visit (value : ValueDef α β → m Unit) (tree : β → m Unit) (d : MethodDef α β) :
    m Unit := do
  d.params.forM value
  d.result.forM tree
  tree d.body

/-- Visits the pattern, the guard and the body of an arm. -/
def Arm.visit (tree : β → m Unit) (a : Arm β) : m Unit := do
  tree a.pat
  a.guard.forM tree
  tree a.body

end

/-- What an observer does at each kind of place. -/
structure Visit (m : Type → Type) where
  /-- A node, and the action that visits what is inside it. -/
  tree : Tree → m Unit → m Unit := fun _ inside => inside
  /-- A value definition or a parameter, and the action that visits what is inside it. -/
  value : ValueDef Tree Tree → m Unit → m Unit := fun _ inside => inside
  /-- A method, and the action that visits what is inside it. -/
  method : MethodDef Tree Tree → m Unit → m Unit := fun _ inside => inside
  /-- An arm, and the action that visits what is inside it. -/
  arm : Arm Tree → m Unit → m Unit := fun _ inside => inside

namespace Visit

variable [Monad m] (v : Visit m)

/-- A value definition whose parts come with their visits. -/
def valueDef (d : ValueDef Tree (Tree × m Unit)) : m Unit :=
  v.value (d.bimap id Prod.fst) (d.visit Prod.snd)

/-- A method whose parts come with their visits. -/
def methodDef (d : MethodDef Tree (Tree × m Unit)) : m Unit :=
  v.method (d.bimap id Prod.fst) (d.visit v.valueDef Prod.snd)

/-- An arm whose parts come with their visits. -/
def caseArm (a : Arm (Tree × m Unit)) : m Unit := v.arm (a.map Prod.fst) (a.visit Prod.snd)

/-- Visits one layer, its children from first to last. -/
def layer : Shape Tree (Tree × m Unit) → m Unit
  | .ident _ | .typeIdent _ | .literal _ | .wildcard | .tag _ => pure ()
  | .select t _ | .new t | .bind _ t | .quote t | .splice t => t.2
  | .apply t args | .typeApply t args | .appliedType t args => do
    t.2
    args.forM Prod.snd
  | .block stats t => do
    stats.forM Prod.snd
    t.2
  | .matchOn t arms => do
    t.2
    arms.forM v.caseArm
  | .lambda ps t => do
    ps.forM v.valueDef
    t.2
  | .valueDef d => v.valueDef d
  | .methodDef d => v.methodDef d
  | .classDef d => do
    d.params.forM v.valueDef
    d.body.forM Prod.snd
  | .objectDef d => d.body.forM Prod.snd
  | .package _ stats => stats.forM Prod.snd

end Visit

/-! ## 2. All layers -/

namespace Tree

variable [Monad m]

/-- Visits a tree by the handlers of `v`. -/
def visit (v : Visit m) : Tree → m Unit := fold fun t s => v.tree t (v.layer s)

/-- The equation of the recursion: each child of the layer comes with its own visit. -/
theorem visit_eq (v : Visit m) (t : Tree) :
    t.visit v = v.tree t (v.layer (t.shape.map fun c => (c, c.visit v))) := by
  rw [visit, fold_eq]

end Tree

end Enrich
