import Enrich.Tree.Build
/-!
# Rebuilding a tree, with effects

A `Rebuild m` says, for every kind of place in a tree, what a pass does there.  Each handler is
given the place and the action that rebuilds it from its rebuilt children, so a pass that says
nothing about a place just runs that action, and a pass that wants the place to itself drops it.

The children of a node are rebuilt in the order of `Shape.children`.  Span and attached type are
kept, and so are annotations, which are not entered.  Lists of members are handled as a whole: a
pass may put several members, or none, in the place of one.

* `Tree.rebuild_eq`: the equation of the recursion.
-/

namespace Enrich

variable {m : Type → Type} {α β γ : Type}

/-- Where a list of members stands. -/
inductive Scope where
  /-- In an object or a package. -/
  | container
  /-- In a block or a class. -/
  | enclosed
deriving DecidableEq, Repr

/-! ## 1. One layer -/

section

variable [Monad m]

/-- Rebuilds an optional part. -/
def rebuildOption (tree : β → m γ) : Option β → m (Option γ)
  | none => pure none
  | some b => some <$> tree b

/-- Rebuilds the type and the right-hand side of a value definition. -/
def ValueDef.rebuild (tree : β → m γ) (d : ValueDef α β) : m (ValueDef α γ) := do
  let tpe ← rebuildOption tree d.tpe
  let init ← rebuildOption tree d.init
  return { d with tpe, init }

/-- Rebuilds the parameters, the result type and the body of a method. -/
def MethodDef.rebuild (value : ValueDef α β → m (ValueDef α γ)) (tree : β → m γ)
    (d : MethodDef α β) : m (MethodDef α γ) := do
  let groups ← d.groups.mapM (·.mapM value)
  let result ← rebuildOption tree d.result
  let body ← tree d.body
  return { d with groups, result, body }

/-- Rebuilds the pattern, the guard and the body of an arm. -/
def Arm.rebuild (tree : β → m γ) (a : Arm β) : m (Arm γ) := do
  let pat ← tree a.pat
  let guard ← rebuildOption tree a.guard
  let body ← tree a.body
  return { pat, guard, body }

end

/-- What a pass does at each kind of place. -/
structure Rebuild (m : Type → Type) where
  /-- A node, and the action that rebuilds it. -/
  tree : Tree → m Tree → m Tree := fun _ rebuilt => rebuilt
  /-- A value definition or a parameter, and the action that rebuilds it. -/
  value : ValueDef Tree Tree → m (ValueDef Tree Tree) → m (ValueDef Tree Tree) :=
    fun _ rebuilt => rebuilt
  /-- A method, and the action that rebuilds it. -/
  method : MethodDef Tree Tree → m (MethodDef Tree Tree) → m (MethodDef Tree Tree) :=
    fun _ rebuilt => rebuilt
  /-- An arm whose parts come with their rebuilding, and the action that rebuilds it. -/
  arm : Arm (Tree × m Tree) → m (Arm Tree) → m (Arm Tree) := fun _ rebuilt => rebuilt
  /-- A list of members that come with their rebuilding, and the action that rebuilds them all. -/
  members : Scope → List (Tree × m Tree) → m (List Tree) → m (List Tree) :=
    fun _ _ rebuilt => rebuilt

namespace Rebuild

variable [Monad m] (r : Rebuild m)

/-- A value definition whose parts come with their rebuilding. -/
def valueDef (d : ValueDef Tree (Tree × m Tree)) : m (ValueDef Tree Tree) :=
  r.value (d.bimap id Prod.fst) (d.rebuild Prod.snd)

/-- A method whose parts come with their rebuilding. -/
def methodDef (d : MethodDef Tree (Tree × m Tree)) : m (MethodDef Tree Tree) :=
  r.method (d.bimap id Prod.fst) (d.rebuild r.valueDef Prod.snd)

/-- An arm whose parts come with their rebuilding. -/
def caseArm (a : Arm (Tree × m Tree)) : m (Arm Tree) := r.arm a (a.rebuild Prod.snd)

/-- A list of members that come with their rebuilding. -/
def memberList (scope : Scope) (ts : List (Tree × m Tree)) : m (List Tree) :=
  r.members scope ts (ts.mapM Prod.snd)

/-- Rebuilds one layer, its children from first to last. -/
def layer : Shape Tree (Tree × m Tree) → m (Shape Tree Tree)
  | .ident n => pure (.ident n)
  | .typeIdent n => pure (.typeIdent n)
  | .literal v => pure (.literal v)
  | .select t n => return .select (← t.2) n
  | .apply t args => return .apply (← t.2) (← args.mapM Prod.snd)
  | .typeApply t args => return .typeApply (← t.2) (← args.mapM Prod.snd)
  | .appliedType t args => return .appliedType (← t.2) (← args.mapM Prod.snd)
  | .new t => return .new (← t.2)
  | .block stats t => return .block (← r.memberList .enclosed stats) (← t.2)
  | .matchOn t arms => return .matchOn (← t.2) (← arms.mapM r.caseArm)
  | .bind n t => return .bind n (← t.2)
  | .wildcard => pure .wildcard
  | .lambda ps t => return .lambda (← ps.mapM r.valueDef) (← t.2)
  | .valueDef d => return .valueDef (← r.valueDef d)
  | .methodDef d => return .methodDef (← r.methodDef d)
  | .classDef d => do
    let params ← d.params.mapM r.valueDef
    let body ← r.memberList .enclosed d.body
    return .classDef { d with params, body }
  | .objectDef d => return .objectDef { d with body := ← r.memberList .container d.body }
  | .package n stats => return .package n (← r.memberList .container stats)
  | .quote t => return .quote (← t.2)
  | .splice t => return .splice (← t.2)
  | .tag i => pure (.tag i)

end Rebuild

/-! ## 2. All layers -/

namespace Tree

variable [Monad m]

/-- Rebuilds a tree by the handlers of `r`. -/
def rebuild (r : Rebuild m) : Tree → m Tree :=
  fold fun t s => r.tree t do return ⟨← r.layer s, t.span, t.ty⟩

/-- The equation of the recursion: each child of the layer comes with its own rebuilding. -/
theorem rebuild_eq (r : Rebuild m) (t : Tree) :
    t.rebuild r =
      r.tree t do return ⟨← r.layer (t.shape.map fun c => (c, c.rebuild r)), t.span, t.ty⟩ := by
  rw [rebuild, fold_eq]

end Tree

end Enrich
