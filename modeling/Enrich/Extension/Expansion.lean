import Enrich.Extension.Synthesis
import Enrich.Tree.Rebuild
/-!
# Expanding a unit

Only members of objects and packages are expanded in full, because callers must be able to reach
both the wrapper class and its companion.  In blocks and classes a runtime extension is expanded
into its wrapper class; a staged one stays as it is with a remark, or goes if it is in the old
spelling.

Generated code is expanded in turn, for the body of an extension may hold extensions of its own.
That ends: the code generated for a method has lost one of the method's annotations, on the
forwarder, or all of them, on the generator, and everything inside is as deep as before.
`Tree.expansionDepth` measures this, and `expandUnit` allows as many rounds as the measure says.

* `Tree.expansionDepth_eq`: the equation of the measure.
-/

namespace Enrich

/-! ## 1. One member -/

/-- What becomes of a member. -/
inductive Expansion where
  | kept
  | replaced (trees : List Tree)
  | dropped

/-- Decides what becomes of a member, and generates what replaces it. -/
def expand (v : Vocabulary) (scope : Scope) (t : Tree) : ExpandM Expansion := do
  let .methodDef d := t.shape | return .kept
  match Search.of v.annotations d.mods.annotations with
  | .nothing => return .kept
  | .several spans =>
    ExpandM.reportFaults [.several d.name t.span spans]
    return .dropped
  | .malformed arity span =>
    ExpandM.reportFaults [.malformed arity span]
    return .dropped
  | .found f =>
    if scope = .enclosed ∧ f.kind = .staged then
      if f.isOld then
        ExpandM.reportFaults [.oldSpelling f.span (some d.name)]
        return .dropped
      else
        ExpandM.report (.remark (.notExpanded d.name f.span))
        return .kept
    else
      if f.isOld then
        ExpandM.reportFaults [.oldSpelling f.span none]
      match ← (Extension.ofFound f d t.span).synthesize v with
      | some trees => return .replaced trees
      | none => return .dropped

/-! ## 2. All members

The traversal knows nothing about extensions.  It asks, member by member, what becomes of it, and
puts that in its place. -/

section

variable {m : Type → Type} [Monad m] (outcome : Scope → Tree → m Expansion)

/-- What takes the place of a member: itself, expanded inside; the code generated for it, expanded
by `again`; or nothing. -/
def expandMember (again : Tree → m Tree) (scope : Scope) (member : Tree × m Tree) :
    m (List Tree) := do
  match ← outcome scope member.1 with
  | .kept => return [← member.2]
  | .replaced trees => trees.mapM again
  | .dropped => return []

/-- The pass that expands members, and generated code by `again`. -/
def Rebuild.expanding (again : Tree → m Tree) : Rebuild m where
  members scope ts _ := do return (← ts.mapM (expandMember outcome again scope)).flatten

/-- Expands the members of a tree and goes `n` rounds into generated code. -/
def expandRounds : Nat → Tree → m Tree
  | 0 => Tree.rebuild (.expanding outcome pure)
  | n + 1 => Tree.rebuild (.expanding outcome (expandRounds n))

end

/-! ## 3. A unit -/

namespace Tree

/-- How many annotations a method has; nothing else counts. -/
def methodAnnotations (t : Tree) : Nat :=
  match t.shape with
  | .methodDef d => d.mods.annotations.length
  | _ => 0

/-- The most annotations of methods that stand inside one another.  It bounds the rounds that
expanding takes. -/
def expansionDepth : Tree → Nat :=
  fold fun t s => t.methodAnnotations + (s.children.map Prod.snd).foldr max 0

/-- The equation of the depth. -/
theorem expansionDepth_eq (t : Tree) :
    t.expansionDepth =
      t.methodAnnotations + (t.shape.children.map expansionDepth).foldr max 0 := by
  rw [expansionDepth, fold_eq]
  simp only [Shape.map, Shape.children_bimap, List.map_map]
  rfl

end Tree

/-- Expands every extension of a unit.  A definition that cannot be expanded is dropped, and the
rest of the unit is expanded all the same. -/
def expandUnit (v : Vocabulary) (t : Tree) : ExpandM Tree :=
  expandRounds (expand v) t.expansionDepth t

end Enrich
