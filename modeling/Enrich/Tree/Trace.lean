import Enrich.Tree.Rebuild
import Enrich.Tree.Visit
/-!
# Traces of the two traversals

A trace is the sequence of places a traversal enters, in order.  Both the observer below and the
rebuilding pass below note every place on entry and then go on inside, so their traces show in
which order the two traversals meet the places of a tree.
-/

namespace Enrich

/-- A place that a traversal enters. -/
inductive Place where
  | tree (kind : Kind)
  | value (name : Name)
  | method (name : Name)
  | arm
  /-- A list of members, by its length. -/
  | members (count : Nat)
deriving DecidableEq, Repr

/-- Notes a place. -/
def Place.note (p : Place) : StateM (Array Place) Unit := modify (·.push p)

/-- The observer that notes every tree, value, method and arm, and does not look inside the trees
of the kinds in `stop`. -/
def Visit.tracer (stop : List Kind) : Visit (StateM (Array Place)) where
  tree t inside := do
    Place.note (.tree t.kind)
    unless stop.contains t.kind do inside
  value d inside := do
    Place.note (.value d.name)
    inside
  method d inside := do
    Place.note (.method d.name)
    inside
  arm _ inside := do
    Place.note .arm
    inside

/-- The pass that notes every tree, value, method and list of members, and changes nothing. -/
def Rebuild.tracer : Rebuild (StateM (Array Place)) where
  tree t rebuilt := do
    Place.note (.tree t.kind)
    rebuilt
  value d rebuilt := do
    Place.note (.value d.name)
    rebuilt
  method d rebuilt := do
    Place.note (.method d.name)
    rebuilt
  members _ ts rebuilt := do
    Place.note (.members ts.length)
    rebuilt

namespace Tree

/-- The places an observer enters that stops at the kinds in `stop`. -/
def visitTrace (stop : List Kind) (t : Tree) : List Place :=
  ((t.visit (Visit.tracer stop)).run #[]).2.toList

/-- The rebuilt tree, and the places that were entered on the way. -/
def rebuildTrace (t : Tree) : Tree × List Place :=
  let (u, places) := (t.rebuild Rebuild.tracer).run #[]
  (u, places.toList)

end Tree

end Enrich
