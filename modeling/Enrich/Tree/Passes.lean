import Enrich.Tree.Rebuild
import Enrich.Tree.Replace
/-!
# Small passes

Passes of a few lines each, one for every kind of place that a pass can take to itself: a node, a
list of members, the definitions, an arm.
-/

namespace Enrich

/-- Puts every member before its rebuilding and keeps both. -/
def Rebuild.duplicating : Rebuild Id where
  members _ ts _ := do
    let pairs ← ts.mapM fun (t, rebuilt) => return [t, ← rebuilt]
    return pairs.flatten

/-- Drops guards and leaves patterns alone. -/
def Rebuild.guardless : Rebuild Id where
  arm a _ := return { pat := a.pat.1, guard := none, body := ← a.body.2 }

/-- The name whose text has one more mark at its end. -/
def primed (mark : String) (n : Name) : StateM Interner Name :=
  fun i => i.intern (i.text n ++ mark)

/-- Puts a mark at the end of the name of every value and every method. -/
def Rebuild.priming (mark : String) : Rebuild (StateM Interner) where
  value _ rebuilt := do
    let d ← rebuilt
    return { d with name := ← primed mark d.name }
  method _ rebuilt := do
    let d ← rebuilt
    return { d with name := ← primed mark d.name }

namespace Tree

/-- Replaces references to `old` by references to `new`, which carry no type. -/
def renameIdent (old new : Name) (t : Tree) : Tree :=
  t.replace fun t =>
    match t.shape with
    | .ident n => if n = old then some (ident new t.span) else none
    | _ => none

/-- Keeps every member twice, as it was and rebuilt. -/
def duplicateMembers (t : Tree) : Tree := (t.rebuild .duplicating).run

/-- Drops the guards of all arms, except of arms inside a pattern. -/
def dropGuards (t : Tree) : Tree := (t.rebuild .guardless).run

/-- Marks the names of all values and methods. -/
def primeDefinitions (mark : String) (t : Tree) : StateM Interner Tree :=
  t.rebuild (.priming mark)

end Tree

end Enrich
