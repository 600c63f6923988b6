import Enrich.Tree.AttachedType
import Enrich.Tree.Printer
/-!
# Compiling generated code

A host compiles a tree or refuses it.  Generated code is put together from parts that were typed in
different scopes, so it is offered without its attached types first; a host that cannot do without
them gets the tree once more as it is.  If that is refused as well, the failure has the tree in
writing and both causes.
-/

namespace Enrich

variable {m : Type → Type} {ε γ : Type}

/-- Both attempts were refused. -/
structure CompileError (ε : Type) where
  /-- The tree in writing. -/
  text : String
  /-- Why the tree without attached types was refused. -/
  first : ε
  /-- Why the tree as it is was refused. -/
  second : ε

/-- The failure in words. -/
def CompileError.message [ToString ε] (e : CompileError ε) : String :=
  "could not compile generated tree `" ++ e.text ++ "`: " ++ toString e.first
    ++ "; retry keeping attached types: " ++ toString e.second

/-- Compiles a tree with a host, in at most two attempts.  Its names are those of the interner. -/
def compile [Monad m] (host : Tree → m (Except ε γ)) (tree : Tree) (i : Interner) :
    m (Except (CompileError ε) γ) := do
  match ← host tree.dropTypes with
  | .ok compiled => return .ok compiled
  | .error first =>
    match ← host tree with
    | .ok compiled => return .ok compiled
    | .error second => return .error { text := tree.print i, first, second }

end Enrich
