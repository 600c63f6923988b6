import Enrich.Interner
/-!
# The words of the expander

The annotations that ask for an expansion, and the name that an extension's receiver goes by, can be
spelled as the caller likes.  `Options` holds the spellings and `Vocabulary` their names in an
interner, next to the names that generated code mentions whatever the options say.
-/

namespace Enrich

/-- How the extension annotations are spelled. -/
structure Spellings where
  /-- Asks for a wrapper class and a generator. -/
  staged : String := "extend"
  /-- Asks for a wrapper class alone. -/
  runtime : String := "runtimeExtend"
  /-- The old spelling of `staged`, which is an error. -/
  deprecated : String := "ext"
deriving DecidableEq, Repr

/-- What a caller can choose about the expansion. -/
structure Options where
  spellings : Spellings := {}
  /-- What the receiver is called inside an extension body. -/
  selfName : String := "self"
deriving DecidableEq, Repr

/-- The names of the extension annotations. -/
structure AnnotationNames where
  staged : Name
  runtime : Name
  deprecated : Name
deriving DecidableEq, Repr

/-- The names that the expander looks for and the names that it writes. -/
structure Vocabulary where
  annotations : AnnotationNames
  selfName : Name
  /-- The type of a generator's context parameter. -/
  context : Name
  /-- The type, and the constructor, of staged values. -/
  expr : Name
  /-- The type of the evidence for a type parameter. -/
  weakTypeTag : Name
  /-- What a call is selected from, as a member of the context. -/
  callPrefix : Name
  /-- The tree of a staged value. -/
  tree : Name
  /-- Takes an application apart. -/
  apply : Name
  /-- Takes an argument list apart. -/
  list : Name
deriving DecidableEq, Repr

/-- The names of the extension annotations in an interner. -/
def AnnotationNames.intern (s : Spellings) : StateM Interner AnnotationNames := do
  let staged ← modifyGet (·.intern s.staged)
  let runtime ← modifyGet (·.intern s.runtime)
  let deprecated ← modifyGet (·.intern s.deprecated)
  return { staged, runtime, deprecated }

/-- The names of all the words in an interner. -/
def Vocabulary.intern (o : Options) : StateM Interner Vocabulary := do
  let annotations ← AnnotationNames.intern o.spellings
  let selfName ← modifyGet (·.intern o.selfName)
  let context ← modifyGet (·.intern "Context")
  let expr ← modifyGet (·.intern "Expr")
  let weakTypeTag ← modifyGet (·.intern "WeakTypeTag")
  let callPrefix ← modifyGet (·.intern "prefix")
  let tree ← modifyGet (·.intern "tree")
  let apply ← modifyGet (·.intern "Apply")
  let list ← modifyGet (·.intern "List")
  return { annotations, selfName, context, expr, weakTypeTag, callPrefix, tree, apply, list }

end Enrich
