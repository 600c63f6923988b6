import Enrich.Extension.Vocabulary
import Enrich.Tree.Build
/-!
# Recognising extension annotations

An annotation is written as the constructor call that would create it: `@extend(T)` is the tree of
`new extend(T)`.  `AnnotationMatch.of` tells whether a tree is an extension annotation, and
`Search.of` looks through all the annotations of a definition.

* `Search.of_eq_nothing_iff`: nothing is found exactly when every annotation is unrelated.
-/

namespace Enrich

/-- What an extension annotation asks for. -/
inductive ExtensionKind where
  /-- A wrapper class whose method is left to a generator. -/
  | staged
  /-- A wrapper class with a copy of the method. -/
  | runtime
deriving DecidableEq, Repr

/-- What an annotation says about extensions. -/
inductive AnnotationMatch where
  /-- An extension annotation with its one argument; `isOld` if in the old spelling. -/
  | extension (kind : ExtensionKind) (isOld : Bool) (payload : Tree)
  /-- An extension annotation with a number of arguments other than one. -/
  | malformed (arity : Nat)
  /-- Some other annotation. -/
  | unrelated
deriving DecidableEq

/-- Does the spelling `name` ask for an extension?  Of two equal spellings the first one counts, in
the order staged, runtime, old. -/
def AnnotationNames.request? (names : AnnotationNames) (name : Name) :
    Option (ExtensionKind × Bool) :=
  if name = names.staged then some (.staged, false)
  else if name = names.runtime then some (.runtime, false)
  else if name = names.deprecated then some (.staged, true)
  else none

/-- The class name of a constructor. -/
def Tree.className? (t : Tree) : Option Name :=
  match t.shape with
  | .typeIdent n | .ident n => some n
  | _ => none

/-- The class name and the arguments of a constructor call; a bare constructor has no arguments. -/
def Tree.constructorCall? (t : Tree) : Option (Name × List Tree) :=
  match t.shape with
  | .apply fn args =>
    match fn.shape with
    | .new tpe => tpe.className?.map (·, args)
    | _ => none
  | .new tpe => tpe.className?.map (·, [])
  | _ => none

namespace AnnotationMatch

/-- Looks at one annotation. -/
def of (names : AnnotationNames) (ann : Tree) : AnnotationMatch :=
  match ann.constructorCall? with
  | none => .unrelated
  | some (name, args) =>
    match names.request? name, args with
    | none, _ => .unrelated
    | some (kind, isOld), [payload] => .extension kind isOld payload
    | some _, args => .malformed args.length

/-- Is it an extension annotation, well formed or not? -/
def isExtension : AnnotationMatch → Bool
  | .unrelated => false
  | _ => true

end AnnotationMatch

/-- The one extension annotation of a definition. -/
structure Found where
  kind : ExtensionKind
  isOld : Bool
  payload : Tree
  /-- Where it stands in the list of annotations. -/
  index : Nat
  /-- Where it stands in the code. -/
  span : Span
deriving DecidableEq

/-- What the annotations of a definition say together. -/
inductive Search where
  | nothing
  | found (f : Found)
  /-- The only extension annotation has the wrong number of arguments. -/
  | malformed (arity : Nat) (span : Span)
  /-- There are several extension annotations, at these places. -/
  | several (spans : List Span)
deriving DecidableEq

namespace Search

/-- The extension annotations in a list, each with its position. -/
def candidates (names : AnnotationNames) (anns : List Tree) : List (Tree × Nat) :=
  anns.zipIdx.filter fun (ann, _) => (AnnotationMatch.of names ann).isExtension

/-- Looks through the annotations of a definition. -/
def of (names : AnnotationNames) (anns : List Tree) : Search :=
  match candidates names anns with
  | [] => .nothing
  | [(ann, index)] =>
    match AnnotationMatch.of names ann with
    | .extension kind isOld payload => .found { kind, isOld, payload, index, span := ann.span }
    | .malformed arity => .malformed arity ann.span
    | .unrelated => .nothing
  | all => .several (all.map (·.1.span))

theorem candidates_eq_nil_iff {names : AnnotationNames} {anns : List Tree} :
    candidates names anns = [] ↔ ∀ a ∈ anns, AnnotationMatch.of names a = .unrelated := by
  have hu : ∀ a, (AnnotationMatch.of names a).isExtension = true ↔
      AnnotationMatch.of names a ≠ .unrelated := by
    intro a
    cases AnnotationMatch.of names a <;> simp [AnnotationMatch.isExtension]
  simp only [candidates, List.filter_eq_nil_iff, hu, Prod.forall, ne_eq, Classical.not_not]
  constructor
  · intro h a ha
    obtain ⟨i, hi⟩ := List.mem_iff_getElem?.mp ha
    exact h a i (List.mem_zipIdx_iff_getElem?.mpr hi)
  · intro h a i hi
    exact h a (List.mem_of_getElem? (List.mem_zipIdx_iff_getElem?.mp hi))

/-- **Nothing is found exactly when every annotation is unrelated.** -/
theorem of_eq_nothing_iff {names : AnnotationNames} {anns : List Tree} :
    Search.of names anns = .nothing ↔ ∀ a ∈ anns, AnnotationMatch.of names a = .unrelated := by
  rw [← candidates_eq_nil_iff, of]
  split
  · simp [*]
  · rename_i ann index h
    have hext : (AnnotationMatch.of names ann).isExtension = true := by
      have hmem : (ann, index) ∈ candidates names anns := by rw [h]; exact List.mem_singleton_self _
      exact (List.mem_filter.mp hmem).2
    rw [h]
    cases hm : AnnotationMatch.of names ann with
    | unrelated => simp [hm, AnnotationMatch.isExtension] at hext
    | _ => simp
  · rename_i hne _
    exact iff_of_false (by simp) fun h => hne h

end Search

end Enrich
