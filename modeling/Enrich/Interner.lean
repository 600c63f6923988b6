/-!
# Interned names

A `Name` is a position in an `Interner`, the list of all distinct strings met so far.  Two names
of one interner are equal exactly when their strings are, so identifiers are compared without
looking at their text.

Strings are only ever appended.  A name that was handed out once therefore keeps its string for
good, and the whole of the interface is told by the list: `get?` is the position of a string,
`lookup?` the string at a position, and `intern` appends a string that is not there yet.
-/

namespace Enrich

/-- An interned identifier: its position among the strings of its interner. -/
structure Name where
  index : Nat
deriving DecidableEq, Repr, Inhabited

/-- The distinct strings met so far, in the order in which they were met. -/
structure Interner where
  strings : List String
  /-- No string is listed twice. -/
  nodup : strings.Nodup
  /-- The empty string is the first. -/
  head?_eq : strings.head? = some ""
deriving DecidableEq

namespace Interner

/-- The strings every interner starts with: the empty one, then the names that generated code
mentions. -/
def initialStrings : List String :=
  ["", "self", "Apply", "List", "Expr", "WeakTypeTag", "Context", "prefix", "tree", "splice"]

/-- An interner that has met the initial strings only. -/
def new : Interner where
  strings := initialStrings
  nodup := by decide
  head?_eq := rfl

/-- How many strings have been met, the empty one included. -/
def size (i : Interner) : Nat := i.strings.length

/-- Has nothing been met but the empty string? -/
def isEmpty (i : Interner) : Bool := i.size ≤ 1

/-- The name of a string that was met before. -/
def get? (i : Interner) (s : String) : Option Name := (i.strings.idxOf? s).map Name.mk

/-- The string of a name, if the name belongs to this interner. -/
def lookup? (i : Interner) (n : Name) : Option String := i.strings[n.index]?

/-- The text of a name; empty for a name that belongs to another interner. -/
def text (i : Interner) (n : Name) : String := (i.lookup? n).getD ""

/-- A name belongs to this interner when there is a string at its position. -/
def Knows (i : Interner) (n : Name) : Prop := n.index < i.size

instance (i : Interner) (n : Name) : Decidable (i.Knows n) :=
  inferInstanceAs (Decidable (n.index < i.size))

/-- A text has no name exactly when it was never interned. -/
theorem get?_eq_none_iff {i : Interner} {s : String} : i.get? s = none ↔ s ∉ i.strings := by
  simp [get?, List.idxOf?_eq_none_iff]

/-- The name of a string; a string that is met for the first time is appended. -/
def intern (i : Interner) (s : String) : Name × Interner :=
  match h : i.get? s with
  | some n => (n, i)
  | none =>
    (⟨i.size⟩,
      { strings := i.strings ++ [s]
        nodup := by
          have absent := get?_eq_none_iff.mp h
          rw [List.nodup_append]
          refine ⟨i.nodup, by simp, fun a ha b hb => ?_⟩
          rw [List.mem_singleton.mp hb]
          rintro rfl
          exact absent ha
        head?_eq := by simp [i.head?_eq] })

end Interner

end Enrich
