import Enrich.Interner
/-!
# Fresh names

A generated name is a hint, a dollar sign and a number.  One counter serves all hints and only
grows.  A number whose name is already interned is passed over, so a generated name never meets a
name that the code mentions.

The search for the number is bounded: among one more candidates than there are interned strings,
one is not interned, because different numbers give different names.  `NameSupply.next` therefore
looks no further than that and answers the least number that fits.
-/

namespace Enrich

/-- An interner together with the counter of the names generated so far. -/
structure NameSupply where
  interner : Interner
  counter : Nat := 0

namespace NameSupply

/-- The candidate with number `k`. -/
def candidate (hint : String) (k : Nat) : String := hint ++ "$" ++ toString k

/-- The least number above the counter whose candidate is not interned. -/
def next (s : NameSupply) (hint : String) : Nat :=
  let isNew (k : Nat) := (s.interner.get? (candidate hint k)).isNone
  ((List.range' (s.counter + 1) (s.interner.size + 1)).find? isNew).getD
    (s.counter + s.interner.size + 1)

/-- Generates a name from a hint. -/
def fresh (s : NameSupply) (hint : String) : Name × NameSupply :=
  let k := s.next hint
  let (n, i) := s.interner.intern (candidate hint k)
  (n, { interner := i, counter := k })

/-- Generates a name whose hint is the text of another name. -/
def freshFrom (s : NameSupply) (base : Name) : Name × NameSupply :=
  s.fresh (s.interner.text base)

end NameSupply

end Enrich
