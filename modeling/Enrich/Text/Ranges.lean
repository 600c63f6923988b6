/-!
# Ranges of code points

Properties of characters are given by the code points that have them, as closed ranges in
increasing order.

* `Ranges.contains_iff`: what it means to be in one of the ranges.
-/

namespace Enrich

namespace Text

/-- Closed ranges of code points. -/
abbrev Ranges := List (Nat × Nat)

namespace Ranges

/-- Is the code point `n` inside one of the ranges? -/
def contains (ranges : Ranges) (n : Nat) : Bool :=
  ranges.any fun (low, high) => low ≤ n && n ≤ high

/-- The test looks for a range that has the code point between its ends. -/
theorem contains_iff {ranges : Ranges} {n : Nat} :
    ranges.contains n = true ↔ ∃ r ∈ ranges, r.1 ≤ n ∧ n ≤ r.2 := by
  simp [contains]

end Ranges

end Text

end Enrich
