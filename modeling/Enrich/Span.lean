/-!
# Spans: where a piece of code stands

A span is a half-open range of byte positions in one source text.  Generated code has no place
of its own and borrows the span of the definition it was generated from.

Spans are ordered by where they begin and then by where they end.  The order is total, which is
what makes sorting by it independent of anything but the spans (`Span.le_total`, `Span.le_trans`,
`Span.le_antisymm`).
-/

namespace Enrich

/-- A range of byte positions; `stop` is the first position after it. -/
structure Span where
  start : Nat
  stop : Nat
deriving DecidableEq, Repr, Inhabited

namespace Span

/-- The span of code that stands nowhere in the text. -/
def nowhere : Span := ⟨0, 0⟩

/-- A span in writing: its two ends with two dots between them. -/
def text (s : Span) : String := toString s.start ++ ".." ++ toString s.stop

/-- The earlier start comes first; of two spans that start together, the earlier end. -/
def le (a b : Span) : Bool :=
  a.start < b.start || (a.start == b.start && a.stop ≤ b.stop)

/-- Spans are ordered by their start, and then by their end. -/
theorem le_iff {a b : Span} :
    a.le b = true ↔ a.start < b.start ∨ (a.start = b.start ∧ a.stop ≤ b.stop) := by
  simp [le]

/-- Any two spans can be ordered, so a list of them can be sorted. -/
theorem le_total (a b : Span) : (a.le b || b.le a) = true := by
  rw [Bool.or_eq_true, le_iff, le_iff]
  omega

theorem le_trans {a b c : Span} (hab : a.le b = true) (hbc : b.le c = true) : a.le c = true := by
  rw [le_iff] at *
  omega

theorem le_antisymm {a b : Span} (hab : a.le b = true) (hba : b.le a = true) : a = b := by
  rw [le_iff] at *
  cases a
  cases b
  simp only [mk.injEq]
  simp only at hab hba
  omega

end Span

end Enrich
