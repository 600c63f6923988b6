import Enrich.Text.Invisible
/-!
# Quoted text

A text in double quotes, on one line: quotes and backslashes are escaped, the usual controls have
their letters, and any other character that would not be seen is written as its code point.

* `quoteChar_no_break`: no character is written with a line break, so a quoted text stays on its
  line.
-/

namespace Enrich

namespace Text

/-- A number in base sixteen, with lower-case digits. -/
def hex (n : Nat) : List Char := Nat.toDigits 16 n

/-- A character as it stands between double quotes. -/
def quoteChar (c : Char) : List Char :=
  match c with
  | '\x00' => ['\\', '0']
  | '\t' => ['\\', 't']
  | '\r' => ['\\', 'r']
  | '\n' => ['\\', 'n']
  | '"' => ['\\', '"']
  | '\\' => ['\\', '\\']
  | c => if isVisible c then [c] else ['\\', 'u', '{'] ++ hex c.toNat ++ ['}']

/-- A text between double quotes. -/
def quote (s : String) : String :=
  String.ofList ('"' :: (s.toList.flatMap quoteChar ++ ['"']))

/-! ## Quoted text stays on its line -/

/-- Neither a line feed nor a carriage return. -/
def IsInline (c : Char) : Prop := c ≠ '\n' ∧ c ≠ '\r'

instance (c : Char) : Decidable (IsInline c) :=
  inferInstanceAs (Decidable (c ≠ '\n' ∧ c ≠ '\r'))

/-- No digit breaks a line. -/
theorem isInline_digitChar (n : Nat) : IsInline n.digitChar := by
  by_cases h : n < 16
  · have small : ∀ m < 16, IsInline (Nat.digitChar m) := by decide
    exact small n h
  · have large : n.digitChar = '*' := by
      unfold Nat.digitChar
      iterate 16 rw [if_neg (by omega)]
    rw [large]
    decide

theorem isInline_toDigitsCore (base fuel : Nat) : ∀ (n : Nat) (ds : List Char),
    (∀ c ∈ ds, IsInline c) → ∀ c ∈ Nat.toDigitsCore base fuel n ds, IsInline c := by
  induction fuel with
  | zero =>
    intro n ds hds
    simpa [Nat.toDigitsCore] using hds
  | succ fuel ih =>
    intro n ds hds
    have hcons : ∀ c ∈ (n % base).digitChar :: ds, IsInline c := by
      simpa using ⟨isInline_digitChar _, hds⟩
    rw [Nat.toDigitsCore]
    split
    · exact hcons
    · exact ih _ _ hcons

/-- A number in base sixteen is on one line. -/
theorem isInline_hex {n : Nat} {c : Char} (h : c ∈ hex n) : IsInline c :=
  isInline_toDigitsCore 16 _ n [] (by simp) c h

theorem isInline_of_mem_pair {a b c : Char} (h : (IsInline a && IsInline b) = true)
    (hc : c ∈ [a, b]) : IsInline c := by
  simp only [Bool.and_eq_true, decide_eq_true_eq] at h
  rcases List.mem_cons.mp hc with rfl | hc
  · exact h.1
  · exact List.mem_singleton.mp hc ▸ h.2

/-- **No character is written with a line break.** -/
theorem quoteChar_no_break (c : Char) : ∀ d ∈ quoteChar c, IsInline d := by
  intro d hd
  unfold quoteChar at hd
  split at hd
  · exact isInline_of_mem_pair rfl hd
  · exact isInline_of_mem_pair rfl hd
  · exact isInline_of_mem_pair rfl hd
  · exact isInline_of_mem_pair rfl hd
  · exact isInline_of_mem_pair rfl hd
  · exact isInline_of_mem_pair rfl hd
  · rename_i _ hr hn _ _
    split at hd
    · rw [List.mem_singleton.mp hd]
      exact ⟨hn, hr⟩
    · simp only [List.mem_append, List.mem_cons, List.not_mem_nil, or_false] at hd
      rcases hd with ((rfl | rfl | rfl) | hd) | rfl
      · decide
      · decide
      · decide
      · exact isInline_hex hd
      · decide

end Text

end Enrich
