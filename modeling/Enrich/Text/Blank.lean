/-!
# White space at the ends of a text

`isBlank` is the White_Space property of the Unicode character database, twenty-five characters in
all, and `trim` drops them from both ends.

* `isBlank_of_isWhitespace`: every character that is white space by the ASCII rule is blank.
-/

namespace Enrich

namespace Text

/-- The code points of the blank characters. -/
def blanks : List Nat :=
  [0x9, 0xa, 0xb, 0xc, 0xd, 0x20, 0x85, 0xa0, 0x1680, 0x2000, 0x2001, 0x2002, 0x2003, 0x2004,
    0x2005, 0x2006, 0x2007, 0x2008, 0x2009, 0x200a, 0x2028, 0x2029, 0x202f, 0x205f, 0x3000]

/-- Is the character white space? -/
def isBlank (c : Char) : Bool := blanks.contains c.toNat

/-- Drops the blank characters at both ends. -/
def trim (cs : List Char) : List Char :=
  ((cs.dropWhile isBlank).reverse.dropWhile isBlank).reverse

/-- The whitespace of the core library is blank; the converse fails, as many blanks are not
ASCII. -/
theorem isBlank_of_isWhitespace {c : Char} (h : c.isWhitespace = true) : isBlank c = true := by
  simp only [Char.isWhitespace, Bool.or_eq_true, decide_eq_true_eq] at h
  rcases h with ((rfl | rfl) | rfl) | rfl <;> decide

end Text

end Enrich
