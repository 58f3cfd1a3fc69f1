/-
  Blank characters.

  A blank is a character with the Unicode property White_Space; `trimmed` takes
  the blanks away from both ends of a text.  Letters are compared without regard
  to case for ASCII only.
-/

namespace Arbor.Text

/-- Whether a character has the property White_Space. -/
def isBlank (c : Char) : Bool :=
  let n := c.toNat
  (9 ≤ n && n ≤ 13) || n == 0x20 || n == 0x85 || n == 0xA0 || n == 0x1680 ||
    (0x2000 ≤ n && n ≤ 0x200A) || n == 0x2028 || n == 0x2029 || n == 0x202F || n == 0x205F ||
    n == 0x3000

/-- The blanks of core are blank. -/
theorem isBlank_of_isWhitespace {c : Char} (h : c.isWhitespace = true) : isBlank c = true := by
  simp only [Char.isWhitespace, Bool.or_eq_true, decide_eq_true_eq] at h
  rcases h with ((rfl | rfl) | rfl) | rfl <;> decide

/-- A text without the blanks at its ends. -/
def trimmed (s : String) : String :=
  String.ofList ((s.toList.dropWhile isBlank).reverse.dropWhile isBlank).reverse

/-- A text with its ASCII letters in upper case. -/
def asciiUpper (s : String) : String := s.map Char.toUpper

/-- A text with its ASCII letters in lower case. -/
def asciiLower (s : String) : String := s.map Char.toLower

end Arbor.Text
