/-!
# Blank characters and trimming

The blank characters are those that text is trimmed of at both ends: the ASCII blanks, the four
information separators, next line, and the space, line and paragraph separators. This class is
wider than what may stand between two tokens of a program.
-/

namespace ExprLang.Text

/-- Whether `c` is trimmed from the ends of a line. -/
def isBlank (c : Char) : Bool :=
  let n := c.toNat
  (0x09 ≤ n && n ≤ 0x0d) || (0x1c ≤ n && n ≤ 0x20) || n == 0x85 || n == 0xa0 || n == 0x1680
    || (0x2000 ≤ n && n ≤ 0x200a) || n == 0x2028 || n == 0x2029 || n == 0x202f || n == 0x205f
    || n == 0x3000

/-- The characters that are left once blanks are dropped at both ends. -/
def trimChars (cs : List Char) : List Char :=
  ((cs.dropWhile isBlank).reverse.dropWhile isBlank).reverse

/-- `s` without the blanks at its ends. -/
def trim (s : String) : String :=
  String.ofList (trimChars s.toList)

end ExprLang.Text
