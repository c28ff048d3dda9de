/-!
# Lines
-/

namespace ExprLang.Text

/-- Writes every line end, be it a return, a newline or both in that order, as a newline. -/
def foldNewlines : List Char → List Char
  | [] => []
  | '\r' :: '\n' :: r => '\n' :: foldNewlines r
  | c :: r => (if c = '\r' then '\n' else c) :: foldNewlines r

/-- The lines of a text; there is one more than there are newlines. -/
def lines : List Char → List (List Char)
  | [] => [[]]
  | c :: r =>
    if c = '\n' then [] :: lines r
    else match lines r with
      | [] => [[c]]
      | l :: ls => (c :: l) :: ls

end ExprLang.Text
