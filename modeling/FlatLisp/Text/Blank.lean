/-
Module: FlatLisp.Text.Blank
Purpose: The characters with Unicode's property White_Space, and cutting text at them.
Main exports: Blank.isBlank, Blank.trim, Blank.cut
-/

namespace FlatLisp.Text.Blank

/-- The characters with the property White_Space. -/
def isBlank (c : Char) : Bool :=
  let n := c.toNat
  (0x09 ≤ n && n ≤ 0x0d) || n == 0x20 || n == 0x85 || n == 0xa0 || n == 0x1680 ||
    (0x2000 ≤ n && n ≤ 0x200a) || n == 0x2028 || n == 0x2029 || n == 0x202f || n == 0x205f ||
    n == 0x3000

/-- The text without the blanks at either end. -/
def trim (text : List Char) : List Char :=
  ((text.dropWhile isBlank).reverse.dropWhile isBlank).reverse

/-- The text before the first blank, and the text after it. -/
def cut : List Char → List Char × List Char
  | [] => ([], [])
  | c :: rest => if isBlank c then ([], rest) else ((c :: (cut rest).1), (cut rest).2)

end FlatLisp.Text.Blank
