/-!
# Blank characters and separators

Blanks are the characters that carry the Unicode property White_Space. A separator is a blank or a
comma: separators stand between tokens and belong to none of them.
-/
namespace MatrixLisp.Text

/-- The twenty-five characters with the property White_Space. -/
def isBlank (c : Char) : Bool :=
  let n := c.toNat
  (0x0009 ≤ n && n ≤ 0x000D) || n == 0x0020 || n == 0x0085 || n == 0x00A0 || n == 0x1680 ||
    (0x2000 ≤ n && n ≤ 0x200A) || n == 0x2028 || n == 0x2029 || n == 0x202F || n == 0x205F ||
    n == 0x3000

/-- A character that may stand between two tokens. -/
def isSeparator (c : Char) : Bool :=
  isBlank c || c == ','

def trim (s : String) : String :=
  String.ofList (((s.toList.dropWhile isBlank).reverse.dropWhile isBlank).reverse)

/-- The lines of a text: the pieces between line feeds, the last one included. -/
def lines (s : String) : List String :=
  (s.toList.splitOnP (· == '\n')).map String.ofList

end MatrixLisp.Text
