import UILayout.Text.CodeRanges

/-!
# UILayout.Text.Blank

White space of every script, and texts without it at their ends. The zero-width space and the
byte order mark are no white space.
-/

namespace UILayout
namespace Text

def blankRanges : CodeRanges := [
  (0x9, 0xd), (0x20, 0x20), (0x85, 0x85), (0xa0, 0xa0), (0x1680, 0x1680), (0x2000, 0x200a),
  (0x2028, 0x2029), (0x202f, 0x202f), (0x205f, 0x205f), (0x3000, 0x3000)]

def isBlankChar (c : Char) : Bool := blankRanges.mem c.toNat

/-- The text without the white space at its ends. -/
def trim (text : List Char) : List Char :=
  ((text.dropWhile isBlankChar).reverse.dropWhile isBlankChar).reverse

end Text
end UILayout
