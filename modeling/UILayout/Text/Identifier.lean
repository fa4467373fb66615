import UILayout.Text.Word

/-!
# UILayout.Text.Identifier

Characters that may continue an identifier, and identifiers made of them. These are the characters
of words, with a few more (young letters, and some kept for the sake of old identifiers), and without
those that composing a text can turn into something else.
-/

namespace UILayout
namespace Text

/-- No characters of words, but allowed in identifiers. -/
def identifierExtras : CodeRanges := [
    (0xb7, 0xb7), (0x387, 0x387), (0x88f, 0x88f), (0xc5c, 0xc5c), (0xcdc, 0xcdc),
    (0x1369, 0x1371), (0x19da, 0x19da), (0x1acf, 0x1add), (0x1ae0, 0x1aeb), (0x2118, 0x2118),
    (0x212e, 0x212e), (0x30fb, 0x30fb), (0xa7ce, 0xa7cf), (0xa7d2, 0xa7d2), (0xa7d4, 0xa7d4),
    (0xa7f1, 0xa7f1), (0xff65, 0xff65), (0x10940, 0x10959), (0x10ec5, 0x10ec7),
    (0x10efa, 0x10efb), (0x11b60, 0x11b67), (0x11db0, 0x11ddb), (0x11de0, 0x11de9),
    (0x16ea0, 0x16eb8), (0x16ebb, 0x16ed3), (0x16ff2, 0x16ff6), (0x187f8, 0x187ff),
    (0x18d09, 0x18d1e), (0x18d80, 0x18df2), (0x1e6c0, 0x1e6de), (0x1e6e0, 0x1e6f5),
    (0x1e6fe, 0x1e6ff), (0x2b73a, 0x2b73f), (0x2cea2, 0x2cead), (0x323b0, 0x33479)]

/-- Characters of words that no identifier may hold. -/
def identifierExceptions : CodeRanges := [
    (0x37a, 0x37a), (0x488, 0x489), (0x1abe, 0x1abe), (0x20dd, 0x20e0), (0x20e2, 0x20e4),
    (0x24b6, 0x24e9), (0x2e2f, 0x2e2f), (0xa670, 0xa672), (0xfc5e, 0xfc63), (0xfdfa, 0xfdfb),
    (0xfe70, 0xfe70), (0xfe72, 0xfe72), (0xfe74, 0xfe74), (0xfe76, 0xfe76), (0xfe78, 0xfe78),
    (0xfe7a, 0xfe7a), (0xfe7c, 0xfe7c), (0xfe7e, 0xfe7e), (0x1f130, 0x1f149), (0x1f150, 0x1f169),
    (0x1f170, 0x1f189)]

/-- May `c` stand inside an identifier? -/
def isIdentifierChar (c : Char) : Bool :=
  (wordRanges.mem c.toNat && !identifierExceptions.mem c.toNat) || identifierExtras.mem c.toNat

/-- Is this a word of identifier characters, at least one? The first one may be a digit. -/
def isIdentifier (text : List Char) : Bool :=
  !text.isEmpty && text.all fun c => c = '_' || isIdentifierChar c

end Text
end UILayout
