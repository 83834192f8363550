/-! Texts without the blanks at their ends, and texts in pieces: cut at every place where a certain
character stands, or cut into lines. Blank characters are those with Unicode's property
White_Space. -/
namespace SpectrumListing

def isBlank (c : Char) : Bool :=
  let n := c.toNat
  (0x09 ≤ n && n ≤ 0x0D) || n == 0x20 || n == 0x85 || n == 0xA0 || n == 0x1680 ||
    (0x2000 ≤ n && n ≤ 0x200A) || n == 0x2028 || n == 0x2029 || n == 0x202F || n == 0x205F ||
    n == 0x3000

/-- Drops the blanks after the last character that is none. -/
def trimEnd (cs : List Char) : List Char := (cs.reverse.dropWhile isBlank).reverse

def trim (cs : List Char) : List Char := trimEnd (cs.dropWhile isBlank)

namespace Pieces

/-- Cuts a text at every `mark`; there is one piece more than there are marks. -/
def split (mark : Char) : List Char → List (List Char)
  | [] => [[]]
  | c :: cs =>
    if c = mark then [] :: split mark cs
    else
      match split mark cs with
      | [] => [[c]]
      | piece :: pieces => (c :: piece) :: pieces

/-- A line without the carriage return that may stand before its line feed. -/
def dropReturn (line : List Char) : List Char :=
  if line.getLast? = some '\r' then line.dropLast else line

/-- The lines of a text. A line feed ends a line, so that nothing is left after the last of them
unless more text follows. -/
def lines (text : String) : List String :=
  let pieces := split '\n' text.toList
  let unended := pieces.getLast?.filter (!·.isEmpty)
  (pieces.dropLast.map dropReturn ++ unended.toList).map String.ofList

def firstLine (text : String) : String := (lines text).headD ""

end Pieces

end SpectrumListing
