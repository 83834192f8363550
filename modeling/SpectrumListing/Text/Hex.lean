/-! Hexadecimal text in upper case: fixed-width digits for bytes and words, rows of bytes, and
columns filled up with spaces. -/
namespace SpectrumListing

/-- Fills a text up with spaces to at least `width` characters. -/
def padRight (width : Nat) (text : String) : String :=
  text ++ String.ofList (List.replicate (width - text.length) ' ')

namespace Hex

/-- The digit for `n` modulo sixteen. -/
def digit (n : Nat) : Char :=
  if n % 16 < 10 then Char.ofNat (48 + n % 16) else Char.ofNat (55 + n % 16)

/-- The last `width` digits of `n`, with leading zeros. -/
def digits : Nat → Nat → List Char
  | 0, _ => []
  | width + 1, n => digits width (n / 16) ++ [digit n]

def byte (b : UInt8) : String := String.ofList (digits 2 b.toNat)

def word (w : UInt16) : String := String.ofList (digits 4 w.toNat)

/-- All the digits of `n`, and leading zeros when it has fewer than `width`. -/
def number (width n : Nat) : String :=
  String.ofList (digits (max width (n.log2 / 4 + 1)) n)

/-- The bytes of a row, with a space between neighbours. -/
def bytes (bs : List UInt8) : String := " ".intercalate (bs.map byte)

end Hex

end SpectrumListing
