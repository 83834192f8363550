import SpectrumListing.Text.Hex
import SpectrumListing.Unfold

/-! Hex dumps: rows of sixteen bytes, each with its address, the bytes in hexadecimal and the bytes
as characters. -/
namespace SpectrumListing.HexDump

structure Row where
  address : UInt16
  bytes : List UInt8
deriving DecidableEq, Repr

def bytesPerRow : Nat := 16

/-- The character shown for a byte, a dot if it is not printable. -/
def shownChar (b : UInt8) : Char := if 0x20 ≤ b ∧ b < 0x7F then Char.ofNat b.toNat else '.'

/-- The column of hexadecimal bytes has the same width in every row. -/
def Row.text (r : Row) : String :=
  Hex.word r.address ++ ": " ++ padRight (3 * bytesPerRow - 1) (Hex.bytes r.bytes) ++ "  " ++
    String.ofList (r.bytes.map shownChar)

/-- The row at the front of the bytes, and what comes after it. -/
def read? : UInt16 × List UInt8 → Option (Row × UInt16 × List UInt8)
  | (address, bytes) =>
    if bytes.isEmpty then none
    else some (⟨address, bytes.take bytesPerRow⟩, address + UInt16.ofNat bytesPerRow,
      bytes.drop bytesPerRow)

theorem length_lt_of_read? {s t : UInt16 × List UInt8} {r : Row} (h : read? s = some (r, t)) :
    t.2.length < s.2.length := by
  obtain ⟨address, _ | ⟨b, bytes⟩⟩ := s
  · simp [read?] at h
  · simp only [read?, List.isEmpty_cons, Bool.false_eq_true, ↓reduceIte, Option.some.injEq,
      Prod.mk.injEq] at h
    obtain ⟨rfl, rfl⟩ := h
    simp only [List.length_drop, List.length_cons, bytesPerRow]
    omega

def source : Unfold (UInt16 × List UInt8) Row where
  step := read?
  size s := s.2.length
  size_lt := length_lt_of_read?

/-- The dump of bytes whose first stands at `base`. -/
def rows (bytes : List UInt8) (base : UInt16) : List Row := source.toList (base, bytes)

end SpectrumListing.HexDump
