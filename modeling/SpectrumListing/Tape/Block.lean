/-! Tape blocks: a flag byte, a payload and a checksum, the exclusive or of all bytes before it. -/
namespace SpectrumListing.Tape

structure Block where
  index : Nat
  data : List UInt8
deriving DecidableEq, Repr

namespace Block

/-- The first byte; zero in an empty block. -/
def flag (b : Block) : UInt8 := b.data.head?.getD 0

/-- The bytes between flag and checksum. A block too short to hold more than these two is all
payload. -/
def payload (b : Block) : List UInt8 :=
  if 2 < b.data.length then (b.data.drop 1).dropLast else b.data

/-- The last byte, unless it is the only one. -/
def checksum? (b : Block) : Option UInt8 :=
  if 2 ≤ b.data.length then b.data.getLast? else none

def computedChecksum (b : Block) : UInt8 := b.data.dropLast.foldl (· ^^^ ·) 0

def mismatch? (b : Block) : Option (UInt8 × UInt8) :=
  match b.checksum? with
  | some stored => if stored = b.computedChecksum then none else some (stored, b.computedChecksum)
  | none => none

/-- A block without checksum is valid. -/
def isValid (b : Block) : Bool := b.mismatch?.isNone

end Block

end SpectrumListing.Tape
