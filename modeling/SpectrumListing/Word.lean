/-! Little-endian words and signed bytes. Addresses are words and wrap at 65536. -/
namespace SpectrumListing

/-- The word stored as a low byte followed by a high byte. -/
def wordOfBytes (low high : UInt8) : UInt16 := UInt16.ofNat (low.toNat + 256 * high.toNat)

def lowByte (w : UInt16) : UInt8 := UInt8.ofNat w.toNat

def highByte (w : UInt16) : UInt8 := UInt8.ofNat (w.toNat / 256)

/-- A byte read as a number from -128 to 127. -/
def signedByte (b : UInt8) : Int := Int.bmod b.toNat 256

/-- The word that adds a signed byte to an address. -/
def signExtend (b : UInt8) : UInt16 :=
  if b < 0x80 then UInt16.ofNat b.toNat else UInt16.ofNat (b.toNat + 0xFF00)

theorem lowByte_wordOfBytes (low high : UInt8) : lowByte (wordOfBytes low high) = low := by
  apply UInt8.toNat_inj.mp
  have := low.toNat_lt
  have := high.toNat_lt
  simp [lowByte, wordOfBytes]

theorem highByte_wordOfBytes (low high : UInt8) : highByte (wordOfBytes low high) = high := by
  apply UInt8.toNat_inj.mp
  have := low.toNat_lt
  have := high.toNat_lt
  simp [highByte, wordOfBytes]
  omega

theorem wordOfBytes_lowByte_highByte (w : UInt16) : wordOfBytes (lowByte w) (highByte w) = w := by
  apply UInt16.toNat_inj.mp
  have := w.toNat_lt
  simp [lowByte, highByte, wordOfBytes]
  omega

end SpectrumListing
