import SpectrumListing.Z80.Statement

/-! The octal fields of an opcode byte, where `ofByte` and `toByte` are inverse to each other, and
the names that fields stand for, looked up by a code byte. Where every field value has a name, only
the low bits of the code count. -/
namespace SpectrumListing.Z80

/-- The lowest two bits of a number. -/
def lowTwo (n : Nat) : Fin 4 := Fin.ofNat 4 n

/-- The lowest three bits of a number. -/
def lowThree (n : Nat) : Fin 8 := Fin.ofNat 8 n

/-- Bits 6-7, bits 3-5 and bits 0-2 of an opcode. -/
structure Fields where
  x : Fin 4
  y : Fin 8
  z : Fin 8
deriving DecidableEq, Repr

namespace Fields

def ofByte (b : UInt8) : Fields :=
  ⟨lowTwo (b.toNat / 64), lowThree (b.toNat / 8), lowThree b.toNat⟩

/-- The upper two bits of `y`. -/
def p (f : Fields) : Fin 4 := lowTwo (f.y.val / 2)

/-- The lowest bit of `y`. -/
def q (f : Fields) : Fin 2 := Fin.ofNat 2 f.y.val

def toByte (f : Fields) : UInt8 := UInt8.ofNat (64 * f.x.val + 8 * f.y.val + f.z.val)

theorem toByte_ofByte (b : UInt8) : (ofByte b).toByte = b := by
  apply UInt8.toNat_inj.mp
  have := b.toNat_lt
  simp [toByte, ofByte, lowTwo, lowThree]
  omega

theorem ofByte_toByte (f : Fields) : ofByte f.toByte = f := by
  obtain ⟨x, y, z⟩ := f
  have := x.isLt
  have := y.isLt
  have := z.isLt
  simp [toByte, ofByte, lowTwo, lowThree, Fin.ext_iff]
  omega

end Fields

namespace NameTable

def condition (code : UInt8) : String := (Condition.ofField (lowThree code.toNat)).name

/-- The 8-bit operands; one of them is memory at HL. -/
def register (code : UInt8) : String := (Operand.ofField (lowThree code.toNat)).text

def pair (code : UInt8) : String := (Pair.ofField (lowTwo code.toNat)).name

def stackPair (code : UInt8) : String := (Pair.ofStackField (lowTwo code.toNat)).name

def arithmetic (code : UInt8) : String := (Operation.arithmetic (lowThree code.toNat)).heading

def rotate (code : UInt8) : String := (Operation.rotate (lowThree code.toNat)).name

def bit? (code : UInt8) : Option String := (Operation.bit? code.toNat).map Operation.name

def block? (y z : UInt8) : Option String := (Operation.block? y.toNat z.toNat).map Operation.name

end NameTable

end SpectrumListing.Z80
