import SpectrumListing.Text.Pieces
import SpectrumListing.Word

/-! Header blocks, which describe the data block after them. A header occupies nineteen bytes: flag
zero, kind, a name of ten characters, three words and the checksum. -/
namespace SpectrumListing.Tape

inductive Kind
  | program | numberArray | characterArray | code
  | unknown (byte : UInt8)
deriving DecidableEq, Repr

namespace Kind

def ofByte (b : UInt8) : Kind :=
  if b = 0 then program
  else if b = 1 then numberArray
  else if b = 2 then characterArray
  else if b = 3 then code
  else unknown b

def toByte : Kind → UInt8
  | program => 0 | numberArray => 1 | characterArray => 2 | code => 3 | unknown byte => byte

def title : Kind → String
  | program => "Program"
  | numberArray => "Number array"
  | characterArray => "Character array"
  | code => "Code"
  | unknown _ => "Unknown"

theorem toByte_ofByte (b : UInt8) : (ofByte b).toByte = b := by
  unfold ofByte
  split
  · simp_all [toByte]
  split
  · simp_all [toByte]
  split
  · simp_all [toByte]
  split <;> simp_all [toByte]

end Kind

/-- What a header says of the data. A program starts at a line, and code is loaded at an address. -/
structure Header where
  kind : Kind
  name : String
  dataLength : UInt16
  start : UInt16
  extra : UInt16
deriving DecidableEq, Repr

namespace Header

def blockSize : Nat := 19

/-- The character of a name byte; bytes beyond ASCII have none of their own. -/
def nameChar (b : UInt8) : Char := if b < 0x80 then Char.ofNat b.toNat else '\uFFFD'

/-- The bytes of a header block that hold the name, filled up with blanks. -/
def nameField (data : List UInt8) : List UInt8 := (data.drop 2).take 10

def nameOfBytes (field : List UInt8) : String := String.ofList (trimEnd (field.map nameChar))

def wordAt (data : List UInt8) (offset : Nat) : UInt16 :=
  wordOfBytes (data.getD offset 0) (data.getD (offset + 1) 0)

def ofBytes? (data : List UInt8) : Option Header :=
  if data.length = blockSize ∧ data.head? = some 0 then
    some {
      kind := Kind.ofByte (data.getD 1 0)
      name := nameOfBytes (nameField data)
      dataLength := wordAt data 12
      start := wordAt data 14
      extra := wordAt data 16 }
  else none

theorem name_eq_of_ofBytes? {data : List UInt8} {h : Header} (parses : ofBytes? data = some h) :
    h.name = nameOfBytes (nameField data) := by
  unfold ofBytes? at parses
  split at parses
  · cases parses
    rfl
  · cases parses

def autoStartLine? (h : Header) : Option UInt16 :=
  if h.kind = .program then some h.start else none

def loadAddress? (h : Header) : Option UInt16 :=
  if h.kind = .code then some h.start else none

end Header

end SpectrumListing.Tape
