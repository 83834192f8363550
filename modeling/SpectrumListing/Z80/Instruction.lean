import SpectrumListing.Notice
import SpectrumListing.Z80.Statement

/-! Decoded instructions: where they stand, the bytes they occupy and what these mean. Bytes that
make no statement are listed as data. -/
namespace SpectrumListing.Z80

/-- What the bytes of an instruction mean: a statement, or nothing behind ED, or nothing because the
input ended inside the instruction or before it. -/
inductive Reading
  | statement (s : Statement)
  | undefined (opcode : UInt8)
  | truncated
  | finished
deriving DecidableEq, Repr

structure Instruction where
  address : UInt16
  bytes : List UInt8
  reading : Reading
deriving DecidableEq, Repr

def dataText (bytes : List UInt8) : String :=
  "DB " ++ ", ".intercalate (bytes.map fun b => (Operand.byte b).text)

namespace Instruction

def size (i : Instruction) : Nat := i.bytes.length

/-- Whether this marks the end of the input. -/
def isEnd (i : Instruction) : Bool := i.bytes.isEmpty

/-- Bytes without a statement are listed as data. Of an undefined pair the opcode has been kept, and
the byte before it is known. -/
def mnemonic (i : Instruction) : String :=
  match i.reading with
  | .statement s => s.text
  | .undefined opcode => dataText [Prefix.extended.byte, opcode]
  | .truncated => dataText i.bytes
  | .finished => "END"

/-- The address, the bytes in a column of sixteen characters, and the mnemonic. -/
def line (i : Instruction) : String :=
  Hex.word i.address ++ ": " ++ padRight 16 (Hex.bytes i.bytes) ++ " " ++ i.mnemonic

/-- The remark on an instruction that is listed as data. -/
def remark? (i : Instruction) : Option Notice :=
  match i.reading with
  | .undefined opcode => some (.undefinedOpcode opcode)
  | .truncated => some (.truncated i.address i.size)
  | .statement _ | .finished => none

/-- What is reported for an instruction met in passing over a buffer. -/
def notices (i : Instruction) : List Notice :=
  i.remark?.toList ++ [.decoded i.address i.bytes i.mnemonic]

end Instruction

end SpectrumListing.Z80
