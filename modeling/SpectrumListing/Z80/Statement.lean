import SpectrumListing.Word
import SpectrumListing.Z80.Operation

/-! Operands and statements, and the text they are listed with. What stands in brackets is memory,
the target of a jump through a register, or a device. A plain number is that of a bit or an
interrupt mode, or a zero that is written out. -/
namespace SpectrumListing.Z80

inductive Operand
  | register (reg : Register)
  | high (i : IndexRegister)
  | low (i : IndexRegister)
  | pair (p : Pair)
  | alternate
  | index (i : IndexRegister)
  | atPair (p : Pair)
  | atIndex (i : IndexRegister)
  | displaced (i : IndexRegister) (d : UInt8)
  | byte (n : UInt8)
  | word (n : UInt16)
  | address (a : UInt16)
  | device (n : UInt8)
  | deviceInC
  | condition (test : Condition)
  | number (n : Nat)
deriving DecidableEq, Repr

namespace Operand

def ofField (r : Fin 8) : Operand :=
  match Register.ofField? r with
  | some reg => .register reg
  | none => .atPair .hl

/-- The sign and magnitude of a displacement byte. -/
def displacementText (d : UInt8) : String :=
  if d < 0x80 then "+0x" ++ Hex.byte d else "-0x" ++ Hex.byte (0 - d)

def text : Operand → String
  | register reg => reg.name
  | high i => i.highName
  | low i => i.lowName
  | pair p => p.name
  | alternate => "AF'"
  | index i => i.name
  | atPair p => "(" ++ p.name ++ ")"
  | atIndex i => "(" ++ i.name ++ ")"
  | displaced i d => "(" ++ i.name ++ displacementText d ++ ")"
  | byte n => "0x" ++ Hex.byte n
  | word n => "0x" ++ Hex.word n
  | address a => "(0x" ++ Hex.word a ++ ")"
  | device n => "(0x" ++ Hex.byte n ++ ")"
  | deviceInC => "(C)"
  | condition test => test.name
  | number n => toString n

/-- What an index prefix makes of an operand that takes no displacement. -/
def indexed (i : IndexRegister) : Operand → Operand
  | register .h => high i
  | register .l => low i
  | pair .hl => index i
  | atPair .hl => atIndex i
  | o => o

end Operand

structure Statement where
  operation : Operation
  operands : List Operand
deriving DecidableEq, Repr

def Statement.text (s : Statement) : String :=
  match s.operands with
  | [] => s.operation.name
  | operands => s.operation.name ++ " " ++ ", ".intercalate (operands.map Operand.text)

end SpectrumListing.Z80
