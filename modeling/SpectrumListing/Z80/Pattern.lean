import SpectrumListing.Z80.Statement

/-! Patterns: statements whose operands are partly still to be read from the bytes that follow the
opcode. A word is read whole or not at all. -/
namespace SpectrumListing.Z80

/-- An operand of a pattern: known from the opcode, or read from the input. A relative jump target
is stored as a signed distance from the byte after it. -/
inductive Slot
  | fixed (o : Operand)
  | byte
  | word
  | address
  | device
  | relative
  | displaced (i : IndexRegister)
deriving DecidableEq, Repr

namespace Slot

/-- The number of bytes the operand occupies in the input. -/
def width : Slot → Nat
  | fixed _ => 0
  | byte | device | relative | displaced _ => 1
  | word | address => 2

/-- The operand at the front of the input, whose first byte stands at address `here`. -/
def read? (here : UInt16) : Slot → List UInt8 → Option Operand
  | fixed o, _ => some o
  | byte, n :: _ => some (.byte n)
  | device, n :: _ => some (.device n)
  | relative, d :: _ => some (.word (here + 1 + signExtend d))
  | displaced i, d :: _ => some (.displaced i d)
  | word, low :: high :: _ => some (.word (wordOfBytes low high))
  | address, low :: high :: _ => some (.address (wordOfBytes low high))
  | _, _ => none

/-- Reads operands from left to right. The result has the operands and the number of bytes they
took, or, when the input runs out, the number of bytes taken until then. -/
def readAll (here : UInt16) : List Slot → List UInt8 → Except Nat (List Operand × Nat)
  | [], _ => .ok ([], 0)
  | s :: slots, input =>
    match s.read? here input with
    | none => .error 0
    | some o =>
      match readAll (here + UInt16.ofNat s.width) slots (input.drop s.width) with
      | .error taken => .error (s.width + taken)
      | .ok (operands, taken) => .ok (o :: operands, s.width + taken)

def register (reg : Register) : Slot := fixed (.register reg)

def pair (p : Pair) : Slot := fixed (.pair p)

def atPair (p : Pair) : Slot := fixed (.atPair p)

def condition (test : Condition) : Slot := fixed (.condition test)

/-- The 8-bit operand that a register field selects. -/
def ofField (r : Fin 8) : Slot := fixed (Operand.ofField r)

end Slot

structure Pattern where
  operation : Operation
  slots : List Slot
deriving DecidableEq, Repr

namespace Pattern

def ofStatement (s : Statement) : Pattern := ⟨s.operation, s.operands.map Slot.fixed⟩

/-- The statement that the pattern makes of the input at address `here`, with the number of bytes
taken, or the number taken before the input ran out. -/
def read (here : UInt16) (p : Pattern) (input : List UInt8) : Except Nat (Statement × Nat) :=
  (Slot.readAll here p.slots input).map fun (operands, taken) => (⟨p.operation, operands⟩, taken)

/-- The exchange of DE with HL, which no index prefix changes. -/
def exchange : Pattern := ⟨.ex, [.pair .de, .pair .hl]⟩

/-- The pattern behind an index prefix. Memory at HL becomes memory at the index register plus a
displacement, and then H and L keep their meaning; elsewhere the index register and its halves take
the place of HL, H and L. A jump through HL takes no displacement. -/
def indexed (i : IndexRegister) (p : Pattern) : Pattern :=
  if p = exchange then p
  else if p.operation ≠ .jp ∧ Slot.atPair .hl ∈ p.slots then
    ⟨p.operation, p.slots.map fun s => if s = Slot.atPair .hl then .displaced i else s⟩
  else
    ⟨p.operation, p.slots.map fun
      | .fixed o => .fixed (o.indexed i)
      | s => s⟩

end Pattern

end SpectrumListing.Z80
