/-! Registers, register pairs, index registers and branch conditions, with the opcode fields that
select them. A field value of 6 stands for memory at HL and names no register; no field selects the
interrupt vector I and the refresh counter R. -/
namespace SpectrumListing.Z80

inductive Register
  | b | c | d | e | h | l | a | i | r
deriving DecidableEq, Repr

namespace Register

def name : Register → String
  | b => "B" | c => "C" | d => "D" | e => "E" | h => "H" | l => "L" | a => "A" | i => "I" | r => "R"

def ofField? : Fin 8 → Option Register
  | 0 => some b | 1 => some c | 2 => some d | 3 => some e
  | 4 => some h | 5 => some l | 6 => none | 7 => some a

end Register

inductive Pair
  | bc | de | hl | sp | af
deriving DecidableEq, Repr

namespace Pair

def name : Pair → String
  | bc => "BC" | de => "DE" | hl => "HL" | sp => "SP" | af => "AF"

/-- The pair in loads and arithmetic. -/
def ofField : Fin 4 → Pair
  | 0 => bc | 1 => de | 2 => hl | 3 => sp

/-- The pair that is pushed or popped. -/
def ofStackField : Fin 4 → Pair
  | 3 => af
  | p => ofField p

end Pair

inductive IndexRegister
  | ix | iy
deriving DecidableEq, Repr

namespace IndexRegister

def name : IndexRegister → String
  | ix => "IX" | iy => "IY"

def highName (i : IndexRegister) : String := i.name ++ "H"

def lowName (i : IndexRegister) : String := i.name ++ "L"

/-- The byte that makes the next opcode use this register for HL. -/
def prefixByte : IndexRegister → UInt8
  | ix => 0xDD | iy => 0xFD

def ofPrefixByte? (b : UInt8) : Option IndexRegister :=
  if b = 0xDD then some ix else if b = 0xFD then some iy else none

end IndexRegister

inductive Condition
  | nz | z | nc | c | po | pe | p | m
deriving DecidableEq, Repr

namespace Condition

def name : Condition → String
  | nz => "NZ" | z => "Z" | nc => "NC" | c => "C" | po => "PO" | pe => "PE" | p => "P" | m => "M"

def ofField : Fin 8 → Condition
  | 0 => nz | 1 => z | 2 => nc | 3 => c | 4 => po | 5 => pe | 6 => p | 7 => m

end Condition

/-- A byte that selects another opcode table. -/
inductive Prefix
  | bits
  | extended
  | index (i : IndexRegister)
deriving DecidableEq, Repr

namespace Prefix

def byte : Prefix → UInt8
  | bits => 0xCB | extended => 0xED | index i => i.prefixByte

def ofByte? (b : UInt8) : Option Prefix :=
  if b = 0xCB then some bits
  else if b = 0xED then some extended
  else (IndexRegister.ofPrefixByte? b).map index

theorem ofByte?_byte (p : Prefix) : ofByte? p.byte = some p := by
  rcases p with _ | _ | ⟨_ | _⟩ <;> rfl

end Prefix

end SpectrumListing.Z80
