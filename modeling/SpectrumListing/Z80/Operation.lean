import SpectrumListing.Text.Hex
import SpectrumListing.Z80.Register

/-! The operations of the processor, their names, and the families that opcode fields select. A byte
that selects a table is stray where an index prefix expects an opcode. -/
namespace SpectrumListing.Z80

inductive Operation
  | nop | halt | di | ei | im | ex | exx | neg | daa | cpl | scf | ccf
  | ld | push | pop | inc | dec
  | add | adc | sub | sbc | and | xor | or | cp
  | rlca | rrca | rla | rra | rld | rrd
  | rlc | rrc | rl | rr | sla | sra | sll | srl
  | bit | res | set
  | jp | jr | djnz | call | ret | reti | retn | rst
  | input | output
  | ldi | cpi | ini | outi | ldd | cpd | ind | outd
  | ldir | cpir | inir | otir | lddr | cpdr | indr | otdr
  | stray (p : Prefix)
deriving DecidableEq, Repr

namespace Operation

def name : Operation → String
  | nop => "NOP" | halt => "HALT" | di => "DI" | ei => "EI" | im => "IM" | ex => "EX" | exx => "EXX"
  | neg => "NEG" | daa => "DAA" | cpl => "CPL" | scf => "SCF" | ccf => "CCF"
  | ld => "LD" | push => "PUSH" | pop => "POP" | inc => "INC" | dec => "DEC"
  | add => "ADD" | adc => "ADC" | sub => "SUB" | sbc => "SBC"
  | and => "AND" | xor => "XOR" | or => "OR" | cp => "CP"
  | rlca => "RLCA" | rrca => "RRCA" | rla => "RLA" | rra => "RRA" | rld => "RLD" | rrd => "RRD"
  | rlc => "RLC" | rrc => "RRC" | rl => "RL" | rr => "RR"
  | sla => "SLA" | sra => "SRA" | sll => "SLL" | srl => "SRL"
  | bit => "BIT" | res => "RES" | set => "SET"
  | jp => "JP" | jr => "JR" | djnz => "DJNZ" | call => "CALL"
  | ret => "RET" | reti => "RETI" | retn => "RETN" | rst => "RST"
  | input => "IN" | output => "OUT"
  | ldi => "LDI" | cpi => "CPI" | ini => "INI" | outi => "OUTI"
  | ldd => "LDD" | cpd => "CPD" | ind => "IND" | outd => "OUTD"
  | ldir => "LDIR" | cpir => "CPIR" | inir => "INIR" | otir => "OTIR"
  | lddr => "LDDR" | cpdr => "CPDR" | indr => "INDR" | otdr => "OTDR"
  | stray p => Hex.byte p.byte ++ " PREFIX"

/-- The operations on the accumulator and an 8-bit operand. -/
def arithmetic : Fin 8 → Operation
  | 0 => add | 1 => adc | 2 => sub | 3 => sbc | 4 => and | 5 => xor | 6 => or | 7 => cp

/-- Some operations name the accumulator before their operand, the others leave it out. -/
def namesAccumulator : Operation → Bool
  | add | adc | sbc => true
  | _ => false

/-- The text before the operand of an `arithmetic` operation. -/
def heading (o : Operation) : String :=
  if o.namesAccumulator then o.name ++ " A," else o.name

/-- The operations that work on the accumulator or the flags alone. -/
def accumulator : Fin 8 → Operation
  | 0 => rlca | 1 => rrca | 2 => rla | 3 => rra | 4 => daa | 5 => cpl | 6 => scf | 7 => ccf

def rotate : Fin 8 → Operation
  | 0 => rlc | 1 => rrc | 2 => rl | 3 => rr | 4 => sla | 5 => sra | 6 => sll | 7 => srl

/-- The single-bit operations, by the field `x`. -/
def bit? : Nat → Option Operation
  | 1 => some bit | 2 => some res | 3 => some set | _ => none

/-- The block operations, by the fields `y` and `z`. -/
def block? : Nat → Nat → Option Operation
  | 4, 0 => some ldi | 4, 1 => some cpi | 4, 2 => some ini | 4, 3 => some outi
  | 5, 0 => some ldd | 5, 1 => some cpd | 5, 2 => some ind | 5, 3 => some outd
  | 6, 0 => some ldir | 6, 1 => some cpir | 6, 2 => some inir | 6, 3 => some otir
  | 7, 0 => some lddr | 7, 1 => some cpdr | 7, 2 => some indr | 7, 3 => some otdr
  | _, _ => none

end Operation

end SpectrumListing.Z80
