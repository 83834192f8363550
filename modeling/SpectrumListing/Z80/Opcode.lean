import SpectrumListing.Z80.Fields
import SpectrumListing.Z80.Pattern

/-! The opcode tables: opcodes on their own, behind CB, behind ED, and behind an index prefix
together with CB. The index prefixes alone have no table; `Pattern.indexed` derives it. -/
namespace SpectrumListing.Z80

namespace Pattern

/-- An operation between the accumulator and one more operand. -/
def arithmetic (y : Fin 8) (operand : Slot) : Pattern :=
  let operation := Operation.arithmetic y
  if operation.namesAccumulator then ⟨operation, [.register .a, operand]⟩
  else ⟨operation, [operand]⟩

/-- Opcodes 00 to 3F. -/
def firstQuarter (f : Fields) : Pattern :=
  match f.z with
  | 0 =>
    match f.y with
    | 0 => ⟨.nop, []⟩
    | 1 => ⟨.ex, [.pair .af, .fixed .alternate]⟩
    | 2 => ⟨.djnz, [.relative]⟩
    | 3 => ⟨.jr, [.relative]⟩
    | 4 => ⟨.jr, [.condition .nz, .relative]⟩
    | 5 => ⟨.jr, [.condition .z, .relative]⟩
    | 6 => ⟨.jr, [.condition .nc, .relative]⟩
    | 7 => ⟨.jr, [.condition .c, .relative]⟩
  | 1 =>
    match f.q with
    | 0 => ⟨.ld, [.pair (Pair.ofField f.p), .word]⟩
    | 1 => ⟨.add, [.pair .hl, .pair (Pair.ofField f.p)]⟩
  | 2 =>
    match f.q, f.p with
    | 0, 0 => ⟨.ld, [.atPair .bc, .register .a]⟩
    | 0, 1 => ⟨.ld, [.atPair .de, .register .a]⟩
    | 0, 2 => ⟨.ld, [.address, .pair .hl]⟩
    | 0, 3 => ⟨.ld, [.address, .register .a]⟩
    | 1, 0 => ⟨.ld, [.register .a, .atPair .bc]⟩
    | 1, 1 => ⟨.ld, [.register .a, .atPair .de]⟩
    | 1, 2 => ⟨.ld, [.pair .hl, .address]⟩
    | 1, 3 => ⟨.ld, [.register .a, .address]⟩
  | 3 =>
    match f.q with
    | 0 => ⟨.inc, [.pair (Pair.ofField f.p)]⟩
    | 1 => ⟨.dec, [.pair (Pair.ofField f.p)]⟩
  | 4 => ⟨.inc, [.ofField f.y]⟩
  | 5 => ⟨.dec, [.ofField f.y]⟩
  | 6 => ⟨.ld, [.ofField f.y, .byte]⟩
  | 7 => ⟨Operation.accumulator f.y, []⟩

/-- Opcodes 40 to 7F. The place of a load from memory to memory belongs to HALT. -/
def secondQuarter (f : Fields) : Pattern :=
  match f.y, f.z with
  | 6, 6 => ⟨.halt, []⟩
  | y, z => ⟨.ld, [.ofField y, .ofField z]⟩

/-- Opcodes C0 to FF. -/
def fourthQuarter (f : Fields) : Pattern :=
  match f.z with
  | 0 => ⟨.ret, [.condition (Condition.ofField f.y)]⟩
  | 1 =>
    match f.q, f.p with
    | 0, p => ⟨.pop, [.pair (Pair.ofStackField p)]⟩
    | 1, 0 => ⟨.ret, []⟩
    | 1, 1 => ⟨.exx, []⟩
    | 1, 2 => ⟨.jp, [.atPair .hl]⟩
    | 1, 3 => ⟨.ld, [.pair .sp, .pair .hl]⟩
  | 2 => ⟨.jp, [.condition (Condition.ofField f.y), .word]⟩
  | 3 =>
    match f.y with
    | 0 => ⟨.jp, [.word]⟩
    | 1 => ⟨.stray .bits, []⟩
    | 2 => ⟨.output, [.device, .register .a]⟩
    | 3 => ⟨.input, [.register .a, .device]⟩
    | 4 => ⟨.ex, [.atPair .sp, .pair .hl]⟩
    | 5 => exchange
    | 6 => ⟨.di, []⟩
    | 7 => ⟨.ei, []⟩
  | 4 => ⟨.call, [.condition (Condition.ofField f.y), .word]⟩
  | 5 =>
    match f.q, f.p with
    | 0, p => ⟨.push, [.pair (Pair.ofStackField p)]⟩
    | 1, 0 => ⟨.call, [.word]⟩
    | 1, 1 => ⟨.stray (.index .ix), []⟩
    | 1, 2 => ⟨.stray .extended, []⟩
    | 1, 3 => ⟨.stray (.index .iy), []⟩
  | 6 => arithmetic f.y .byte
  | 7 => ⟨.rst, [.fixed (.byte (UInt8.ofNat (8 * f.y.val)))]⟩

/-- An opcode without prefix. -/
def plain (opcode : UInt8) : Pattern :=
  let f := Fields.ofByte opcode
  match f.x with
  | 0 => firstQuarter f
  | 1 => secondQuarter f
  | 2 => arithmetic f.y (.ofField f.z)
  | 3 => fourthQuarter f

/-- The interrupt mode that an IM opcode sets. -/
def interruptMode : Fin 8 → Nat
  | 0 => 0 | 1 => 0 | 2 => 1 | 3 => 2 | 4 => 0 | 5 => 0 | 6 => 1 | 7 => 2

/-- An opcode behind ED; most of the table is empty. -/
def extended? (opcode : UInt8) : Option Pattern :=
  let f := Fields.ofByte opcode
  match f.x with
  | 1 => some <|
    match f.z with
    | 0 =>
      match Register.ofField? f.y with
      | some reg => ⟨.input, [.register reg, .fixed .deviceInC]⟩
      | none => ⟨.input, [.fixed .deviceInC]⟩
    | 1 =>
      match Register.ofField? f.y with
      | some reg => ⟨.output, [.fixed .deviceInC, .register reg]⟩
      | none => ⟨.output, [.fixed .deviceInC, .fixed (.number 0)]⟩
    | 2 =>
      match f.q with
      | 0 => ⟨.sbc, [.pair .hl, .pair (Pair.ofField f.p)]⟩
      | 1 => ⟨.adc, [.pair .hl, .pair (Pair.ofField f.p)]⟩
    | 3 =>
      match f.q with
      | 0 => ⟨.ld, [.address, .pair (Pair.ofField f.p)]⟩
      | 1 => ⟨.ld, [.pair (Pair.ofField f.p), .address]⟩
    | 4 => ⟨.neg, []⟩
    | 5 =>
      match f.y with
      | 1 => ⟨.reti, []⟩
      | _ => ⟨.retn, []⟩
    | 6 => ⟨.im, [.fixed (.number (interruptMode f.y))]⟩
    | 7 =>
      match f.y with
      | 0 => ⟨.ld, [.register .i, .register .a]⟩
      | 1 => ⟨.ld, [.register .r, .register .a]⟩
      | 2 => ⟨.ld, [.register .a, .register .i]⟩
      | 3 => ⟨.ld, [.register .a, .register .r]⟩
      | 4 => ⟨.rrd, []⟩
      | 5 => ⟨.rld, []⟩
      | 6 | 7 => ⟨.nop, []⟩
  | 2 => (Operation.block? f.y.val f.z.val).map (⟨·, []⟩)
  | 0 | 3 => none

end Pattern

namespace Statement

/-- The bit operation or rotation that `f` selects, applied to an operand. -/
def bitwise (f : Fields) (operand : Operand) : Statement :=
  match Operation.bit? f.x.val with
  | some operation => ⟨operation, [.number f.y.val, operand]⟩
  | none => ⟨Operation.rotate f.y, [operand]⟩

/-- An opcode behind CB. -/
def bits (opcode : UInt8) : Statement :=
  let f := Fields.ofByte opcode
  bitwise f (Operand.ofField f.z)

/-- An opcode behind an index prefix, CB and a displacement. It works on memory, and except for BIT
the result also goes to the register that the opcode names. -/
def indexedBits (i : IndexRegister) (d opcode : UInt8) : Statement :=
  let f := Fields.ofByte opcode
  let s := bitwise f (.displaced i d)
  match f.x, Register.ofField? f.z with
  | 1, _ | _, none => s
  | _, some reg => ⟨s.operation, s.operands ++ [.register reg]⟩

end Statement

end SpectrumListing.Z80
