import Mathlib
import SpectrumListing.Proofs.CheckedReading
import SpectrumListing.Proofs.OpcodeSelection

/-!
# Opcode tables on machine words

The opcode tables once more, on fields that are bytes: names are looked up by index, numbers are
computed in eight bits, and field values that no opcode has are faults. What is looked up does not
depend on the operands, so all of it is looked up before any operand is read. Behind an index prefix
there is a table of its own, with a case for each way an opcode can refer to HL. No opcode leads to
a fault, and all of them select what they select from the typed fields.
-/
namespace SpectrumListing.Checked

open Z80

def sub (a b : UInt8) : Except Fault UInt8 := if b ≤ a then .ok (a - b) else .error .overflow

def mul (a b : UInt8) : Except Fault UInt8 :=
  if a.toNat * b.toNat < 2 ^ 8 then .ok (a * b) else .error .overflow

def lookup {α : Type} (table : List α) (i : UInt8) : Except Fault α :=
  match table[i.toNat]? with
  | some a => .ok a
  | none => .error .index

/-- The fields of an opcode, each in a byte. -/
structure ByteFields where
  x : UInt8
  y : UInt8
  z : UInt8
  p : UInt8
  q : UInt8

def ByteFields.ofByte (b : UInt8) : ByteFields :=
  let y := (b >>> 3) &&& 7
  ⟨b >>> 6, y, b &&& 7, y >>> 1, y &&& 1⟩

/-! Of most table indices only the low bits count. -/

def condition (y : UInt8) : Except Fault Condition :=
  lookup (List.ofFn Condition.ofField) (y &&& 7)

def operand (r : UInt8) : Except Fault Operand := lookup (List.ofFn Operand.ofField) (r &&& 7)

def pair (p : UInt8) : Except Fault Pair := lookup (List.ofFn Pair.ofField) (p &&& 3)

def stackPair (p : UInt8) : Except Fault Pair := lookup (List.ofFn Pair.ofStackField) (p &&& 3)

def arithmetic (y : UInt8) (operand : Slot) : Except Fault Pattern :=
  lookup (List.ofFn fun y => Pattern.arithmetic y operand) (y &&& 7)

def rotation (y : UInt8) : Except Fault Operation :=
  lookup (List.ofFn Operation.rotate) (y &&& 7)

/-- Relative jumps, and what shares their column. -/
def relativeJump (y : UInt8) : Except Fault Pattern :=
  match y with
  | 0 => return ⟨.nop, []⟩
  | 1 => return ⟨.ex, [.pair .af, .fixed .alternate]⟩
  | 2 => return ⟨.djnz, [.relative]⟩
  | 3 => return ⟨.jr, [.relative]⟩
  | 4 | 5 | 6 | 7 => return ⟨.jr, [.condition (← condition (← sub y 4)), .relative]⟩
  | _ => throw .unreachable

/-- Loads through a pair or a fixed address. -/
def indirectLoad (q p : UInt8) : Except Fault Pattern :=
  match q, p with
  | 0, 0 => return ⟨.ld, [.atPair .bc, .register .a]⟩
  | 0, 1 => return ⟨.ld, [.atPair .de, .register .a]⟩
  | 0, 2 => return ⟨.ld, [.address, .pair .hl]⟩
  | 0, 3 => return ⟨.ld, [.address, .register .a]⟩
  | 1, 0 => return ⟨.ld, [.register .a, .atPair .bc]⟩
  | 1, 1 => return ⟨.ld, [.register .a, .atPair .de]⟩
  | 1, 2 => return ⟨.ld, [.pair .hl, .address]⟩
  | 1, 3 => return ⟨.ld, [.register .a, .address]⟩
  | _, _ => throw .unreachable

def control (y : UInt8) : Except Fault Pattern :=
  match y with
  | 0 => return ⟨.jp, [.word]⟩
  | 1 => return ⟨.stray .bits, []⟩
  | 2 => return ⟨.output, [.device, .register .a]⟩
  | 3 => return ⟨.input, [.register .a, .device]⟩
  | 4 => return ⟨.ex, [.atPair .sp, .pair .hl]⟩
  | 5 => return .exchange
  | 6 => return ⟨.di, []⟩
  | 7 => return ⟨.ei, []⟩
  | _ => throw .unreachable

/-- An opcode without prefix. -/
def plain (opcode : UInt8) : Except Fault Pattern := do
  let ⟨x, y, z, p, q⟩ := ByteFields.ofByte opcode
  match x, z with
  | 0, 0 => relativeJump y
  | 0, 1 =>
    if q = 0 then return ⟨.ld, [.pair (← pair p), .word]⟩
    else return ⟨.add, [.pair .hl, .pair (← pair p)]⟩
  | 0, 2 => indirectLoad q p
  | 0, 3 => return ⟨if q = 0 then .inc else .dec, [.pair (← pair p)]⟩
  | 0, 4 => return ⟨.inc, [.fixed (← operand y)]⟩
  | 0, 5 => return ⟨.dec, [.fixed (← operand y)]⟩
  | 0, 6 => return ⟨.ld, [.fixed (← operand y), .byte]⟩
  | 0, 7 => return ⟨← lookup (List.ofFn Operation.accumulator) y, []⟩
  | 1, _ =>
    if y = 6 ∧ z = 6 then return ⟨.halt, []⟩
    else return ⟨.ld, [.fixed (← operand y), .fixed (← operand z)]⟩
  | 2, _ => arithmetic y (.fixed (← operand z))
  | 3, 0 => return ⟨.ret, [.condition (← condition y)]⟩
  | 3, 1 =>
    if q = 0 then return ⟨.pop, [.pair (← stackPair p)]⟩
    else
      match p with
      | 0 => return ⟨.ret, []⟩
      | 1 => return ⟨.exx, []⟩
      | 2 => return ⟨.jp, [.atPair .hl]⟩
      | 3 => return ⟨.ld, [.pair .sp, .pair .hl]⟩
      | _ => throw .unreachable
  | 3, 2 => return ⟨.jp, [.condition (← condition y), .word]⟩
  | 3, 3 => control y
  | 3, 4 => return ⟨.call, [.condition (← condition y), .word]⟩
  | 3, 5 =>
    if q = 0 then return ⟨.push, [.pair (← stackPair p)]⟩
    else
      match p with
      | 0 => return ⟨.call, [.word]⟩
      | 1 => return ⟨.stray (.index .ix), []⟩
      | 2 => return ⟨.stray .extended, []⟩
      | 3 => return ⟨.stray (.index .iy), []⟩
      | _ => throw .unreachable
  | 3, 6 => arithmetic y .byte
  | 3, 7 => return ⟨.rst, [.fixed (.byte (← mul y 8))]⟩
  | _, _ => throw .unreachable

/-- An opcode behind CB. -/
def bits (opcode : UInt8) : Except Fault Statement := do
  let ⟨x, y, z, _, _⟩ := ByteFields.ofByte opcode
  let operand ← operand z
  match Operation.bit? x.toNat with
  | some operation => return ⟨operation, [.number y.toNat, operand]⟩
  | none => return ⟨← rotation y, [operand]⟩

/-- The loads of the interrupt and refresh registers, and what shares their column. -/
def special : Fin 8 → Pattern
  | 0 => ⟨.ld, [.register .i, .register .a]⟩
  | 1 => ⟨.ld, [.register .r, .register .a]⟩
  | 2 => ⟨.ld, [.register .a, .register .i]⟩
  | 3 => ⟨.ld, [.register .a, .register .r]⟩
  | 4 => ⟨.rrd, []⟩
  | 5 => ⟨.rld, []⟩
  | 6 | 7 => ⟨.nop, []⟩

/-- An opcode behind ED, if it means anything there. -/
def extended? (opcode : UInt8) : Except Fault (Option Pattern) := do
  let ⟨x, y, z, p, q⟩ := ByteFields.ofByte opcode
  match x, z with
  | 1, 0 =>
    if y = 6 then return some ⟨.input, [.fixed .deviceInC]⟩
    else return some ⟨.input, [.fixed (← operand y), .fixed .deviceInC]⟩
  | 1, 1 =>
    if y = 6 then return some ⟨.output, [.fixed .deviceInC, .fixed (.number 0)]⟩
    else return some ⟨.output, [.fixed .deviceInC, .fixed (← operand y)]⟩
  | 1, 2 => return some ⟨if q = 0 then .sbc else .adc, [.pair .hl, .pair (← pair p)]⟩
  | 1, 3 =>
    if q = 0 then return some ⟨.ld, [.address, .pair (← pair p)]⟩
    else return some ⟨.ld, [.pair (← pair p), .address]⟩
  | 1, 4 => return some ⟨.neg, []⟩
  | 1, 5 => return some ⟨if y = 1 then .reti else .retn, []⟩
  | 1, 6 =>
    return some ⟨.im, [.fixed (.number (← lookup (List.ofFn Pattern.interruptMode) y))]⟩
  | 1, 7 => return some (← lookup (List.ofFn special) y)
  | 2, _ => return (Operation.block? y.toNat z.toNat).map (⟨·, []⟩)
  | _, _ => return none

/-- Whether a register field stands for H, L or memory at HL. -/
def refersToHL (r : UInt8) : Bool := 4 ≤ r && r ≤ 6

/-- The register of a field behind an index prefix. -/
def indexedRegister (i : IndexRegister) (r : UInt8) : Except Fault Operand :=
  match r with
  | 4 => return .high i
  | 5 => return .low i
  | _ => operand r

/-- The register or memory of a field behind an index prefix. -/
def indexedOperand (i : IndexRegister) (r : UInt8) : Except Fault Slot :=
  if r = 6 then return .displaced i else return .fixed (← indexedRegister i r)

/-- A load behind an index prefix; beside memory, H and L keep their meaning. -/
def indexedLoad (i : IndexRegister) (y z : UInt8) : Except Fault Pattern :=
  match y, z with
  | 6, 6 => return ⟨.halt, []⟩
  | 6, _ => return ⟨.ld, [.displaced i, .fixed (← operand z)]⟩
  | _, 6 => return ⟨.ld, [.fixed (← operand y), .displaced i]⟩
  | _, _ => return ⟨.ld, [.fixed (← indexedRegister i y), .fixed (← indexedRegister i z)]⟩

/-- An opcode other than CB behind an index prefix. -/
def indexed (i : IndexRegister) (opcode : UInt8) : Except Fault Pattern := do
  let ⟨x, y, z, p, q⟩ := ByteFields.ofByte opcode
  match x, z with
  | 0, 1 =>
    if q = 0 ∧ p = 2 then return ⟨.ld, [.fixed (.index i), .word]⟩
    else if q = 1 then
      let other ← if p = 2 then pure (.index i) else Operand.pair <$> pair p
      return ⟨.add, [.fixed (.index i), .fixed other]⟩
    else plain opcode
  | 0, 2 =>
    if p = 2 then
      if q = 0 then return ⟨.ld, [.address, .fixed (.index i)]⟩
      else return ⟨.ld, [.fixed (.index i), .address]⟩
    else plain opcode
  | 0, 3 =>
    if p = 2 then return ⟨if q = 0 then .inc else .dec, [.fixed (.index i)]⟩ else plain opcode
  | 0, 4 | 0, 5 =>
    if refersToHL y then return ⟨if z = 4 then .inc else .dec, [← indexedOperand i y]⟩
    else plain opcode
  | 0, 6 =>
    if refersToHL y then return ⟨.ld, [← indexedOperand i y, .byte]⟩ else plain opcode
  | 1, _ => if refersToHL y || refersToHL z then indexedLoad i y z else plain opcode
  | 2, 4 | 2, 5 | 2, 6 => arithmetic y (← indexedOperand i z)
  | 3, _ =>
    match opcode with
    | 0xE1 => return ⟨.pop, [.fixed (.index i)]⟩
    | 0xE3 => return ⟨.ex, [.atPair .sp, .fixed (.index i)]⟩
    | 0xE5 => return ⟨.push, [.fixed (.index i)]⟩
    | 0xE9 => return ⟨.jp, [.fixed (.atIndex i)]⟩
    | 0xF9 => return ⟨.ld, [.pair .sp, .fixed (.index i)]⟩
    | _ => plain opcode
  | _, _ => plain opcode

/-- The register that also receives the result of an operation on indexed memory, if any. -/
def copyTarget (z : UInt8) : Except Fault (List Operand) :=
  if z = 6 then return [] else return [← operand z]

/-- An opcode behind an index prefix, CB and a displacement. -/
def indexedBits (i : IndexRegister) (d opcode : UInt8) : Except Fault Statement := do
  let ⟨x, y, z, _, _⟩ := ByteFields.ofByte opcode
  let memory := Operand.displaced i d
  let copy ← copyTarget z
  match Operation.bit? x.toNat with
  | some .bit => return ⟨.bit, [.number y.toNat, memory]⟩
  | some operation => return ⟨operation, [.number y.toNat, memory] ++ copy⟩
  | none => return ⟨← rotation y, [memory] ++ copy⟩

theorem plain_eq (op : UInt8) : plain op = .ok (Pattern.plain op) := by
  revert op
  decide +kernel

theorem bits_eq (op : UInt8) : bits op = .ok (Statement.bits op) := by
  revert op
  decide +kernel

theorem extended?_eq (op : UInt8) : extended? op = .ok (Pattern.extended? op) := by
  revert op
  decide +kernel

theorem indexed_eq (i : IndexRegister) (op : UInt8) :
    indexed i op = .ok ((Pattern.plain op).indexed i) := by
  revert i op
  decide +kernel

theorem byteFields_eq (op : UInt8) :
    let f := Fields.ofByte op
    let b := ByteFields.ofByte op
    b.x.toNat = f.x.val ∧ b.y.toNat = f.y.val ∧ rotation b.y = .ok (Operation.rotate f.y) ∧
      copyTarget b.z = .ok ((Register.ofField? f.z).map Operand.register).toList := by
  revert op
  decide +kernel

theorem indexedBits_eq (i : IndexRegister) (d op : UInt8) :
    indexedBits i d op = .ok (Statement.indexedBits i d op) := by
  obtain ⟨hx, hy, hrotation, hcopy⟩ := byteFields_eq op
  simp only [indexedBits, Statement.indexedBits, Statement.bitwise, hx, hy, hrotation, hcopy]
  generalize (Fields.ofByte op).x = x
  cases Register.ofField? (Fields.ofByte op).z <;> fin_cases x <;> rfl

end SpectrumListing.Checked
