import Mathlib
import SpectrumListing.Proofs.Spelling

/-!
# Assembling

An assembler for the mnemonics of a listing. The operands of a statement are reduced to an outline
that keeps their kinds and forgets the numbers in them, the outline determines the opcode, and the
numbers are written behind it. Among the encodings of a statement the assembler takes the plain one.
-/
namespace SpectrumListing.Z80

def indexIn? {α : Type} [DecidableEq α] {n : ℕ} (table : Fin n → α) (a : α) : Option ℕ :=
  ((List.finRange n).find? fun k => table k = a).map Fin.val

namespace Operand

/-- What is left of an operand without the numbers in it. -/
def outline : Operand → Slot
  | byte _ => .byte
  | word _ => .word
  | address _ => .address
  | device _ => .device
  | displaced i _ => .displaced i
  | condition .c => .register .c
  | o => .fixed o

/-- The bytes that hold the number of an operand. -/
def bytes : Operand → List UInt8
  | byte n | device n | displaced _ n => [n]
  | word w | address w => [lowByte w, highByte w]
  | _ => []

/-- The byte that holds a jump target as a distance from the address `next`. -/
def distance (next : UInt16) : Operand → List UInt8
  | word target => [lowByte (target - next)]
  | _ => []

def restart? : Operand → Option (List UInt8)
  | byte n => some [0xC7 + n]
  | _ => none

end Operand

namespace Slot

def outline : Slot → Slot
  | fixed o => o.outline
  | relative => word
  | s => s

def field? (s : Slot) : Option ℕ := indexIn? ofField s

def pairField? (s : Slot) : Option ℕ := indexIn? (fun k => pair (Pair.ofField k)) s

def stackField? (s : Slot) : Option ℕ := indexIn? (fun k => pair (Pair.ofStackField k)) s

def conditionField? (s : Slot) : Option ℕ :=
  indexIn? (fun k => (condition (Condition.ofField k)).outline) s

def index? : Slot → Option IndexRegister
  | displaced i | fixed (.high i) | fixed (.low i) | fixed (.index i) | fixed (.atIndex i) => some i
  | _ => none

/-- The slot with HL in the place of an index register. -/
def bare : Slot → Slot
  | displaced _ | fixed (.atIndex _) => atPair .hl
  | fixed (.high _) => register .h
  | fixed (.low _) => register .l
  | fixed (.index _) => pair .hl
  | s => s

end Slot

namespace Pattern

def outline (p : Pattern) : Pattern := ⟨p.operation, p.slots.map Slot.outline⟩

def loadOpcode? : Slot → Slot → Option ℕ
  | .fixed (.pair .sp), .fixed (.pair .hl) => some 0xF9
  | .fixed (.atPair .bc), .fixed (.register .a) => some 0x02
  | .fixed (.register .a), .fixed (.atPair .bc) => some 0x0A
  | .fixed (.atPair .de), .fixed (.register .a) => some 0x12
  | .fixed (.register .a), .fixed (.atPair .de) => some 0x1A
  | .address, .fixed (.pair .hl) => some 0x22
  | .fixed (.pair .hl), .address => some 0x2A
  | .address, .fixed (.register .a) => some 0x32
  | .fixed (.register .a), .address => some 0x3A
  | target, .word => target.pairField?.map (0x01 + 16 * ·)
  | target, .byte => target.field?.map (0x06 + 8 * ·)
  | target, source => do return 0x40 + 8 * (← target.field?) + (← source.field?)

def arithmeticOpcode? (o : Operation) (s : Slot) : Option ℕ := do
  let y ← indexIn? Operation.arithmetic o
  if s = .byte then return 0xC6 + 8 * y else return 0x80 + 8 * y + (← s.field?)

/-- The opcode without prefix for the outline of a statement. -/
def plainOpcode? (p : Pattern) : Option ℕ :=
  match p.operation, p.slots with
  | .nop, [] => some 0x00
  | .halt, [] => some 0x76
  | .ret, [] => some 0xC9
  | .exx, [] => some 0xD9
  | .di, [] => some 0xF3
  | .ei, [] => some 0xFB
  | .ex, [.fixed (.pair .af), .fixed .alternate] => some 0x08
  | .ex, [.fixed (.atPair .sp), .fixed (.pair .hl)] => some 0xE3
  | .ex, [.fixed (.pair .de), .fixed (.pair .hl)] => some 0xEB
  | .ld, [target, source] => loadOpcode? target source
  | .push, [s] => s.stackField?.map (0xC5 + 16 * ·)
  | .pop, [s] => s.stackField?.map (0xC1 + 16 * ·)
  | .inc, [s] => s.pairField?.map (0x03 + 16 * ·) <|> s.field?.map (0x04 + 8 * ·)
  | .dec, [s] => s.pairField?.map (0x0B + 16 * ·) <|> s.field?.map (0x05 + 8 * ·)
  | .djnz, [.word] => some 0x10
  | .jr, [.word] => some 0x18
  | .jr, [test, .word] => test.conditionField?.map (0x20 + 8 * ·)
  | .jp, [.fixed (.atPair .hl)] => some 0xE9
  | .jp, [.word] => some 0xC3
  | .jp, [test, .word] => test.conditionField?.map (0xC2 + 8 * ·)
  | .call, [.word] => some 0xCD
  | .call, [test, .word] => test.conditionField?.map (0xC4 + 8 * ·)
  | .ret, [test] => test.conditionField?.map (0xC0 + 8 * ·)
  | .output, [.device, .fixed (.register .a)] => some 0xD3
  | .input, [.fixed (.register .a), .device] => some 0xDB
  | .add, [.fixed (.pair .hl), s] => s.pairField?.map (0x09 + 16 * ·)
  | o, [] => (indexIn? Operation.accumulator o).map (0x07 + 8 * ·)
  | o, [s] => if o.namesAccumulator then none else arithmeticOpcode? o s
  | o, [.fixed (.register .a), s] => if o.namesAccumulator then arithmeticOpcode? o s else none
  | _, _ => none

def bitsOpcode? (p : Pattern) : Option ℕ :=
  match p.slots with
  | [.fixed (.number y), s] => do
    return 64 * (← indexIn? (fun x : Fin 4 => Operation.bit? x.val) (some p.operation)) + 8 * y +
      (← s.field?)
  | [s] => do return 8 * (← indexIn? Operation.rotate p.operation) + (← s.field?)
  | _ => none

/-- The opcode behind an index prefix, CB and a displacement. A register behind the memory operand
takes its place in the opcode. -/
def indexBitsOpcode? (p : Pattern) : Option ℕ :=
  bitsOpcode? ⟨p.operation, p.slots.filter fun s => s.index? = none⟩ <|>
    bitsOpcode? ⟨p.operation, p.slots.map Slot.bare⟩

def extendedOpcode? (p : Pattern) : Option ℕ :=
  match p.operation, p.slots with
  | .input, [.fixed .deviceInC] => some 0x70
  | .input, [s, .fixed .deviceInC] => s.field?.map (0x40 + 8 * ·)
  | .output, [.fixed .deviceInC, .fixed (.number 0)] => some 0x71
  | .output, [.fixed .deviceInC, s] => s.field?.map (0x41 + 8 * ·)
  | .sbc, [.fixed (.pair .hl), s] => s.pairField?.map (0x42 + 16 * ·)
  | .adc, [.fixed (.pair .hl), s] => s.pairField?.map (0x4A + 16 * ·)
  | .ld, [.address, s] => s.pairField?.map (0x43 + 16 * ·)
  | .ld, [s, .address] => s.pairField?.map (0x4B + 16 * ·)
  | .ld, [.fixed (.register .i), .fixed (.register .a)] => some 0x47
  | .ld, [.fixed (.register .r), .fixed (.register .a)] => some 0x4F
  | .ld, [.fixed (.register .a), .fixed (.register .i)] => some 0x57
  | .ld, [.fixed (.register .a), .fixed (.register .r)] => some 0x5F
  | .neg, [] => some 0x44
  | .retn, [] => some 0x45
  | .reti, [] => some 0x4D
  | .im, [.fixed (.number 0)] => some 0x46
  | .im, [.fixed (.number 1)] => some 0x56
  | .im, [.fixed (.number 2)] => some 0x5E
  | .rrd, [] => some 0x67
  | .rld, [] => some 0x6F
  | o, [] =>
    (indexIn? (fun k : Fin 16 => Operation.block? (4 + k.val / 4) (k.val % 4)) (some o)).map
      fun k => 0xA0 + 8 * (k / 4) + k % 4
  | _, _ => none

end Pattern

/-- The opcode bytes of an instruction. -/
inductive Head
  | plain (op : UInt8)
  | bits (op : UInt8)
  | extended (op : UInt8)
  | index (i : IndexRegister) (op : UInt8)
  | indexBits (i : IndexRegister) (op : UInt8)
deriving DecidableEq, Repr

def Head.assemble (payload : List UInt8) : Head → List UInt8
  | plain op => op :: payload
  | bits op => Prefix.bits.byte :: op :: payload
  | extended op => Prefix.extended.byte :: op :: payload
  | index i op => i.prefixByte :: op :: payload
  | indexBits i op => i.prefixByte :: Prefix.bits.byte :: (payload ++ [op])

def Pattern.head? (p : Pattern) : Option Head :=
  match p.slots.findSome? Slot.index? with
  | some i =>
    p.indexBitsOpcode?.map (fun op => .indexBits i (UInt8.ofNat op)) <|>
      (plainOpcode? ⟨p.operation, p.slots.map Slot.bare⟩).map fun op => .index i (UInt8.ofNat op)
  | none =>
    p.bitsOpcode?.map (fun op => .bits (UInt8.ofNat op)) <|>
      p.plainOpcode?.map (fun op => .plain (UInt8.ofNat op)) <|>
      p.extendedOpcode?.map fun op => .extended (UInt8.ofNat op)

/-- Whether the operand that names an address is stored as a distance. -/
def Operation.isRelative : Operation → Bool
  | jr | djnz => true
  | _ => false

namespace Statement

def outline (s : Statement) : Pattern := ⟨s.operation, s.operands.map Operand.outline⟩

/-- The bytes that hold the operands of a statement at an address. -/
def payload (address : UInt16) (s : Statement) : List UInt8 :=
  if s.operation.isRelative then s.operands.flatMap (Operand.distance (address + 2))
  else s.operands.flatMap Operand.bytes

/-- The bytes of a statement at an address. The operand of a restart is a part of its opcode. -/
def assemble (address : UInt16) (s : Statement) : Option (List UInt8) :=
  if s.operation = .rst then s.operands.head?.bind Operand.restart?
  else s.outline.head?.map (Head.assemble (s.payload address))

end Statement

/-- The bytes of an instruction that is listed with the given text at an address. -/
def assemble (address : UInt16) (text : String) : Option (List UInt8) :=
  (readLine? text).bind fun (head, operands) =>
    if head = "DB".toList then some (operands.flatMap Operand.bytes)
    else if head = "END".toList then some []
    else (Operation.read? head).bind fun o => Statement.assemble address ⟨o, operands⟩

namespace Operand

@[simp] theorem outline_spelled (o : Operand) : o.spelled.outline = o.outline := by
  cases o with
  | condition test => cases test <;> rfl
  | _ => rfl

@[simp] theorem bytes_spelled (o : Operand) : o.spelled.bytes = o.bytes := by
  cases o with
  | condition test => cases test <;> rfl
  | _ => rfl

@[simp] theorem distance_spelled (next : UInt16) (o : Operand) :
    o.spelled.distance next = o.distance next := by
  cases o with
  | condition test => cases test <;> rfl
  | _ => rfl

@[simp] theorem restart?_spelled (o : Operand) : o.spelled.restart? = o.restart? := by
  cases o with
  | condition test => cases test <;> rfl
  | _ => rfl

end Operand

theorem Statement.assemble_spelled (address : UInt16) (s : Statement) :
    assemble address ⟨s.operation, s.operands.map Operand.spelled⟩ = assemble address s := by
  simp only [assemble, outline, payload, List.map_map, List.flatMap_map, Function.comp_def,
    Operand.outline_spelled, Operand.bytes_spelled, Operand.distance_spelled, List.head?_map]
  cases s.operands.head? <;> simp

theorem assemble_text (address : UInt16) {s : Statement} (h : s.operation.isNamed = true) :
    assemble address s.text = s.assemble address := by
  have hdata : s.operation.name.toList ≠ "DB".toList := by
    intro he
    exact s.operation.name_starts.2 (by rw [he]; rfl)
  rw [assemble, readLine?_text h]
  simp only [Option.bind_some, if_neg hdata, if_neg s.operation.name_ne_end, Operation.read?_name h,
    Statement.assemble_spelled]

theorem assemble_dataText (address : UInt16) {bytes : List UInt8} (hne : bytes ≠ []) :
    assemble address (dataText bytes) = some bytes := by
  rw [assemble, readLine?_dataText hne]
  simp [List.flatMap_map, Operand.bytes]

theorem assemble_end (address : UInt16) : assemble address "END" = some [] := by
  have hread : readLine? "END" = some ("END".toList, []) := by rfl
  rw [assemble, hread]
  rfl

theorem lowByte_signExtend (b : UInt8) : lowByte (signExtend b) = b := by
  have hlt := b.toNat_lt
  apply UInt8.toNat_inj.mp
  unfold signExtend
  split_ifs
  · simp [lowByte]
  · simp [lowByte]
    omega

namespace Slot

/-- Whether the bytes a slot takes from the input are those of its operand. -/
def isStored : Slot → Bool
  | relative => false
  | fixed o => o.bytes.isEmpty
  | _ => true

theorem outline_of_read? {here : UInt16} {s : Slot} {input : List UInt8} {o : Operand}
    (h : s.read? here input = some o) : o.outline = s.outline := by
  cases s <;> rcases input with _ | ⟨a, _ | ⟨b, rest⟩⟩ <;> cases h <;> rfl

theorem bytes_of_read? {here : UInt16} {s : Slot} {input : List UInt8} {o : Operand}
    (h : s.read? here input = some o) (hs : s.isStored = true) :
    o.bytes = input.take s.width := by
  cases s with
  | relative => cases hs
  | fixed p =>
    cases h
    exact List.isEmpty_iff.mp hs
  | _ =>
    rcases input with _ | ⟨a, _ | ⟨b, rest⟩⟩ <;> cases h <;>
      simp [Operand.bytes, width, lowByte_wordOfBytes, highByte_wordOfBytes]

theorem outline_of_readAll {here : UInt16} {slots : List Slot} {input : List UInt8}
    {operands : List Operand} {taken : ℕ} (h : readAll here slots input = .ok (operands, taken)) :
    operands.map Operand.outline = slots.map outline := by
  induction slots generalizing here input operands taken with
  | nil =>
    cases h
    rfl
  | cons s slots ih =>
    obtain ⟨o, os, n, ho, hr, rfl, rfl⟩ := readAll_cons_ok h
    rw [List.map_cons, List.map_cons, outline_of_read? ho, ih hr]

theorem bytes_of_readAll {here : UInt16} {slots : List Slot} {input : List UInt8}
    {operands : List Operand} {taken : ℕ} (h : readAll here slots input = .ok (operands, taken))
    (hs : slots.all isStored = true) : operands.flatMap Operand.bytes = input.take taken := by
  induction slots generalizing here input operands taken with
  | nil =>
    cases h
    rfl
  | cons s slots ih =>
    obtain ⟨o, os, n, ho, hr, rfl, rfl⟩ := readAll_cons_ok h
    rw [List.all_cons, Bool.and_eq_true] at hs
    rw [List.flatMap_cons, bytes_of_read? ho hs.1, ih hr hs.2, List.take_add]

theorem distance_of_relative {here : UInt16} {input : List UInt8} {operands : List Operand}
    {taken : ℕ} (h : readAll here [relative] input = .ok (operands, taken)) :
    operands.flatMap (Operand.distance (here + 1)) = input.take taken := by
  rcases input with _ | ⟨d, rest⟩
  · cases h
  · cases h
    have hd : here + 1 + signExtend d - (here + 1) = signExtend d := by
      rw [UInt16.add_comm, UInt16.add_sub_cancel]
    simp [Operand.distance, hd, lowByte_signExtend, width]

theorem distance_of_readAll {here : UInt16} {slots : List Slot} {input : List UInt8}
    {operands : List Operand} {taken : ℕ}
    (hs : slots = [relative] ∨ ∃ test, slots = [condition test, relative])
    (h : readAll here slots input = .ok (operands, taken)) :
    operands.flatMap (Operand.distance (here + 1)) = input.take taken := by
  obtain rfl | ⟨test, rfl⟩ := hs
  · exact distance_of_relative h
  · obtain ⟨o, os, n, ho, hr, rfl, rfl⟩ := readAll_cons_ok h
    cases ho
    change readAll (here + 0) [relative] input = .ok (os, n) at hr
    rw [UInt16.add_zero] at hr
    rw [List.flatMap_cons, distance_of_relative hr]
    simp [Operand.distance, condition, width]

end Slot

namespace Pattern

/-- Whether a pattern that is read and assembled again gets the given opcode bytes, with its
operands as they stand in the input. -/
def assemblesTo (h : Head) (p : Pattern) : Bool :=
  p.operation.isNamed && p.operation ≠ .rst && !p.operation.isRelative &&
    p.slots.all Slot.isStored && p.outline.head? = some h

theorem outline_of_readAll {p : Pattern} {here : UInt16} {input : List UInt8}
    {operands : List Operand} {taken : ℕ}
    (h : Slot.readAll here p.slots input = .ok (operands, taken)) :
    Statement.outline ⟨p.operation, operands⟩ = p.outline := by
  rw [Statement.outline, Slot.outline_of_readAll h, outline]

theorem assemble_of_read {p : Pattern} {h : Head} {here : UInt16} {rest : List UInt8}
    {s : Statement} {taken : ℕ} (hp : p.assemblesTo h = true)
    (hr : p.read here rest = .ok (s, taken)) (address : UInt16) :
    assemble address s.text = some (h.assemble (rest.take taken)) := by
  simp only [assemblesTo, Bool.and_eq_true, decide_eq_true_eq, Bool.not_eq_true'] at hp
  obtain ⟨⟨⟨⟨hnamed, hrst⟩, hrel⟩, hstored⟩, hhead⟩ := hp
  obtain ⟨os, hos, rfl⟩ := readAll_of_read_ok hr
  rw [assemble_text address hnamed, Statement.assemble, if_neg hrst, outline_of_readAll hos, hhead,
    Statement.payload, if_neg (by simp [hrel]), Slot.bytes_of_readAll hos hstored]
  rfl

end Pattern

end SpectrumListing.Z80
