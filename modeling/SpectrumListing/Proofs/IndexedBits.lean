import Mathlib
import SpectrumListing.Proofs.IndexSubstitution
import SpectrumListing.Z80.Fields

/-!
# Bit operations behind an index prefix

Behind an index prefix and CB an opcode does to displaced memory what it does to memory at HL behind
CB alone. If its register field names a register, the result goes there too and the register is
listed as a last operand, except that a bit test has no result. Both tables share `bitwise` here;
`Checked.bits_eq` and `Checked.indexedBits_eq` equate them with two separate ones, for which the law
is `Checked.decodeAt_prefix_bits`.
-/
namespace SpectrumListing.Z80

/-- An opcode with the field for memory at HL in place of its register field. -/
def onMemory (op : UInt8) : UInt8 := Fields.toByte { Fields.ofByte op with z := lowThree 6 }

theorem mnemonicText_append (operation : String) {operands : List String} (h : operands ≠ [])
    (operand : String) :
    mnemonicText operation (operands ++ [operand]) =
      mnemonicText operation operands ++ ", " ++ operand := by
  have happend : operands ++ [operand] ≠ [] := by simp
  rw [mnemonicText, if_neg happend, mnemonicText, if_neg h,
    String.intercalate_append_of_ne_nil h (List.cons_ne_nil _ _), String.intercalate_singleton]
  simp only [String.append_assoc]

namespace Statement

theorem isNamed_bitwise (f : Fields) (o : Operand) : (bitwise f o).operation.isNamed = true := by
  have hrotate : ∀ y, (Operation.rotate y).isNamed = true := by decide
  have hbit : ∀ x : Fin 4, ∀ operation ∈ Operation.bit? x.val, operation.isNamed = true := by decide
  unfold bitwise
  split
  · next operation hx => exact hbit f.x operation hx
  · exact hrotate f.y

theorem operands_bitwise_ne_nil (f : Fields) (o : Operand) : (bitwise f o).operands ≠ [] := by
  unfold bitwise
  split <;> simp

theorem bitwise_displaced (f : Fields) (i : IndexRegister) (d : UInt8) :
    bitwise f (.displaced i d) =
      ⟨(bitwise f (.atPair .hl)).operation,
        (bitwise f (.atPair .hl)).operands.map (Operand.displace i d)⟩ := by
  unfold bitwise
  split <;> rfl

theorem bits_onMemory (op : UInt8) :
    bits (onMemory op) = bitwise (Fields.ofByte op) (.atPair .hl) := by
  rw [bits, onMemory, Fields.ofByte_toByte]
  rfl

theorem indexedBits_eq (i : IndexRegister) (d op : UInt8) :
    indexedBits i d op =
      if (Fields.ofByte op).z = 6 ∨ (Fields.ofByte op).x = 1 then
        bitwise (Fields.ofByte op) (.displaced i d)
      else
        ⟨(bitwise (Fields.ofByte op) (.displaced i d)).operation,
          (bitwise (Fields.ofByte op) (.displaced i d)).operands ++
            [Operand.ofField (Fields.ofByte op).z]⟩ := by
  have hfield : ∀ z, Register.ofField? z = none ↔ z = 6 := by decide
  unfold indexedBits
  dsimp only
  generalize bitwise (Fields.ofByte op) (.displaced i d) = s
  generalize (Fields.ofByte op).x = x
  generalize (Fields.ofByte op).z = z
  cases hz : Register.ofField? z with
  | none =>
    rw [if_pos (.inl ((hfield z).mp hz))]
    split <;> trivial
  | some reg =>
    have hne : z ≠ 6 := by
      rw [ne_eq, ← hfield, hz]
      nofun
    rw [Operand.ofField, hz]
    fin_cases x <;> simp [hne]

/-- Putting displaced memory in the place of memory at HL changes the operand and nothing else. -/
theorem replaceOperands_bitwise (f : Fields) (i : IndexRegister) (d : UInt8) :
    replaceOperands (displaceMemory i d) (bitwise f (.atPair .hl)).text =
      (bitwise f (.displaced i d)).text := by
  rw [bitwise_displaced]
  exact replaceOperands_text (isNamed_bitwise f _) fun o _ => Operand.displaceMemory_text i d o

theorem memory_mem_operandTexts (f : Fields) :
    "(HL)" ∈ operandTexts (bitwise f (.atPair .hl)).text := by
  rw [operandTexts_text (isNamed_bitwise f _)]
  apply List.mem_map_of_mem (f := Operand.text) (a := .atPair .hl)
  unfold bitwise
  split <;> simp

end Statement

theorem NameTable.register_field (z : Fin 8) :
    register (UInt8.ofNat z.val) = (Operand.ofField z).text := by
  revert z
  decide

theorem Statement.indexedBits_text (i : IndexRegister) (d op : UInt8) :
    let f := Fields.ofByte op
    let displaced := replaceOperands (displaceMemory i d) (bits (onMemory op)).text
    (indexedBits i d op).text =
      if f.z = 6 ∨ f.x = 1 then displaced
      else displaced ++ ", " ++ NameTable.register (UInt8.ofNat f.z.val) := by
  simp only [bits_onMemory, replaceOperands_bitwise]
  rw [indexedBits_eq]
  split_ifs
  · rfl
  · rw [text_eq, text_eq, List.map_append, NameTable.register_field]
    refine mnemonicText_append _ ?_ _
    simpa using operands_bitwise_ne_nil _ _

theorem decode_bits (address : UInt16) (op : UInt8) (rest : List UInt8) :
    decode address (0xCB :: op :: rest) =
      ⟨address, [0xCB, op], .statement (Statement.bits op)⟩ := by
  have hd := decode_of_selects address (Selects.bits op) rest
  rw [Pattern.read_ofStatement] at hd
  exact hd

theorem decode_index_bits (address : UInt16) (i : IndexRegister) (d op : UInt8)
    (rest : List UInt8) :
    decode address (i.prefixByte :: 0xCB :: d :: op :: rest) =
      ⟨address, [i.prefixByte, 0xCB, d, op], .statement (Statement.indexedBits i d op)⟩ := by
  have hd := decode_of_selects address (Selects.indexBits i d op) rest
  rw [Pattern.read_ofStatement] at hd
  exact hd

/-- Behind an index prefix, CB and a displacement an opcode is listed like the opcode for memory at
HL behind CB, with the displaced memory in its place. A register that it names follows as the last
operand, under its own name, unless a bit is tested. -/
theorem decodeAt_indexed_bits (i : IndexRegister) (d op : UInt8) (rest : List UInt8)
    (base base' : UInt16) :
    let f := Fields.ofByte op
    let indexed := decodeAt (i.prefixByte :: 0xCB :: d :: op :: rest) 0 base
    let plain := (decodeAt [0xCB, onMemory op] 0 base').1
    let displaced := replaceOperands (displaceMemory i d) plain.mnemonic
    indexed.2 = 4 ∧ "(HL)" ∈ operandTexts plain.mnemonic ∧
    indexed.1.mnemonic =
      if f.z = 6 ∨ f.x = 1 then displaced
      else displaced ++ ", " ++ NameTable.register (UInt8.ofNat f.z.val) := by
  simp only [decodeAt_zero, decode_bits, decode_index_bits, Instruction.mnemonic]
  refine ⟨rfl, ?_, Statement.indexedBits_text i d op⟩
  rw [Statement.bits_onMemory]
  exact Statement.memory_mem_operandTexts _

example : (decodeAt [0xFD, 0xCB, 0x80, 0x9C] 0 0x8000).1.mnemonic = "RES 3, (IY-0x80), H" := by
  decide

end SpectrumListing.Z80
