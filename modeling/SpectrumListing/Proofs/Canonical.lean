import Mathlib
import SpectrumListing.Proofs.Assembler
import SpectrumListing.Proofs.IndexTransparency

/-!
# Canonical encodings

Some statements have several encodings, and `isAlias` names all but one of them. Any other
instruction is recovered from its address and its mnemonic by assembling.
-/
namespace SpectrumListing.Z80

/-- The opcodes behind ED that repeat a statement of another opcode. -/
def extendedAliases : List UInt8 :=
  [0x4C, 0x54, 0x5C, 0x64, 0x6C, 0x74, 0x7C, 0x55, 0x5D, 0x65, 0x6D, 0x75, 0x7D,
    0x4E, 0x66, 0x6E, 0x76, 0x7E, 0x77, 0x7F, 0x63, 0x6B]

/-- Whether an index prefix in front of the opcode is superfluous or stands alone. -/
def isIndexAlias (op : UInt8) : Bool :=
  op == 0x76 || op ∈ [0xDD, 0xED, 0xFD] || !isIndexSensitive op

/-- Whether an opcode behind an index prefix, CB and a displacement tests a bit and names a register
to no effect. -/
def isIndexBitsAlias (op : UInt8) : Bool :=
  let f := Fields.ofByte op
  f.x.val == 1 && f.z.val != 6

/-- Whether bytes are one of the further encodings of a statement. -/
def isAliasEncoding : List UInt8 → Bool
  | lead :: op :: rest =>
    if lead ∈ [0xDD, 0xFD] then
      if op = 0xCB then
        match rest with
        | [_, last] => isIndexBitsAlias last
        | _ => false
      else isIndexAlias op
    else lead == 0xED && op ∈ extendedAliases
  | _ => false

def Instruction.isAlias (i : Instruction) : Bool := !i.isData && isAliasEncoding i.bytes

namespace Pattern

theorem plain_assemblesTo {op : UInt8} (h : Prefix.ofByte? op = none) :
    (plain op).assemblesTo (.plain op) = true ∨
      plain op = ofStatement ⟨.rst, [.byte (op - 0xC7)]⟩ ∨
      (plain op).operation ∈ [.jr, .djnz] ∧ (plain op).outline.head? = some (.plain op) ∧
        ((plain op).slots = [.relative] ∨
          ∃ k, (plain op).slots = [.condition (Condition.ofField k), .relative]) := by
  revert op
  decide +kernel

theorem prefixed_assemblesTo (op : UInt8) :
    (ofStatement (Statement.bits op)).assemblesTo (.bits op) = true ∧
      (op ∉ extendedAliases → ∀ p ∈ extended? op, p.assemblesTo (.extended op) = true) ∧
      (isIndexAlias op = false → op ≠ Prefix.bits.byte →
        ∀ i, ((plain op).indexed i).assemblesTo (.index i op) = true) := by
  revert op
  decide +kernel

end Pattern

namespace Statement

/-- The displacement shows in the operand bytes and nowhere in the outline. -/
theorem indexedBits_displacement (i : IndexRegister) (d op : UInt8) :
    (indexedBits i d op).outline = (indexedBits i 0 op).outline ∧
      (indexedBits i d op).operands.flatMap Operand.bytes = [d] := by
  unfold indexedBits bitwise
  dsimp only
  generalize Register.ofField? (Fields.ofByte op).z = reg
  generalize (Fields.ofByte op).x = x
  cases reg <;> fin_cases x <;> exact ⟨rfl, rfl⟩

theorem indexedBits_head? (i : IndexRegister) {op : UInt8} (h : isIndexBitsAlias op = false) :
    (indexedBits i 0 op).operation.isNamed = true ∧ (indexedBits i 0 op).operation ≠ .rst ∧
      (indexedBits i 0 op).operation.isRelative = false ∧
      (indexedBits i 0 op).outline.head? = some (.indexBits i op) := by
  revert i op
  decide +kernel

theorem assemble_indexedBits (address : UInt16) (i : IndexRegister) (d : UInt8) {op : UInt8}
    (h : isIndexBitsAlias op = false) :
    Z80.assemble address (indexedBits i d op).text =
      some [i.prefixByte, Prefix.bits.byte, d, op] := by
  obtain ⟨houtline, hbytes⟩ := indexedBits_displacement i d op
  have hoperation : (indexedBits i d op).operation = (indexedBits i 0 op).operation :=
    congrArg Pattern.operation houtline
  obtain ⟨hnamed, hrst, hrel, hhead⟩ := indexedBits_head? i h
  rw [← hoperation] at hnamed hrst hrel
  rw [assemble_text address hnamed, assemble, if_neg hrst, houtline, hhead, payload,
    if_neg (by simp [hrel]), hbytes]
  rfl

theorem assemble_restart (address : UInt16) (op : UInt8) :
    Z80.assemble address (text ⟨.rst, [.byte (op - 0xC7)]⟩) = some [op] := by
  rw [assemble_text address rfl, assemble, if_pos rfl]
  simp [Operand.restart?]

end Statement

theorem isAliasEncoding_index (i : IndexRegister) {op : UInt8} (h : op ≠ Prefix.bits.byte)
    (rest : List UInt8) : isAliasEncoding (i.prefixByte :: op :: rest) = isIndexAlias op := by
  have hb : op ≠ 0xCB := h
  cases i <;> simp [isAliasEncoding, IndexRegister.prefixByte, hb]

theorem isAliasEncoding_indexBits (i : IndexRegister) (d op : UInt8) :
    isAliasEncoding [i.prefixByte, Prefix.bits.byte, d, op] = isIndexBitsAlias op := by
  cases i <;> rfl

theorem isAliasEncoding_extended (op : UInt8) (rest : List UInt8) :
    isAliasEncoding (Prefix.extended.byte :: op :: rest) = decide (op ∈ extendedAliases) := by
  simp [isAliasEncoding, Prefix.byte]

/-- Assembling the text of a relative jump turns the target back into a distance. -/
theorem assemble_of_read_relative {address : UInt16} {op : UInt8} {rest : List UInt8}
    {s : Statement} {taken : ℕ} (ho : (Pattern.plain op).operation ∈ [.jr, .djnz])
    (hh : (Pattern.plain op).outline.head? = some (.plain op))
    (hs : (Pattern.plain op).slots = [.relative] ∨
      ∃ test, (Pattern.plain op).slots = [.condition test, .relative])
    (hr : (Pattern.plain op).read (address + 1) rest = .ok (s, taken)) :
    assemble address s.text = some (op :: rest.take taken) := by
  obtain ⟨os, hos, rfl⟩ := Pattern.readAll_of_read_ok hr
  have hfacts : (Pattern.plain op).operation.isNamed = true ∧
      (Pattern.plain op).operation ≠ .rst ∧ (Pattern.plain op).operation.isRelative = true := by
    generalize (Pattern.plain op).operation = o at ho
    rcases List.mem_cons.mp ho with rfl | ho
    · decide
    · rw [List.mem_singleton.mp ho]
      decide
  obtain ⟨hnamed, hrst, hrel⟩ := hfacts
  have hnext : address + 2 = address + 1 + 1 := by
    rw [UInt16.add_assoc]
    rfl
  rw [assemble_text address hnamed, Statement.assemble, if_neg hrst, Pattern.outline_of_readAll hos,
    hh, Statement.payload, if_pos hrel, hnext, Slot.distance_of_readAll hs hos]
  rfl

theorem Selects.assemble_text {address : UInt16} {opcode rest : List UInt8} {p : Pattern}
    {s : Statement} {taken : ℕ} (h : Selects opcode p)
    (hr : p.read (address + UInt16.ofNat opcode.length) rest = .ok (s, taken))
    (ha : isAliasEncoding (opcode ++ rest.take taken) = false) :
    assemble address s.text = some (opcode ++ rest.take taken) := by
  cases h with
  | @plain op hp =>
    obtain hto | hrst | ⟨ho, hh, hs⟩ := Pattern.plain_assemblesTo hp
    · exact Pattern.assemble_of_read hto hr address
    · rw [hrst, Pattern.read_ofStatement] at hr
      cases hr
      exact Statement.assemble_restart address op
    · have hs' : (Pattern.plain op).slots = [.relative] ∨
          ∃ test, (Pattern.plain op).slots = [.condition test, .relative] :=
        hs.imp_right fun ⟨k, hk⟩ => ⟨_, hk⟩
      exact assemble_of_read_relative ho hh hs' hr
  | bits op => exact Pattern.assemble_of_read (Pattern.prefixed_assemblesTo op).1 hr address
  | @extended op p hp =>
    have hop : op ∉ extendedAliases := by
      simpa [isAliasEncoding_extended] using ha
    exact Pattern.assemble_of_read ((Pattern.prefixed_assemblesTo op).2.1 hop p hp) hr address
  | @index i op hop =>
    have hop' : isIndexAlias op = false := by
      simpa [isAliasEncoding_index i hop] using ha
    exact Pattern.assemble_of_read ((Pattern.prefixed_assemblesTo op).2.2 hop' hop i) hr address
  | indexBits i d op =>
    rw [Pattern.read_ofStatement] at hr
    cases hr
    rw [List.take_zero, List.append_nil, isAliasEncoding_indexBits] at ha
    exact Statement.assemble_indexedBits address i d ha

/-- The address and the mnemonic of an instruction determine its bytes, unless it is an alias. -/
theorem Decoded.assemble_mnemonic {address : UInt16} {input : List UInt8} {i : Instruction}
    (h : Decoded address input i) (ha : i.isAlias = false) :
    assemble i.address i.mnemonic = some i.bytes := by
  cases h with
  | finished => exact assemble_end address
  | complete selects read =>
    rw [Instruction.isAlias, Instruction.isData_of_statement rfl] at ha
    exact selects.assemble_text read ha
  | undefined _ => exact assemble_dataText address (List.cons_ne_nil _ _)
  | cutOperand selects _ =>
    have := selects.length_pos
    refine assemble_dataText address fun he => ?_
    simp_all
  | cutOpcode _ ne => exact assemble_dataText address ne

/-- Instructions at one address with one mnemonic consist of the same bytes, unless one of them is
an alias. -/
theorem bytes_eq_of_mnemonic_eq {buffer buffer' : List UInt8} {offset offset' next next' : ℕ}
    {base base' : UInt16} {i j : Instruction} (hi : decodeAt buffer offset base = (i, next))
    (hj : decodeAt buffer' offset' base' = (j, next')) (haddress : i.address = j.address)
    (hmnemonic : i.mnemonic = j.mnemonic) (hai : i.isAlias = false) (haj : j.isAlias = false) :
    i.bytes = j.bytes := by
  have hdi := decoded_decodeAt buffer offset base
  have hdj := decoded_decodeAt buffer' offset' base'
  rw [hi] at hdi
  rw [hj] at hdj
  apply Option.some.inj
  calc
    some i.bytes = assemble i.address i.mnemonic := (hdi.assemble_mnemonic hai).symm
    _ = assemble j.address j.mnemonic := by rw [haddress, hmnemonic]
    _ = some j.bytes := hdj.assemble_mnemonic haj

theorem bytes_eq_of_mnemonic_eq_relative_jump :
    let i := (decodeAt [0x00, 0x18, 0xFE] 1 0x7FFF).1
    let j := (decodeAt [0x18, 0xFE, 0x00] 0 0x8000).1
    i.address = j.address ∧ i.mnemonic = j.mnemonic ∧ i.isAlias = false ∧ j.isAlias = false ∧
      i.bytes = j.bytes := by
  intro i j
  have haddress : i.address = j.address := rfl
  have hmnemonic : i.mnemonic = j.mnemonic := rfl
  have hai : i.isAlias = false := by decide
  have haj : j.isAlias = false := by decide
  have hi : decodeAt [0x00, 0x18, 0xFE] 1 0x7FFF = (i, 3) := rfl
  have hj : decodeAt [0x18, 0xFE, 0x00] 0 0x8000 = (j, 2) := rfl
  exact ⟨haddress, hmnemonic, hai, haj, bytes_eq_of_mnemonic_eq hi hj haddress hmnemonic hai haj⟩

end SpectrumListing.Z80
