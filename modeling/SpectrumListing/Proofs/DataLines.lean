import Mathlib
import SpectrumListing.Proofs.InstructionLength
import SpectrumListing.Proofs.Spelling

/-!
# Lines of data

Bytes are listed as data for two reasons: the input ends inside an instruction, or ED stands before
an opcode that means nothing there. These are also the instructions that a debug record is made for.
The line shows the bytes of the instruction and can be read back, and in the report of a sweep the
records follow each other as the lines of data do.
-/
namespace SpectrumListing.Z80

/-- Whether an opcode means nothing behind ED. -/
def isUndefinedOpcode (op : UInt8) : Bool :=
  let f := Fields.ofByte op
  f.x.val == 0 || f.x.val == 3 || (f.x.val == 2 && (f.y.val < 4 || 3 < f.z.val))

theorem Pattern.extended?_eq_none_iff (op : UInt8) :
    extended? op = none ↔ isUndefinedOpcode op = true := by
  revert op
  decide +kernel

theorem Instruction.isUndefined_iff_fields {i : Instruction} :
    i.isUndefined = true ↔ ∃ op, i.bytes = [0xED, op] ∧ isUndefinedOpcode op = true := by
  simp only [isUndefined_iff, Pattern.extended?_eq_none_iff]
  rfl

def debugRecords (notices : List Notice) : List Notice := notices.filter (·.level = .debug)

/-- The record that is made for an instruction which is listed as data. -/
inductive Remarks : Notice → Instruction → Prop
  | truncated {i : Instruction} (h : i.isTruncated = true) :
      Remarks (.truncated i.address i.size) i
  | undefined {i : Instruction} {op : UInt8} (h : i.isUndefined = true)
      (hb : i.bytes = [0xED, op]) : Remarks (.undefinedOpcode op) i

theorem debugRecords_notices (i : Instruction) :
    debugRecords i.notices = debugRecords i.remark?.toList := by
  simp [Instruction.notices, debugRecords, Notice.level]

namespace Decoded

variable {address : UInt16} {input : List UInt8} {i : Instruction}

theorem statement_or_data (h : Decoded address input i) (hne : input ≠ []) :
    (i.isData = false ∧ debugRecords i.remark?.toList = [] ∧ ¬ IsCutOff input ∧
        i.isUndefined = false) ∨
      (i.mnemonic = dataText i.bytes ∧ (IsCutOff input ∨ i.isUndefined = true) ∧
        ∃ n, debugRecords i.remark?.toList = [n] ∧ Remarks n i) := by
  have hcut := h.truncated_iff_isCutOff hne
  have htruncated := h.isTruncated_iff
  have hundefined {op : UInt8} (hr : i.reading = .undefined op) :=
    And.intro (h.mnemonic_of_undefined hr) (h.isUndefined_of_undefined hr)
  cases h with
  | finished => exact absurd rfl hne
  | complete selects read =>
    have hlasts : ¬ IsCutOff _ := fun hc => by cases hcut.mpr hc
    refine .inl ⟨Instruction.isData_of_statement rfl, rfl, hlasts, ?_⟩
    rw [Bool.eq_false_iff, ne_eq, Instruction.isUndefined_iff]
    rintro ⟨op, he, hn⟩
    exact selects.append_ne_undefined hn _ he
  | undefined _ =>
    obtain ⟨htext, hu⟩ := hundefined rfl
    exact .inr ⟨htext, .inr hu, _, rfl, .undefined hu rfl⟩
  | cutOperand _ _ =>
    exact .inr ⟨rfl, .inl (hcut.mp rfl), _, rfl, .truncated (htruncated.mpr rfl)⟩
  | cutOpcode _ _ =>
    exact .inr ⟨rfl, .inl (hcut.mp rfl), _, rfl, .truncated (htruncated.mpr rfl)⟩

end Decoded

theorem Swept.forall₂_remarks {base : UInt16} {buffer : List UInt8} {is : List Instruction}
    (h : Swept base buffer is) :
    List.Forall₂ Remarks (debugRecords (is.flatMap Instruction.notices))
      (is.filter Instruction.isData) := by
  induction h with
  | nil _ => exact .nil
  | @cons base rest i is head ne _ ih =>
    have hsplit : debugRecords ((i :: is).flatMap Instruction.notices) =
        debugRecords i.remark?.toList ++ debugRecords (is.flatMap Instruction.notices) := by
      rw [List.flatMap_cons, ← debugRecords_notices]
      exact List.filter_append ..
    obtain ⟨hdata, hnone, -⟩ | ⟨htext, -, n, hsome, hn⟩ := head.statement_or_data (by simp [ne])
    · rw [hsplit, hnone, List.filter_cons_of_neg (by simp [hdata])]
      exact ih
    · rw [hsplit, hsome, List.filter_cons_of_pos (Instruction.isData_of_dataText htext)]
      exact .cons hn ih

/-- Bytes are listed as data exactly when the input ends inside the instruction or ED stands before
an undefined opcode, and exactly then there is a debug record, which is the only one. The line holds
the bytes of the instruction and can be read back. Over a whole buffer the records correspond to the
lines of data one by one and in order. -/
theorem decodeAt_data_law (buffer : List UInt8) (base : UInt16) :
    (∀ offset < buffer.length,
      let i := (decodeAt buffer offset base).1
      let records := debugRecords i.remark?.toList
      [i.isData = true,
        IsCutOff (buffer.drop offset) ∨
          ∃ op, i.bytes = [0xED, op] ∧ isUndefinedOpcode op = true,
        records ≠ [], ∃ n, records = [n]].TFAE ∧
      (i.isData = true →
        i.mnemonic = "DB " ++ ", ".intercalate (i.bytes.map fun b => "0x" ++ Hex.byte b) ∧
        readLine? i.mnemonic = some ("DB".toList, i.bytes.map Operand.byte))) ∧
    List.Forall₂ Remarks (debugRecords ((Sweep.mk base buffer).run [.collect]).2)
      ((decodeBlock buffer base).filter Instruction.isData) := by
  constructor
  · intro offset hoffset i records
    have hd := decoded_decodeAt buffer offset base
    have hne := drop_ne_nil_of_lt hoffset
    rw [← Instruction.isUndefined_iff_fields]
    obtain ⟨hdata, hnone, hlasts, hdefined⟩ | ⟨htext, hcause, n, hsome, -⟩ :=
      hd.statement_or_data hne
    · refine ⟨List.tfae_of_forall False _ ?_, fun h => ?_⟩
      · simp [i, records, hdata, hnone, hlasts, hdefined]
      · rw [hdata] at h
        cases h
    · have hdata := Instruction.isData_of_dataText htext
      refine ⟨List.tfae_of_forall True _ ?_, fun _ => ⟨htext, ?_⟩⟩
      · simp [i, records, hdata, hsome, hcause]
      · rw [htext]
        exact readLine?_dataText (hd.bytes_ne_nil hne)
  · have swept := (swept_decodeBlock buffer base).forall₂_remarks
    have hnotices : ((Sweep.mk base buffer).run [.collect]).2 =
        (decodeBlock buffer base).flatMap Instruction.notices := by
      simp [Sweep.run, Sweep.visited, decodeBlock]
    rwa [hnotices]

theorem decodeAt_data_law_cut_jump :
    let buffer : List UInt8 := [0xED, 0x00, 0xDD, 0xC3, 0x12]
    let i := (decodeAt buffer 2 0x8000).1
    IsCutOff (buffer.drop 2) ∧ i.isData = true ∧ (∃ n, debugRecords i.remark?.toList = [n]) ∧
      readLine? i.mnemonic = some ("DB".toList, [.byte 0xDD, .byte 0xC3]) := by
  intro buffer i
  have hcut : IsCutOff (buffer.drop 2) := by decide
  obtain ⟨equivalent, line⟩ := (decodeAt_data_law buffer 0x8000).1 2 (by decide)
  have hdata : i.isData = true := (equivalent.out 0 1).mpr (Or.inl hcut)
  exact ⟨hcut, hdata, (equivalent.out 0 3).mp hdata, (line hdata).2⟩

end SpectrumListing.Z80
