import Mathlib
import SpectrumListing.Proofs.Decoding

/-!
# Telling mnemonics apart

A listing shows only texts. Data lines start with `DB `, which no statement does, and among them the
undefined pairs are known by their bytes; what is left was cut off by the end of the input. So
`isTruncated`, which looks at text and bytes alone, agrees with what the decoder has recorded.
-/
namespace SpectrumListing.Z80

theorem Operation.name_starts (o : Operation) :
    2 ≤ o.name.toList.length ∧ o.name.toList.take 2 ≠ ['D', 'B'] := by
  cases o with
  | stray p => rcases p with _ | _ | ⟨_ | _⟩ <;> decide
  | _ => simp [name]

theorem Operation.name_ne_end (o : Operation) : o.name.toList ≠ "END".toList := by
  cases o with
  | stray p => rcases p with _ | _ | ⟨_ | _⟩ <;> decide
  | _ => simp [name]

namespace Statement

theorem toList_text (s : Statement) :
    s.text.toList = s.operation.name.toList ++
      if s.operands = [] then []
      else ' ' :: [',', ' '].intercalate (s.operands.map fun o => o.text.toList) := by
  obtain ⟨o, _ | ⟨x, xs⟩⟩ := s
  · simp [text]
  · simp [text, String.toList_append, String.toList_intercalate, Function.comp_def]

theorem text_ne_empty (s : Statement) : s.text ≠ "" := by
  intro he
  have ht := congrArg (List.length ∘ String.toList) he
  have hlen := s.operation.name_starts.1
  simp only [Function.comp_apply, toList_text, List.length_append, String.toList_empty,
    List.length_nil] at ht
  omega

theorem text_ne_end (s : Statement) : s.text ≠ "END" := by
  intro he
  have ht := congrArg String.toList he
  rw [toList_text] at ht
  split_ifs at ht with hs
  · rw [List.append_nil] at ht
    exact s.operation.name_ne_end ht
  · have : ' ' ∈ "END".toList := by simp [← ht]
    simp at this

theorem not_data_isPrefix_text (s : Statement) : ¬ "DB ".toList <+: s.text.toList := by
  intro hp
  obtain ⟨hlen, hne⟩ := s.operation.name_starts
  have htake := (List.prefix_iff_eq_take.mp hp)
  rw [toList_text] at htake
  have htwo := congrArg (List.take 2) htake
  rw [List.take_take, List.take_append_of_le_length (by simpa using hlen)] at htwo
  exact hne htwo.symm

end Statement

theorem dataText_ne_empty (bytes : List UInt8) : dataText bytes ≠ "" := by
  simp [dataText]

theorem dataText_ne_end (bytes : List UInt8) : dataText bytes ≠ "END" := by
  intro he
  have ht := congrArg (fun s => s.toList.take 1) he
  simp [dataText] at ht

namespace Instruction

/-- Whether the listing shows the bytes as data. -/
def isData (i : Instruction) : Bool := "DB ".toList.isPrefixOf i.mnemonic.toList

/-- Whether the bytes are ED and an opcode that means nothing there. -/
def isUndefined (i : Instruction) : Bool :=
  match i.bytes with
  | [lead, op] => lead == Prefix.extended.byte && (Pattern.extended? op).isNone
  | _ => false

/-- Whether the listing shows data that is no undefined pair. -/
def isTruncated (i : Instruction) : Bool := i.isData && !i.isUndefined

theorem isUndefined_iff {i : Instruction} :
    i.isUndefined = true ↔ ∃ op, i.bytes = [Prefix.extended.byte, op] ∧
      Pattern.extended? op = none := by
  unfold isUndefined
  split
  · next lead op he => simp [he]
  · next hne =>
    simp only [Bool.false_eq_true, false_iff]
    rintro ⟨op, he, -⟩
    exact hne _ _ he

theorem mnemonic_of_truncated {i : Instruction} (h : i.reading = .truncated) :
    i.mnemonic = dataText i.bytes := by
  simp only [mnemonic, h]

theorem isData_of_dataText {i : Instruction} (h : i.mnemonic = dataText i.bytes) :
    i.isData = true := by
  rw [isData, h, dataText, String.toList_append]
  exact List.isPrefixOf_iff_prefix.mpr (List.prefix_append _ _)

theorem isData_of_truncated {i : Instruction} (h : i.reading = .truncated) : i.isData = true :=
  isData_of_dataText (mnemonic_of_truncated h)

theorem isData_of_statement {i : Instruction} {s : Statement} (h : i.reading = .statement s) :
    i.isData = false := by
  have hm : i.mnemonic = s.text := by simp only [mnemonic, h]
  rw [isData, hm, Bool.eq_false_iff, ne_eq, List.isPrefixOf_iff_prefix]
  exact s.not_data_isPrefix_text

end Instruction

theorem Selects.append_ne_undefined {opcode : List UInt8} {p : Pattern} (h : Selects opcode p)
    {op : UInt8} (hn : Pattern.extended? op = none) (more : List UInt8) :
    opcode ++ more ≠ [Prefix.extended.byte, op] := by
  intro he
  cases h with
  | plain h =>
    obtain ⟨rfl, -⟩ := List.cons.inj he
    cases h
  | bits _ => cases (List.cons.inj he).1
  | extended h =>
    obtain ⟨rfl, -⟩ := List.cons.inj (List.cons.inj he).2
    rw [hn] at h
    cases h
  | index i _ => cases i <;> cases (List.cons.inj he).1
  | indexBits i _ _ => cases i <;> cases (List.cons.inj he).1

theorem Unfinished.ne_undefined {input : List UInt8} (h : Unfinished input) (op : UInt8) :
    input ≠ [Prefix.extended.byte, op] := by
  intro he
  cases h with
  | nil => cases he
  | lead _ => cases (List.cons.inj he).2
  | bits i => cases i <;> cases (List.cons.inj he).1
  | displacement i _ => cases i <;> cases (List.cons.inj he).1

namespace Decoded

variable {address : UInt16} {input : List UInt8} {i : Instruction}

/-- The data listed for an undefined pair come from the opcode alone, and they are its bytes. -/
theorem mnemonic_of_undefined (h : Decoded address input i) {op : UInt8}
    (hr : i.reading = .undefined op) : i.mnemonic = dataText i.bytes := by
  simp only [Instruction.mnemonic, hr, (h.bytes_of_undefined hr).1]

theorem isUndefined_of_undefined (h : Decoded address input i) {op : UInt8}
    (hr : i.reading = .undefined op) : i.isUndefined = true :=
  Instruction.isUndefined_iff.mpr ⟨op, h.bytes_of_undefined hr⟩

theorem isTruncated_iff (h : Decoded address input i) :
    i.isTruncated = true ↔ i.reading = .truncated := by
  rw [Instruction.isTruncated, Bool.and_eq_true, Bool.not_eq_true']
  have hundefined {op : UInt8} (hr : i.reading = .undefined op) := h.isUndefined_of_undefined hr
  cases h with
  | finished => simp [Instruction.isData, Instruction.mnemonic]
  | complete _ _ =>
    rw [Instruction.isData_of_statement rfl]
    simp
  | undefined _ =>
    rw [hundefined rfl]
    simp
  | cutOperand selects _ =>
    refine iff_of_true ⟨Instruction.isData_of_truncated rfl, ?_⟩ rfl
    rw [Bool.eq_false_iff, ne_eq, Instruction.isUndefined_iff]
    rintro ⟨op, he, hn⟩
    exact selects.append_ne_undefined hn _ he
  | cutOpcode unfinished _ =>
    refine iff_of_true ⟨Instruction.isData_of_truncated rfl, ?_⟩ rfl
    rw [Bool.eq_false_iff, ne_eq, Instruction.isUndefined_iff]
    rintro ⟨op, he, -⟩
    exact unfinished.ne_undefined op he

/-- Only the end of the input has the marker's text. -/
theorem mnemonic_ne (h : Decoded address input i) (hne : input ≠ []) :
    i.mnemonic ≠ "" ∧ i.mnemonic ≠ "END" := by
  cases h with
  | finished => exact absurd rfl hne
  | complete _ _ => exact ⟨Statement.text_ne_empty _, Statement.text_ne_end _⟩
  | undefined _ => exact ⟨dataText_ne_empty _, dataText_ne_end _⟩
  | cutOperand _ _ => exact ⟨dataText_ne_empty _, dataText_ne_end _⟩
  | cutOpcode _ _ => exact ⟨dataText_ne_empty _, dataText_ne_end _⟩

end Decoded

end SpectrumListing.Z80
