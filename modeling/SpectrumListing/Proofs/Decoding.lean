import Mathlib
import SpectrumListing.Proofs.OpcodeSelection

/-!
# Decoding one instruction

`Decoded` lists all that decoding can make of an input, and `decoded_iff` says that it describes
`decode` exactly. The laws below are read off its cases: the bytes are the front of the input, there
are one to four of them, nothing after them is looked at unless the input is cut off, and behind an
instruction that is cut off at most one byte is left.
-/
namespace SpectrumListing.Z80

/-- What the input at an address decodes to. -/
inductive Decoded (address : UInt16) : List UInt8 → Instruction → Prop
  | finished : Decoded address [] ⟨address, [], .finished⟩
  | complete {opcode rest : List UInt8} {p : Pattern} {s : Statement} {taken : ℕ}
      (selects : Selects opcode p)
      (read : p.read (address + UInt16.ofNat opcode.length) rest = .ok (s, taken)) :
      Decoded address (opcode ++ rest) ⟨address, opcode ++ rest.take taken, .statement s⟩
  | undefined {op : UInt8} {rest : List UInt8} (none : Pattern.extended? op = none) :
      Decoded address (Prefix.extended.byte :: op :: rest)
        ⟨address, [Prefix.extended.byte, op], .undefined op⟩
  | cutOperand {opcode rest : List UInt8} {p : Pattern} {taken : ℕ}
      (selects : Selects opcode p)
      (read : p.read (address + UInt16.ofNat opcode.length) rest = .error taken) :
      Decoded address (opcode ++ rest) ⟨address, opcode ++ rest.take taken, .truncated⟩
  | cutOpcode {input : List UInt8} (unfinished : Unfinished input) (ne : input ≠ []) :
      Decoded address input ⟨address, input, .truncated⟩

theorem decode_of_ofBytes (address : UInt16) {input : List UInt8} (hne : input ≠ []) :
    decode address input =
      match Selection.ofBytes input with
      | .incomplete width => ⟨address, input.take width, .truncated⟩
      | .undefined opcode => ⟨address, input.take 2, .undefined opcode⟩
      | .pattern width p =>
        match p.read (address + UInt16.ofNat width) (input.drop width) with
        | .ok (s, taken) => ⟨address, input.take (width + taken), .statement s⟩
        | .error taken => ⟨address, input.take (width + taken), .truncated⟩ := by
  have hempty : input.isEmpty ≠ true := by simpa using hne
  exact if_neg hempty

theorem decode_of_selects (address : UInt16) {opcode : List UInt8} {p : Pattern}
    (h : Selects opcode p) (rest : List UInt8) :
    decode address (opcode ++ rest) =
      match p.read (address + UInt16.ofNat opcode.length) rest with
      | .ok (s, taken) => ⟨address, opcode ++ rest.take taken, .statement s⟩
      | .error taken => ⟨address, opcode ++ rest.take taken, .truncated⟩ := by
  have hne : opcode ++ rest ≠ [] := by
    have := h.length_pos
    intro he
    simp_all
  rw [decode_of_ofBytes address hne, Selection.ofBytes_of_selects h]
  simp only [List.drop_left, List.take_length_add_append]

theorem Decoded.decode_eq {address : UInt16} {input : List UInt8} {i : Instruction}
    (h : Decoded address input i) : decode address input = i := by
  cases h with
  | finished => rfl
  | complete selects read => rw [decode_of_selects address selects, read]
  | undefined none =>
    rw [decode_of_ofBytes address (List.cons_ne_nil _ _), Selection.ofBytes_undefined none]
    rfl
  | cutOperand selects read => rw [decode_of_selects address selects, read]
  | cutOpcode unfinished ne =>
    rw [decode_of_ofBytes address ne, Selection.ofBytes_of_unfinished unfinished]
    simp only [List.take_length]

theorem decoded_decode (address : UInt16) (input : List UInt8) :
    Decoded address input (decode address input) := by
  obtain ⟨opcode, p, rest, h, rfl⟩ | ⟨op, rest, h, rfl⟩ | h :=
    selects_or_undefined_or_unfinished input
  · cases hr : p.read (address + UInt16.ofNat opcode.length) rest with
    | ok r =>
      have hd : Decoded address (opcode ++ rest) _ := .complete h hr
      exact hd.decode_eq ▸ hd
    | error taken =>
      have hd : Decoded address (opcode ++ rest) _ := .cutOperand h hr
      exact hd.decode_eq ▸ hd
  · have hd : Decoded address (Prefix.extended.byte :: op :: rest) _ := .undefined h
    exact hd.decode_eq ▸ hd
  · rcases eq_or_ne input [] with rfl | hne
    · exact .finished
    · have hd : Decoded address input _ := .cutOpcode h hne
      exact hd.decode_eq ▸ hd

theorem decodeAt_zero (buffer : List UInt8) (base : UInt16) :
    decodeAt buffer 0 base = (decode base buffer, (decode base buffer).size) := by
  simp [decodeAt, Cursor.rest]

theorem decoded_decodeAt (buffer : List UInt8) (offset : ℕ) (base : UInt16) :
    Decoded (base + UInt16.ofNat offset) (buffer.drop offset) (decodeAt buffer offset base).1 :=
  decoded_decode _ _

theorem decoded_iff {address : UInt16} {input : List UInt8} {i : Instruction} :
    Decoded address input i ↔ decode address input = i :=
  ⟨Decoded.decode_eq, fun h => h ▸ decoded_decode address input⟩

namespace Decoded

variable {address : UInt16} {input : List UInt8} {i : Instruction}

theorem address_eq (h : Decoded address input i) : i.address = address := by
  cases h <;> rfl

theorem bytes_prefix (h : Decoded address input i) : i.bytes <+: input := by
  cases h with
  | finished => exact List.prefix_rfl
  | complete _ read => exact List.prefix_append_right_inj _ |>.mpr (List.take_prefix _ _)
  | undefined _ => exact ⟨_, rfl⟩
  | cutOperand _ read => exact List.prefix_append_right_inj _ |>.mpr (List.take_prefix _ _)
  | cutOpcode _ _ => exact List.prefix_rfl

/-- The bytes of an undefined pair are those that the kept opcode stands for. -/
theorem bytes_of_undefined (h : Decoded address input i) {op : UInt8}
    (hr : i.reading = .undefined op) :
    i.bytes = [Prefix.extended.byte, op] ∧ Pattern.extended? op = none := by
  cases h with
  | finished => cases hr
  | complete _ _ => cases hr
  | undefined none =>
    cases hr
    exact ⟨rfl, none⟩
  | cutOperand _ _ => cases hr
  | cutOpcode _ _ => cases hr

theorem size_le_four (h : Decoded address input i) : i.size ≤ 4 := by
  cases h with
  | finished => simp [Instruction.size]
  | complete selects read =>
    have := selects.length_add_width_le
    have := (Pattern.read_ok_taken read).1
    simp only [Instruction.size, List.length_append, List.length_take]
    omega
  | undefined _ => simp [Instruction.size]
  | cutOperand selects read =>
    have := selects.length_add_width_le
    have := (Pattern.read_error_taken read).1
    simp only [Instruction.size, List.length_append, List.length_take]
    omega
  | cutOpcode unfinished _ => exact unfinished.length_le.trans (by omega)

/-- Bytes behind a complete or undefined instruction have no influence on it. -/
theorem append (h : Decoded address input i) (hr : i.reading ≠ .truncated) (hne : input ≠ [])
    (more : List UInt8) : Decoded address (input ++ more) i := by
  cases h with
  | finished => exact absurd rfl hne
  | @complete opcode rest p s taken selects read =>
    have hle := (Pattern.read_ok_taken read).2
    have hd := complete selects (Pattern.read_append read more)
    rwa [List.take_append_of_le_length hle, ← List.append_assoc] at hd
  | undefined none => exact undefined none
  | cutOperand _ _ => exact absurd rfl hr
  | cutOpcode _ _ => exact absurd rfl hr

/-- Behind an instruction that is cut off there is at most the first half of a word. -/
theorem length_le_of_truncated (h : Decoded address input i) (hr : i.reading = .truncated) :
    input.length ≤ i.size + 1 := by
  cases h with
  | finished => cases hr
  | complete _ _ => cases hr
  | undefined _ => cases hr
  | cutOperand selects read =>
    have := Pattern.read_error_taken read
    simp only [Instruction.size, List.length_append, List.length_take]
    omega
  | cutOpcode _ _ => simp [Instruction.size]

end Decoded

end SpectrumListing.Z80
