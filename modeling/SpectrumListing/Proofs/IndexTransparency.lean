import Mathlib
import SpectrumListing.Proofs.Mnemonic

/-!
# Index prefixes in front of opcodes they do not concern

An index prefix acts on the opcodes that use HL, its halves or memory at HL. In front of any other
opcode it only lengthens the instruction: the reading is that of the opcode alone, at its own
address, whether the input lasts or not. Here `Pattern.indexed` derives the opcodes behind a prefix;
the table that lists them case by case is equal to it by `Checked.indexed_eq`, and
`Checked.decodeAt_prefix_transparent` is the law for that table.
-/
namespace SpectrumListing.Z80

/-- The register fields for H, L and memory at HL. -/
def concernsHL (r : Fin 8) : Bool := 4 ≤ r.val && r.val ≤ 6

/-- Whether an index prefix changes what the opcode means. -/
def isIndexSensitive (op : UInt8) : Bool :=
  let f := Fields.ofByte op
  match f.x, f.z with
  | 0, 1 => f.p.val == 2 || f.q.val == 1
  | 0, 2 | 0, 3 => f.p.val == 2
  | 0, 4 | 0, 5 | 0, 6 => concernsHL f.y
  | 1, _ => concernsHL f.y || concernsHL f.z
  | 2, _ => concernsHL f.z
  | 3, _ => op ∈ [0xCB, 0xE1, 0xE3, 0xE5, 0xE9, 0xF9]
  | _, _ => false

theorem Pattern.indexed_plain_eq_self (i : IndexRegister) {op : UInt8}
    (hs : isIndexSensitive op = false) : (plain op).indexed i = plain op := by
  revert i op
  decide +kernel

theorem Prefix.ofByte?_eq_none_of_not_sensitive {op : UInt8} (hs : isIndexSensitive op = false)
    (hp : op ≠ 0xDD ∧ op ≠ 0xED ∧ op ≠ 0xFD) : ofByte? op = none := by
  cases h : ofByte? op with
  | none => rfl
  | some p =>
    have he := ofByte?_eq_some h
    rcases p with _ | _ | ⟨_ | _⟩
    · subst he
      cases hs
    · exact absurd he hp.2.1
    · exact absurd he hp.1
    · exact absurd he hp.2.2

/-- The prefix adds its byte in front and leaves the reading alone. -/
theorem decode_index_cons (i : IndexRegister) {op : UInt8} (hs : isIndexSensitive op = false)
    (hp : Prefix.ofByte? op = none) (address : UInt16) (rest : List UInt8) :
    decode address (i.prefixByte :: op :: rest) =
      ⟨address, i.prefixByte :: (decode (address + 1) (op :: rest)).bytes,
        (decode (address + 1) (op :: rest)).reading⟩ := by
  have hbits : op ≠ Prefix.bits.byte := by
    rintro rfl
    cases hp
  have outer := decode_of_selects address (Selects.index i hbits) rest
  have inner := decode_of_selects (address + 1) (Selects.plain hp) rest
  have here : address + UInt16.ofNat 2 = address + 1 + UInt16.ofNat 1 := by
    rw [UInt16.add_assoc]
    rfl
  simp only [List.cons_append, List.nil_append, List.length_cons, List.length_nil, Nat.reduceAdd,
    Pattern.indexed_plain_eq_self i hs, here] at outer inner
  rw [outer, inner]
  cases (Pattern.plain op).read (address + 1 + UInt16.ofNat 1) rest <;> rfl

theorem reading_decode_plain {op : UInt8} (hp : Prefix.ofByte? op = none) (address : UInt16)
    (rest : List UInt8) :
    (∃ s, (decode address (op :: rest)).reading = .statement s) ∨
      (decode address (op :: rest)).reading = .truncated := by
  have hd := decode_of_selects address (Selects.plain hp) rest
  rw [List.singleton_append] at hd
  rw [hd]
  cases (Pattern.plain op).read (address + UInt16.ofNat [op].length) rest with
  | ok r => exact .inl ⟨r.1, rfl⟩
  | error _ => exact .inr rfl

theorem drop_eq_cons_of_getElem? {buffer : List UInt8} {offset : ℕ} {b : UInt8}
    (h : buffer[offset]? = some b) : buffer.drop offset = b :: buffer.drop (offset + 1) := by
  obtain ⟨hlt, rfl⟩ := List.getElem?_eq_some_iff.mp h
  exact List.drop_eq_getElem_cons hlt

/-- An opcode that an index prefix does not concern is listed the same with and without it. When the
input ends inside the opcode's operands, the data that is listed has the prefix in front. -/
theorem decodeAt_index_transparent {buffer : List UInt8} {offset : ℕ} {lead op : UInt8}
    (base : UInt16) (hlead : buffer[offset]? = some lead) (hi : lead = 0xDD ∨ lead = 0xFD)
    (hop : buffer[offset + 1]? = some op) (hs : isIndexSensitive op = false)
    (hp : op ≠ 0xDD ∧ op ≠ 0xED ∧ op ≠ 0xFD) :
    (decodeAt buffer offset base).2 = (decodeAt buffer (offset + 1) base).2 ∧
    (decodeAt buffer offset base).1.bytes = lead :: (decodeAt buffer (offset + 1) base).1.bytes ∧
    (decodeAt buffer offset base).1.mnemonic =
      if (decodeAt buffer (offset + 1) base).1.isTruncated then
        dataText (lead :: (decodeAt buffer (offset + 1) base).1.bytes)
      else (decodeAt buffer (offset + 1) base).1.mnemonic := by
  obtain ⟨i, rfl⟩ : ∃ i : IndexRegister, lead = i.prefixByte := by
    rcases hi with rfl | rfl
    · exact ⟨.ix, rfl⟩
    · exact ⟨.iy, rfl⟩
  have hnone := Prefix.ofByte?_eq_none_of_not_sensitive hs hp
  have hnext : base + UInt16.ofNat (offset + 1) = base + UInt16.ofNat offset + 1 := by
    rw [UInt16.ofNat_add, UInt16.add_assoc]
    rfl
  have houter := drop_eq_cons_of_getElem? hlead
  rw [drop_eq_cons_of_getElem? hop] at houter
  simp only [decodeAt, Cursor.rest, houter, drop_eq_cons_of_getElem? hop, hnext,
    decode_index_cons i hs hnone]
  have htruncated := (decoded_decode (base + UInt16.ofNat offset + 1)
    (op :: buffer.drop (offset + 1 + 1))).isTruncated_iff
  have hcases := reading_decode_plain hnone (base + UInt16.ofNat offset + 1)
    (buffer.drop (offset + 1 + 1))
  generalize decode (base + UInt16.ofNat offset + 1) (op :: buffer.drop (offset + 1 + 1)) = inner
    at htruncated hcases ⊢
  refine ⟨by simp only [Instruction.size, List.length_cons]; omega, trivial, ?_⟩
  rcases hcases with ⟨s, hr⟩ | hr
  · have hfalse : inner.isTruncated = false := by simp [Bool.eq_false_iff, htruncated, hr]
    simp [Instruction.mnemonic, hr, hfalse]
  · simp [Instruction.mnemonic, hr, htruncated.mpr hr]

theorem decodeAt_index_transparent_cut_off :
    isIndexSensitive 0xC3 = false ∧
    let outer := decodeAt [0x00, 0xDD, 0xC3, 0x12] 1 0xFFFE
    let inner := decodeAt [0x00, 0xDD, 0xC3, 0x12] 2 0xFFFE
    outer.2 = inner.2 ∧ outer.1.bytes = 0xDD :: inner.1.bytes ∧
      outer.1.mnemonic =
        if inner.1.isTruncated then dataText (0xDD :: inner.1.bytes) else inner.1.mnemonic :=
  ⟨rfl, decodeAt_index_transparent 0xFFFE rfl (.inl rfl) rfl rfl (by decide)⟩

end SpectrumListing.Z80
