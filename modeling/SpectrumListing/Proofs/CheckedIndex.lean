import Mathlib
import SpectrumListing.Proofs.CheckedDecoding
import SpectrumListing.Proofs.IndexSymmetry

/-!
# Index prefixes on machine words

The tables on bytes list the opcodes behind an index prefix case by case, and do not derive them
from the opcodes alone. Decoding with these tables has the results of `decode`, so the laws of index
prefixes hold for them as well, at every position of every buffer.
-/
namespace SpectrumListing.Checked

open Z80

variable {r s : Reader} {base base' : UInt16} {i j : IndexRegister} {op d : UInt8}
  {rest : List UInt8}

theorem decode_eq_of_decodeAt {k : Instruction} {next : UInt64}
    (h : decodeAt r base = .ok (k, next)) : decode (r.address base) r.cursor.rest = k := by
  rw [decodeAt_eq_decode] at h
  cases h
  rfl

/-- In front of an opcode that it does not concern, the prefix only adds its byte. -/
theorem decodeAt_prefix_transparent (hs : isIndexSensitive op = false)
    (hp : op ≠ 0xDD ∧ op ≠ 0xED ∧ op ≠ 0xFD)
    (hr : r.cursor.rest = i.prefixByte :: op :: rest) :
    ∃ plain next, decodeAt (r.advance 1) base = .ok (plain, next) ∧
      decodeAt r base =
        .ok (⟨r.address base, i.prefixByte :: plain.bytes, plain.reading⟩, next) := by
  have hnone := Prefix.ofByte?_eq_none_of_not_sensitive hs hp
  have haddress : (r.advance 1).address base = r.address base + 1 := r.address_advance base 1
  refine ⟨_, _, decodeAt_eq_decode _ _, ?_⟩
  rw [decodeAt_eq_decode, hr, decode_index_cons i hs hnone, Reader.rest_advance_one hr, haddress,
    Reader.advance_advance]
  simp only [Instruction.size, List.length_cons, Nat.add_comm]

section Substitution

variable {plain : Instruction} {next : UInt64} (hs : isIndexSensitive op = true) (hb : op ≠ 0xCB)
  (hr : r.cursor.rest = op :: rest) (haddress : s.address base' = r.address base)
  (hplain : decodeAt r base = .ok (plain, next)) (hwhole : plain.isTruncated = false)

include hs hb hr haddress hplain hwhole

/-- Memory at HL becomes memory at the index register plus a displacement byte. -/
theorem decodeAt_prefix_memory (he : op ≠ 0xE9) (hm : "(HL)" ∈ operandTexts plain.mnemonic)
    (hrest : s.cursor.rest = i.prefixByte :: op :: d :: rest) :
    ∃ indexed next', decodeAt s base' = .ok (indexed, next') ∧
      indexed.mnemonic = replaceOperands (displaceMemory i d) plain.mnemonic ∧
      indexed.size = plain.size + 2 := by
  obtain rfl := decode_eq_of_decodeAt hplain
  rw [hr] at hwhole hm ⊢
  refine ⟨_, _, decodeAt_eq_decode _ _, ?_⟩
  rw [hrest, haddress]
  exact decode_index_of_memory i hs hb he hwhole hm d

/-- Without memory at HL, the index register and its halves take the places of HL, H and L. -/
theorem decodeAt_prefix_register (hm : "(HL)" ∉ operandTexts plain.mnemonic ∨ op = 0xE9)
    (hrest : s.cursor.rest = i.prefixByte :: op :: rest) :
    ∃ indexed next', decodeAt s base' = .ok (indexed, next') ∧
      indexed.mnemonic = replaceOperands (renameHL i) plain.mnemonic ∧
      indexed.size = plain.size + 1 := by
  obtain rfl := decode_eq_of_decodeAt hplain
  rw [hr] at hwhole hm ⊢
  refine ⟨_, _, decodeAt_eq_decode _ _, ?_⟩
  rw [hrest, haddress]
  exact decode_index_of_not_memory i hs hb hwhole hm

end Substitution

/-- Behind the prefix and CB, the opcode for memory at HL works on displaced memory, and a register
that is named beside it receives the result. -/
theorem decodeAt_prefix_bits (hr : r.cursor.rest = i.prefixByte :: 0xCB :: d :: op :: rest)
    (hs : s.cursor.rest = [0xCB, onMemory op]) :
    ∃ indexed plain next next', decodeAt r base = .ok (indexed, next) ∧
      decodeAt s base' = .ok (plain, next') ∧ indexed.size = 4 ∧
      let f := Fields.ofByte op
      let displaced := replaceOperands (displaceMemory i d) plain.mnemonic
      indexed.mnemonic =
        if f.z = 6 ∨ f.x = 1 then displaced
        else displaced ++ ", " ++ NameTable.register (UInt8.ofNat f.z.val) := by
  refine ⟨_, _, _, _, decodeAt_eq_decode _ _, decodeAt_eq_decode _ _, ?_⟩
  rw [hr, hs, decode_index_bits, decode_bits]
  exact ⟨rfl, Statement.indexedBits_text i d op⟩

/-- The prefixes of the two index registers take the same bytes. Both instructions are cut off, or
one text becomes the other when the index register is renamed. -/
theorem decodeAt_prefix_symmetric (hij : i ≠ j) (hr : r.cursor.rest = i.prefixByte :: rest)
    (hs : s.cursor.rest = j.prefixByte :: rest) (haddress : s.address base' = r.address base) :
    ∃ a b next next', decodeAt r base = .ok (a, next) ∧ decodeAt s base' = .ok (b, next') ∧
      (∃ behind, a.bytes = i.prefixByte :: behind ∧ b.bytes = j.prefixByte :: behind) ∧
      (a.reading = .truncated ∧ b.reading = .truncated ∨
        b.mnemonic = replaceOperands (renameIndex i j) a.mnemonic) := by
  refine ⟨_, _, _, _, decodeAt_eq_decode _ _, decodeAt_eq_decode _ _, ?_⟩
  rw [hr, hs, haddress]
  obtain ⟨behind, hcut | ⟨statement, hnamed, hstatement⟩⟩ :=
    decode_index_uniform (r.address base) rest
  · rw [hcut, hcut]
    exact ⟨⟨behind, rfl, rfl⟩, .inl ⟨rfl, rfl⟩⟩
  · rw [hstatement, hstatement]
    exact ⟨⟨behind, rfl, rfl⟩, .inr (Statement.renameIndex_withIndex_text hij hnamed).symm⟩

end SpectrumListing.Checked
