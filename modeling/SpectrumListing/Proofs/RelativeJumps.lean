import Mathlib
import SpectrumListing.Proofs.IndexSubstitution
import SpectrumListing.Proofs.InstructionLength

/-!
# Relative jumps

The bytes of an instruction determine its mnemonic wherever they stand, with one exception: a
relative jump is listed with its target, and that depends on the address. The target is counted from
the end of the instruction, also when an index prefix stands in front, and wraps at 65536.
-/
namespace SpectrumListing

theorem toNat_add_signExtend (a : UInt16) (n : ℕ) (d : UInt8) :
    (a + UInt16.ofNat n + signExtend d).toNat =
      ((a.toNat + n + signedByte d) % 65536).toNat := by
  have hd := d.toNat_lt
  unfold signExtend
  split_ifs with h
  · rw [signedByte_of_lt h]
    simp only [UInt16.toNat_add, UInt16.toNat_ofNat']
    omega
  · rw [signedByte_of_not_lt h]
    simp only [UInt16.toNat_add, UInt16.toNat_ofNat']
    omega

namespace Z80

/-- The relative jumps, with their texts up to the target. -/
def jumpTexts : List (UInt8 × String) :=
  [(0x10, "DJNZ "), (0x18, "JR "), (0x20, "JR NZ, "), (0x28, "JR Z, "), (0x30, "JR NC, "),
    (0x38, "JR C, ")]

/-- The text up to the target, if the bytes are a relative jump, bare or behind an index prefix. -/
def jumpText? : List UInt8 → Option String
  | [op, _] => jumpTexts.lookup op
  | [lead, op, _] => if lead ∈ [0xDD, 0xFD] then jumpTexts.lookup op else none
  | _ => none

namespace Slot

theorem readAll_eq_of_not_relative {slots : List Slot} (hs : relative ∉ slots)
    (here here' : UInt16) (input : List UInt8) :
    readAll here slots input = readAll here' slots input := by
  induction slots generalizing here here' input with
  | nil => rfl
  | cons s slots ih =>
    rw [List.mem_cons, not_or] at hs
    have hhead : s.read? here input = s.read? here' input := by
      cases s with
      | relative => exact absurd rfl hs.1
      | _ => rcases input with _ | ⟨a, _ | ⟨b, rest⟩⟩ <;> rfl
    have htail := ih hs.2 (here + UInt16.ofNat s.width) (here' + UInt16.ofNat s.width)
    simp only [readAll, hhead, htail]

theorem readAll_fixed_append (here : UInt16) (fixed : List Operand) (slots : List Slot)
    (input : List UInt8) :
    readAll here (fixed.map .fixed ++ slots) input =
      (readAll here slots input).map fun (operands, taken) => (fixed ++ operands, taken) := by
  induction fixed generalizing here with
  | nil => cases h : readAll here slots input <;> simp [h, Except.map]
  | cons o fixed ih =>
    have hhere : here + UInt16.ofNat 0 = here := UInt16.add_zero here
    simp only [List.map_cons, List.cons_append, readAll, read?, width, hhere, List.drop_zero, ih]
    cases readAll here slots input <;> simp [Except.map]

end Slot

namespace Pattern

theorem read_eq_of_not_relative {p : Pattern} (hp : Slot.relative ∉ p.slots) (here here' : UInt16)
    (input : List UInt8) : p.read here input = p.read here' input := by
  rw [read, read, Slot.readAll_eq_of_not_relative hp here here']

theorem relative_mem (op : UInt8) :
    (Slot.relative ∈ (plain op).slots →
        (jumpTexts.lookup op).isSome = true ∧ (plain op).width = 1) ∧
      (∀ p ∈ extended? op, Slot.relative ∉ p.slots) ∧
      ∀ i, Slot.relative ∈ ((plain op).indexed i).slots →
        (jumpTexts.lookup op).isSome = true ∧ ((plain op).indexed i).width = 1 := by
  revert op
  decide +kernel

end Pattern

theorem Selects.jumpText?_of_relative {opcode : List UInt8} {p : Pattern} (h : Selects opcode p)
    (hr : Slot.relative ∈ p.slots) :
    p.width = 1 ∧ ∀ d, (jumpText? (opcode ++ [d])).isSome = true := by
  cases h with
  | @plain op _ =>
    obtain ⟨hsome, hwidth⟩ := (Pattern.relative_mem op).1 hr
    exact ⟨hwidth, fun _ => hsome⟩
  | bits op => simp [Pattern.ofStatement] at hr
  | @extended op p h => exact absurd hr ((Pattern.relative_mem op).2.1 p h)
  | @index i op _ =>
    obtain ⟨hsome, hwidth⟩ := (Pattern.relative_mem op).2.2 i hr
    refine ⟨hwidth, fun _ => ?_⟩
    cases i <;> exact hsome
  | indexBits i d op => simp [Pattern.ofStatement] at hr

theorem plain_jump {op : UInt8} {text : String} (h : jumpTexts.lookup op = some text) :
    Prefix.ofByte? op = none ∧ isIndexSensitive op = false ∧
      ∃ fixed, (Pattern.plain op).slots = fixed.map .fixed ++ [.relative] ∧
        ∀ o : Operand, Statement.text ⟨(Pattern.plain op).operation, fixed ++ [o]⟩ =
          text ++ o.text := by
  obtain ⟨front, back, hsplit, -⟩ := List.lookup_eq_some_iff.mp h
  have hmem : (op, text) ∈ jumpTexts := by simp [hsplit]
  have hbare (name : Operation) (o : Operand) :
      Statement.text ⟨name, [o]⟩ = name.name ++ " " ++ o.text := by
    simp [Statement.text]
  have htest (name : Operation) (test : Condition) (o : Operand) :
      Statement.text ⟨name, [.condition test, o]⟩ =
        name.name ++ " " ++ test.name ++ ", " ++ o.text := by
    simp [Statement.text, Operand.text, String.append_assoc]
  simp only [jumpTexts, List.mem_cons, Prod.mk.injEq, List.not_mem_nil, or_false] at hmem
  rcases hmem with ⟨rfl, rfl⟩ | ⟨rfl, rfl⟩ | ⟨rfl, rfl⟩ | ⟨rfl, rfl⟩ | ⟨rfl, rfl⟩ | ⟨rfl, rfl⟩
  · exact ⟨rfl, rfl, [], rfl, hbare .djnz⟩
  · exact ⟨rfl, rfl, [], rfl, hbare .jr⟩
  · exact ⟨rfl, rfl, [.condition .nz], rfl, htest .jr .nz⟩
  · exact ⟨rfl, rfl, [.condition .z], rfl, htest .jr .z⟩
  · exact ⟨rfl, rfl, [.condition .nc], rfl, htest .jr .nc⟩
  · exact ⟨rfl, rfl, [.condition .c], rfl, htest .jr .c⟩

theorem decode_jump {op : UInt8} {text : String} (h : jumpTexts.lookup op = some text)
    (address : UInt16) (d : UInt8) :
    ∃ s : Statement, decode address [op, d] = ⟨address, [op, d], .statement s⟩ ∧
      s.text = text ++ "0x" ++ Hex.word (address + 2 + signExtend d) := by
  obtain ⟨hp, -, fixed, hslots, htext⟩ := plain_jump h
  have hnext : address + 2 = address + UInt16.ofNat 1 + 1 := by
    rw [UInt16.add_assoc]
    rfl
  have hall : Slot.readAll (address + UInt16.ofNat 1) (Pattern.plain op).slots [d] =
      .ok (fixed ++ [.word (address + 2 + signExtend d)], 1) := by
    rw [hslots, Slot.readAll_fixed_append, hnext]
    rfl
  have hd := decode_of_selects address (Selects.plain hp) [d]
  rw [List.length_singleton, Pattern.read_of_readAll hall] at hd
  refine ⟨_, hd, ?_⟩
  rw [htext, String.append_assoc]
  rfl

namespace Decoded

variable {address address' : UInt16} {input input' : List UInt8} {i j : Instruction}

theorem mnemonic_of_not_statement (h : Decoded address input i)
    (hs : ¬ ∃ s, i.reading = .statement s) :
    i.mnemonic = if i.bytes = [] then "END" else dataText i.bytes := by
  cases h with
  | finished => rfl
  | complete _ _ => exact absurd ⟨_, rfl⟩ hs
  | undefined _ => rfl
  | cutOperand selects _ =>
    have := selects.length_pos
    rw [if_neg]
    · rfl
    · intro he
      simp_all
  | cutOpcode _ ne => exact (if_neg ne).symm

/-- Away from relative jumps a statement does not depend on the address. -/
theorem reading_congr {bytes : List UInt8} {s : Statement} (hi : Decoded address bytes i)
    (hb : i.bytes = bytes) (hn : jumpText? bytes = none) (hs : i.reading = .statement s)
    (hj : Decoded address' bytes j) : j.reading = .statement s := by
  cases hi with
  | finished => cases hs
  | undefined _ => cases hs
  | cutOperand _ _ => cases hs
  | cutOpcode _ _ => cases hs
  | @complete opcode rest p s taken selects read =>
    cases hs
    have hrel : Slot.relative ∉ p.slots := by
      intro hrel
      obtain ⟨hwidth, hjump⟩ := selects.jumpText?_of_relative hrel
      obtain ⟨htaken, hle⟩ := Pattern.read_ok_taken read
      have hrest : rest.length = 1 := by
        have hlen := congrArg List.length (List.append_cancel_left hb)
        rw [List.length_take] at hlen
        omega
      obtain ⟨d, rfl⟩ := List.length_eq_one_iff.mp hrest
      have hsome := hjump d
      rw [hn] at hsome
      cases hsome
    rw [Pattern.read_eq_of_not_relative hrel _ (address' + UInt16.ofNat opcode.length)] at read
    rw [← hj.decode_eq, (complete selects read).decode_eq]

theorem mnemonic_eq_of_bytes_eq (hi : Decoded address input i) (hj : Decoded address' input' j)
    (hb : i.bytes = j.bytes) (hn : jumpText? i.bytes = none) : i.mnemonic = j.mnemonic := by
  have hi' := hi.self
  have hj' := hj.self
  by_cases hs : ∃ s, i.reading = .statement s
  · obtain ⟨s, hs⟩ := hs
    rw [← hb] at hj'
    have ht := hi'.reading_congr rfl hn hs hj'
    simp only [Instruction.mnemonic, hs, ht]
  · by_cases ht : ∃ s, j.reading = .statement s
    · obtain ⟨s, ht⟩ := ht
      rw [hb] at hi' hn
      exact absurd ⟨s, hj'.reading_congr rfl hn ht hi'⟩ hs
    · rw [hi.mnemonic_of_not_statement hs, hj.mnemonic_of_not_statement ht, hb]

theorem mnemonic_of_jump {text : String} (h : Decoded address input i)
    (hj : jumpText? i.bytes = some text) :
    ∃ d, i.bytes.getLast? = some d ∧
      i.mnemonic = text ++ "0x" ++ Hex.word (address + UInt16.ofNat i.size + signExtend d) := by
  have hself := h.self.decode_eq
  unfold jumpText? at hj
  split at hj
  · next op d he =>
    obtain ⟨s, hd, htext⟩ := decode_jump hj address d
    rw [he, hd] at hself
    subst hself
    exact ⟨d, rfl, htext⟩
  · next lead op d he =>
    split_ifs at hj with hlead
    obtain ⟨r, rfl⟩ : ∃ r : IndexRegister, lead = r.prefixByte := by
      simp only [List.mem_cons, List.not_mem_nil, or_false] at hlead
      rcases hlead with rfl | rfl
      · exact ⟨.ix, rfl⟩
      · exact ⟨.iy, rfl⟩
    obtain ⟨hp, hs, -⟩ := plain_jump hj
    obtain ⟨s, hd, htext⟩ := decode_jump hj (address + 1) d
    rw [he, decode_index_cons r hs hp, hd] at hself
    subst hself
    have hend : address + 1 + 2 = address + UInt16.ofNat 3 := by
      rw [UInt16.add_assoc]
      rfl
    rw [hend] at htext
    exact ⟨d, rfl, htext⟩
  · cases hj

end Decoded

/-- Equal bytes have equal mnemonics at any two places, unless they are a relative jump. Such a jump
is listed with the address that its last byte, read as a signed distance, adds to the address behind
it. -/
theorem decodeAt_position_law {buffer buffer' : List UInt8} {offset offset' next next' : ℕ}
    {base base' : UInt16} {i j : Instruction} (hi : decodeAt buffer offset base = (i, next))
    (hj : decodeAt buffer' offset' base' = (j, next')) :
    (i.bytes = j.bytes → jumpText? i.bytes = none → i.mnemonic = j.mnemonic) ∧
    i.address.toNat = (base.toNat + offset) % 65536 ∧
    ∀ text, jumpText? i.bytes = some text → ∃ d digits,
      i.bytes.getLast? = some d ∧ i.mnemonic = text ++ "0x" ++ digits ∧
        Hex.IsWord digits.toList ((i.address.toNat + i.size + signedByte d) % 65536).toNat := by
  have hdi := (decoded_of_decodeAt_eq hi).1
  have hdj := (decoded_of_decodeAt_eq hj).1
  refine ⟨hdi.mnemonic_eq_of_bytes_eq hdj, ?_, fun text hjump => ?_⟩
  · rw [hdi.address_eq, UInt16.toNat_add, UInt16.toNat_ofNat']
    omega
  · obtain ⟨d, hlast, htext⟩ := hdi.mnemonic_of_jump hjump
    refine ⟨d, _, hlast, htext, ?_⟩
    rw [hdi.address_eq, ← toNat_add_signExtend]
    exact Hex.isWord_word _

theorem decodeAt_position_law_jump_below_zero :
    let load := (decodeAt [0x3E, 0x12] 0 0x0000).1
    let moved := (decodeAt [0xFF, 0x3E, 0x12, 0xC9] 1 0x8000).1
    let jump := (decodeAt [0x00, 0xFD, 0x20, 0x80] 1 0x0010).1
    load.bytes = moved.bytes ∧ load.mnemonic = moved.mnemonic ∧
      jumpText? jump.bytes = some "JR NZ, " ∧
      ∃ digits, jump.mnemonic = "JR NZ, " ++ "0x" ++ digits ∧ Hex.IsWord digits.toList 0xFF94 := by
  intro load moved jump
  have hload : decodeAt [0x3E, 0x12] 0 0x0000 = (load, 2) := rfl
  have hmoved : decodeAt [0xFF, 0x3E, 0x12, 0xC9] 1 0x8000 = (moved, 3) := rfl
  have hjump : decodeAt [0x00, 0xFD, 0x20, 0x80] 1 0x0010 = (jump, 4) := rfl
  have hsame := (decodeAt_position_law hload hmoved).1 rfl rfl
  obtain ⟨d, digits, hlast, htext, hdigits⟩ :=
    (decodeAt_position_law hjump hjump).2.2 "JR NZ, " rfl
  obtain rfl : 0x80 = d := Option.some.inj hlast
  have hvalue : ((jump.address.toNat + jump.size + signedByte 0x80) % 65536).toNat = 0xFF94 := by
    decide
  refine ⟨rfl, hsame, rfl, digits, htext, ?_⟩
  rw [← hvalue]
  exact hdigits

end Z80

end SpectrumListing
