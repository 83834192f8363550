import Mathlib
import SpectrumListing.Proofs.Assembler
import SpectrumListing.Proofs.IndexTransparency
import SpectrumListing.Proofs.OperandText

/-!
# Index prefixes in front of opcodes that use HL

What an index prefix does to a mnemonic can be told from the text. If memory at HL is among the
operands, it becomes memory at the index register plus the displacement byte behind the opcode, and
everything else stays. Otherwise the index register and its halves take the places of HL, H and L.
No further opcode has such an operand, apart from the exchange of DE with HL. For the table that
lists the opcodes behind a prefix case by case, which `Checked.indexed_eq` equates with
`Pattern.indexed`, the laws are `Checked.decodeAt_prefix_memory` and
`Checked.decodeAt_prefix_register`.
-/
namespace SpectrumListing

theorem signedByte_of_lt {b : UInt8} (h : b < 0x80) : signedByte b = b.toNat := by
  have hb : b.toNat < 128 := UInt8.lt_iff_toNat_lt.mp h
  unfold signedByte
  simp only [Int.bmod_def]
  omega

theorem signedByte_of_not_lt {b : UInt8} (h : ¬ b < 0x80) : signedByte b = b.toNat - 256 := by
  have hb : 128 ≤ b.toNat := by simpa using mt UInt8.lt_iff_toNat_lt.mpr h
  have hlt := b.toNat_lt
  unfold signedByte
  simp only [Int.bmod_def]
  omega

namespace Z80

/-- A number from -128 to 127 in hexadecimal, behind its sign. -/
def signedText (n : ℤ) : String :=
  (if 0 ≤ n then "+0x" else "-0x") ++ Hex.byte (UInt8.ofNat n.natAbs)

/-- Memory at an index register plus a displacement takes the place of memory at HL. -/
def displaceMemory (i : IndexRegister) (d : UInt8) (operand : String) : String :=
  if operand = "(HL)" then "(" ++ i.name ++ signedText (signedByte d) ++ ")" else operand

/-- An index register and its halves take the places of HL, H and L. -/
def renameHL (i : IndexRegister) (operand : String) : String :=
  if operand = "HL" then i.name
  else if operand = "H" then i.name ++ "H"
  else if operand = "L" then i.name ++ "L"
  else if operand = "(HL)" then "(" ++ i.name ++ ")"
  else operand

namespace Operand

theorem displacementText_eq (d : UInt8) : displacementText d = signedText (signedByte d) := by
  have hlt := d.toNat_lt
  unfold displacementText signedText
  by_cases hd : d < 0x80
  · simp [hd, signedByte_of_lt]
  · have habs : (d.toNat - 256 : ℤ).natAbs = 256 - d.toNat := by omega
    have hneg : UInt8.ofNat (256 - d.toNat) = 0 - d := by
      apply UInt8.toNat_inj.mp
      simp
    rw [if_neg hd, signedByte_of_not_lt hd, if_neg (by omega), habs, hneg]

/-- The operands that name HL, one of its halves or memory at HL. -/
def usesHL : List Operand := [pair .hl, register .h, register .l, atPair .hl]

theorem text_mem_iff {o : Operand} : o.text ∈ ["HL", "H", "L", "(HL)"] ↔ o ∈ usesHL := by
  change o.text ∈ usesHL.map text ↔ o ∈ usesHL
  constructor
  · intro h
    obtain ⟨p, hp, he⟩ := List.mem_map.mp h
    have hc : ∀ p ∈ usesHL, p.spelled ≠ register .c := by decide
    exact eq_of_text_eq he.symm (hc p hp) ▸ hp
  · exact List.mem_map_of_mem

theorem text_eq_memory_iff {o : Operand} : o.text = "(HL)" ↔ o = atPair .hl :=
  ⟨fun h => eq_of_text_eq h (by decide), fun h => h ▸ rfl⟩

def displace (i : IndexRegister) (d : UInt8) (o : Operand) : Operand :=
  if o = atPair .hl then displaced i d else o

theorem displaceMemory_text (i : IndexRegister) (d : UInt8) (o : Operand) :
    displaceMemory i d o.text = (o.displace i d).text := by
  unfold displaceMemory displace
  by_cases ho : o = atPair .hl
  · rw [if_pos ho, if_pos (text_eq_memory_iff.mpr ho), ← displacementText_eq]
    rfl
  · rw [if_neg ho, if_neg (mt text_eq_memory_iff.mp ho)]

theorem indexed_eq_self {o : Operand} (h : o ∉ usesHL) (i : IndexRegister) : o.indexed i = o := by
  cases o with
  | register reg =>
    cases reg with
    | h => exact absurd (by decide) h
    | l => exact absurd (by decide) h
    | _ => rfl
  | pair p =>
    cases p with
    | hl => exact absurd (by decide) h
    | _ => rfl
  | atPair p =>
    cases p with
    | hl => exact absurd (by decide) h
    | _ => rfl
  | _ => rfl

theorem renameHL_text (i : IndexRegister) (o : Operand) :
    renameHL i o.text = (o.indexed i).text := by
  by_cases ho : o ∈ usesHL
  · simp only [usesHL, List.mem_cons, List.not_mem_nil, or_false] at ho
    rcases ho with rfl | rfl | rfl | rfl <;> cases i <;> rfl
  · have htext := mt text_mem_iff.mp ho
    simp only [List.mem_cons, List.not_mem_nil, or_false, not_or] at htext
    obtain ⟨hpair, hhigh, hlow, hmemory⟩ := htext
    rw [indexed_eq_self ho, renameHL, if_neg hpair, if_neg hhigh, if_neg hlow, if_neg hmemory]

end Operand

namespace Slot

theorem read?_congr {here : UInt16} {s : Slot} {input : List UInt8} {o : Operand}
    (h : s.read? here input = some o) (hs : s ≠ relative) (here' : UInt16) :
    s.read? here' input = some o := by
  cases s with
  | relative => exact absurd rfl hs
  | _ => rcases input with _ | ⟨a, _ | ⟨b, rest⟩⟩ <;> exact h

theorem eq_fixed_of_read? {here : UInt16} {s : Slot} {input : List UInt8} {o : Operand}
    (h : s.read? here input = some o) (ho : o ∈ Operand.usesHL) : s = fixed o := by
  cases s with
  | fixed p =>
    cases h
    rfl
  | _ => rcases input with _ | ⟨a, _ | ⟨b, rest⟩⟩ <;> cases h <;> simp [Operand.usesHL] at ho

theorem mem_iff_of_readAll {here : UInt16} {slots : List Slot} {input : List UInt8}
    {operands : List Operand} {taken : ℕ} (h : readAll here slots input = .ok (operands, taken))
    {o : Operand} (hu : o ∈ Operand.usesHL) : o ∈ operands ↔ fixed o ∈ slots := by
  induction slots generalizing here input operands taken with
  | nil =>
    cases h
    simp
  | cons s slots ih =>
    obtain ⟨p, os, n, hp, hr, rfl, rfl⟩ := readAll_cons_ok h
    have hhead : o = p ↔ fixed o = s := by
      constructor
      · rintro rfl
        exact (eq_fixed_of_read? hp hu).symm
      · rintro rfl
        exact Option.some.inj hp
    rw [List.mem_cons, List.mem_cons, hhead, ih hr]

/-- Slots that read corresponding operands one by one do so together. -/
theorem readAll_map {slots : List Slot} {φ : Slot → Slot} {γ : Operand → Operand}
    (hφ : ∀ s ∈ slots, (φ s).width = s.width ∧ ∀ here here' input o,
      s.read? here input = some o → (φ s).read? here' input = some (γ o))
    {here : UInt16} {input : List UInt8} {operands : List Operand} {taken : ℕ}
    (h : readAll here slots input = .ok (operands, taken)) (here' : UInt16) :
    readAll here' (slots.map φ) input = .ok (operands.map γ, taken) := by
  induction slots generalizing here here' input operands taken with
  | nil =>
    cases h
    rfl
  | cons s slots ih =>
    obtain ⟨o, os, n, ho, hr, rfl, rfl⟩ := readAll_cons_ok h
    obtain ⟨hwidth, hread⟩ := hφ s (by simp)
    have htail := ih (fun t ht => hφ t (by simp [ht])) hr (here' + UInt16.ofNat s.width)
    simp only [List.map_cons, readAll, hread _ here' _ _ ho, hwidth, htail]

/-- A slot behind an index prefix whose opcode takes no displacement. -/
def rename (i : IndexRegister) : Slot → Slot
  | fixed o => fixed (o.indexed i)
  | s => s

theorem readAll_rename (i : IndexRegister) {slots : List Slot} (hs : relative ∉ slots)
    {here : UInt16} {input : List UInt8} {operands : List Operand} {taken : ℕ}
    (h : readAll here slots input = .ok (operands, taken)) (here' : UInt16) :
    readAll here' (slots.map (rename i)) input =
      .ok (operands.map (Operand.indexed i), taken) := by
  refine readAll_map (fun s hmem => ⟨by cases s <;> rfl, fun a b cs o ho => ?_⟩) h here'
  cases s with
  | fixed p =>
    cases ho
    rfl
  | _ =>
    have hu : o ∉ Operand.usesHL := fun hu => by cases eq_fixed_of_read? ho hu
    rw [Operand.indexed_eq_self hu]
    exact read?_congr ho (fun he => hs (he ▸ hmem)) b

/-- A slot behind an index prefix whose opcode takes a displacement. -/
def displace (i : IndexRegister) (s : Slot) : Slot := if s = atPair .hl then displaced i else s

/-- Whether memory at HL is named once, before anything that is read from the input. -/
def leadsWithMemory : List Slot → Bool
  | fixed o :: slots =>
    if o = .atPair .hl then atPair .hl ∉ slots ∧ relative ∉ slots else leadsWithMemory slots
  | _ => false

theorem readAll_displace_of_not_mem (i : IndexRegister) (d : UInt8) {slots : List Slot}
    (hm : atPair .hl ∉ slots) (hr : relative ∉ slots) {here : UInt16} {input : List UInt8}
    {operands : List Operand} {taken : ℕ} (h : readAll here slots input = .ok (operands, taken))
    (here' : UInt16) :
    readAll here' (slots.map (displace i)) input =
      .ok (operands.map (Operand.displace i d), taken) := by
  refine readAll_map (fun s hs => ?_) h here'
  have hne : s ≠ atPair .hl := fun he => hm (he ▸ hs)
  rw [displace, if_neg hne]
  refine ⟨rfl, fun a b cs o ho => ?_⟩
  have hkeep : o ≠ .atPair .hl := by
    rintro rfl
    exact hne (eq_fixed_of_read? ho (by decide))
  rw [Operand.displace, if_neg hkeep]
  exact read?_congr ho (fun he => hr (he ▸ hs)) b

/-- The displacement is read where memory at HL was named and moves what follows by one byte. -/
theorem readAll_displace (i : IndexRegister) (d : UInt8) {slots : List Slot}
    (hs : leadsWithMemory slots = true) {here : UInt16} {input : List UInt8}
    {operands : List Operand} {taken : ℕ} (h : readAll here slots input = .ok (operands, taken))
    (here' : UInt16) :
    readAll here' (slots.map (displace i)) (d :: input) =
      .ok (operands.map (Operand.displace i d), taken + 1) := by
  induction slots generalizing here here' operands taken with
  | nil => cases hs
  | cons s slots ih =>
    obtain ⟨o, os, n, ho, hr, rfl, rfl⟩ := readAll_cons_ok h
    cases s with
    | fixed p =>
      cases ho
      -- Until memory at HL is met nothing is read, so the displacement is still in front.
      by_cases hp : o = .atPair .hl
      · subst hp
        simp only [leadsWithMemory, if_true, decide_eq_true_eq] at hs
        have htail := readAll_displace_of_not_mem i d hs.1 hs.2 hr (here' + UInt16.ofNat 1)
        have hhead : displace i (fixed (.atPair .hl)) = displaced i := if_pos rfl
        simp only [width, List.drop_zero] at htail
        simp only [List.map_cons, hhead, readAll, read?, width, List.drop_succ_cons, List.drop_zero,
          htail, Operand.displace, if_true]
        rw [Nat.zero_add, Nat.add_comm]
      · rw [leadsWithMemory, if_neg hp] at hs
        have htail := ih hs hr (here' + UInt16.ofNat 0)
        have hhead : displace i (fixed o) = fixed o := if_neg fun he => hp (Slot.fixed.inj he)
        simp only [List.map_cons, hhead, readAll, read?, width, List.drop_zero, htail,
          Operand.displace, if_neg hp]
        rw [Nat.zero_add, Nat.zero_add]
    | _ => cases hs

end Slot

namespace Pattern

theorem indexed_of_memory (i : IndexRegister) {p : Pattern} (hx : p ≠ exchange)
    (hj : p.operation ≠ .jp) (hm : Slot.atPair .hl ∈ p.slots) :
    p.indexed i = ⟨p.operation, p.slots.map (Slot.displace i)⟩ := by
  rw [indexed, if_neg hx, if_pos ⟨hj, hm⟩]
  rfl

theorem indexed_of_not_memory (i : IndexRegister) {p : Pattern} (hx : p ≠ exchange)
    (hm : p.operation = .jp ∨ Slot.atPair .hl ∉ p.slots) :
    p.indexed i = ⟨p.operation, p.slots.map (Slot.rename i)⟩ := by
  have hneg : ¬ (p.operation ≠ .jp ∧ Slot.atPair .hl ∈ p.slots) := by tauto
  rw [indexed, if_neg hx, if_neg hneg]
  rfl

theorem isNamed_plain {op : UInt8} (hp : Prefix.ofByte? op = none) :
    (plain op).operation.isNamed = true := by
  revert op
  decide +kernel

theorem plain_of_sensitive {op : UInt8} (hs : isIndexSensitive op = true) (hb : op ≠ 0xCB) :
    Prefix.ofByte? op = none ∧ plain op ≠ exchange ∧ Slot.relative ∉ (plain op).slots ∧
      ((plain op).operation = .jp ↔ op = 0xE9) ∧
      (Slot.atPair .hl ∈ (plain op).slots → op ≠ 0xE9 →
        Slot.leadsWithMemory (plain op).slots = true) := by
  revert op
  decide +kernel

theorem not_usesHL_of_not_sensitive {op : UInt8} (hs : isIndexSensitive op = false)
    (he : op ≠ 0xEB) : ∀ o ∈ Operand.usesHL, Slot.fixed o ∉ (plain op).slots := by
  revert op
  decide +kernel

end Pattern

theorem decode_plain_of_complete {op : UInt8} (hp : Prefix.ofByte? op = none) {address : UInt16}
    {rest : List UInt8} (h : (decode address (op :: rest)).isTruncated = false) :
    ∃ operands taken,
      Slot.readAll (address + 1) (Pattern.plain op).slots rest = .ok (operands, taken) ∧
      decode address (op :: rest) =
        ⟨address, op :: rest.take taken, .statement ⟨(Pattern.plain op).operation, operands⟩⟩ := by
  have hd := decode_of_selects address (Selects.plain hp) rest
  rw [List.singleton_append] at hd
  cases hr : (Pattern.plain op).read (address + UInt16.ofNat [op].length) rest with
  | ok r =>
    obtain ⟨s, taken⟩ := r
    obtain ⟨operands, hall, rfl⟩ := Pattern.readAll_of_read_ok hr
    rw [hr] at hd
    exact ⟨operands, taken, hall, hd⟩
  | error taken =>
    have htruncated : (decode address (op :: rest)).reading = .truncated := by rw [hd, hr]
    rw [(decoded_decode address (op :: rest)).isTruncated_iff.mpr htruncated] at h
    cases h

theorem decode_index_of_readAll {i : IndexRegister} {op : UInt8} (hb : op ≠ Prefix.bits.byte)
    {address : UInt16} {input : List UInt8} {p : Pattern}
    (hp : (Pattern.plain op).indexed i = p) {operands : List Operand} {taken : ℕ}
    (h : Slot.readAll (address + 2) p.slots input = .ok (operands, taken)) :
    decode address (i.prefixByte :: op :: input) =
      ⟨address, i.prefixByte :: op :: input.take taken, .statement ⟨p.operation, operands⟩⟩ := by
  have selects : Selects [i.prefixByte, op] p := hp ▸ Selects.index i hb
  have hread : p.read (address + UInt16.ofNat [i.prefixByte, op].length) input =
      .ok (⟨p.operation, operands⟩, taken) := Pattern.read_of_readAll h
  exact (Decoded.complete selects hread).decode_eq

theorem memory_mem_operandTexts_iff {here : UInt16} {p : Pattern} {input : List UInt8}
    {operands : List Operand} {taken : ℕ} (hn : p.operation.isNamed = true)
    (h : Slot.readAll here p.slots input = .ok (operands, taken)) :
    "(HL)" ∈ operandTexts (Statement.text ⟨p.operation, operands⟩) ↔
      Slot.atPair .hl ∈ p.slots := by
  rw [operandTexts_text hn, Slot.atPair, ← Slot.mem_iff_of_readAll h (by decide), List.mem_map]
  constructor
  · rintro ⟨o, ho, htext⟩
    exact Operand.text_eq_memory_iff.mp htext ▸ ho
  · intro ho
    exact ⟨_, ho, rfl⟩

theorem decode_index_of_memory (i : IndexRegister) {op : UInt8} (hs : isIndexSensitive op = true)
    (hb : op ≠ 0xCB) (he : op ≠ 0xE9) {address : UInt16} {rest : List UInt8}
    (hc : (decode address (op :: rest)).isTruncated = false)
    (hm : "(HL)" ∈ operandTexts (decode address (op :: rest)).mnemonic) (d : UInt8) :
    (decode address (i.prefixByte :: op :: d :: rest)).mnemonic =
        replaceOperands (displaceMemory i d) (decode address (op :: rest)).mnemonic ∧
      (decode address (i.prefixByte :: op :: d :: rest)).size =
        (decode address (op :: rest)).size + 2 := by
  obtain ⟨hp, hx, -, hj, hlead⟩ := Pattern.plain_of_sensitive hs hb
  have hnamed := Pattern.isNamed_plain hp
  obtain ⟨operands, taken, hall, hd⟩ := decode_plain_of_complete hp hc
  rw [hd] at hm ⊢
  -- The text shows memory at HL only where the table names it, since operands have distinct texts.
  have hslot := (memory_mem_operandTexts_iff hnamed hall).mp hm
  have hindexed := Pattern.indexed_of_memory i hx (mt hj.mp he) hslot
  have hread := Slot.readAll_displace i d (hlead hslot he) hall (address + 2)
  rw [decode_index_of_readAll hb hindexed hread]
  constructor
  · symm
    exact replaceOperands_text (s := ⟨_, operands⟩) hnamed fun o _ =>
      Operand.displaceMemory_text i d o
  · simp [Instruction.size]

theorem decode_index_of_not_memory (i : IndexRegister) {op : UInt8}
    (hs : isIndexSensitive op = true) (hb : op ≠ 0xCB) {address : UInt16} {rest : List UInt8}
    (hc : (decode address (op :: rest)).isTruncated = false)
    (hm : "(HL)" ∉ operandTexts (decode address (op :: rest)).mnemonic ∨ op = 0xE9) :
    (decode address (i.prefixByte :: op :: rest)).mnemonic =
        replaceOperands (renameHL i) (decode address (op :: rest)).mnemonic ∧
      (decode address (i.prefixByte :: op :: rest)).size =
        (decode address (op :: rest)).size + 1 := by
  obtain ⟨hp, hx, hrel, hj, -⟩ := Pattern.plain_of_sensitive hs hb
  have hnamed := Pattern.isNamed_plain hp
  obtain ⟨operands, taken, hall, hd⟩ := decode_plain_of_complete hp hc
  rw [hd] at hm ⊢
  have hslot : (Pattern.plain op).operation = .jp ∨ Slot.atPair .hl ∉ (Pattern.plain op).slots :=
    hm.symm.imp hj.mpr (mt (memory_mem_operandTexts_iff hnamed hall).mpr)
  have hindexed := Pattern.indexed_of_not_memory i hx hslot
  have hread := Slot.readAll_rename i hrel hall (address + 2)
  rw [decode_index_of_readAll hb hindexed hread]
  constructor
  · symm
    exact replaceOperands_text (s := ⟨_, operands⟩) hnamed fun o _ => Operand.renameHL_text i o
  · simp [Instruction.size]

theorem operandTexts_of_not_sensitive {op : UInt8} (hp : Prefix.ofByte? op = none)
    (hs : isIndexSensitive op = false) (he : op ≠ 0xEB) (address : UInt16) (rest : List UInt8)
    {t : String} (ht : t ∈ operandTexts (decode address (op :: rest)).mnemonic) :
    t ∉ ["HL", "H", "L", "(HL)"] := by
  cases hc : (decode address (op :: rest)).isTruncated with
  | true =>
    have hreading := (decoded_decode address (op :: rest)).isTruncated_iff.mp hc
    have hne : (decode address (op :: rest)).bytes ≠ [] :=
      List.length_pos_iff.mp (size_decode_pos address op rest)
    rw [Instruction.mnemonic_of_truncated hreading, operandTexts_dataText hne] at ht
    obtain ⟨b, -, rfl⟩ := List.mem_map.mp ht
    rw [Operand.text_mem_iff]
    simp [Operand.usesHL]
  | false =>
    obtain ⟨operands, taken, hall, hd⟩ := decode_plain_of_complete hp hc
    rw [hd] at ht
    change t ∈ operandTexts (Statement.text ⟨_, operands⟩) at ht
    rw [operandTexts_text (Pattern.isNamed_plain hp)] at ht
    obtain ⟨o, ho, rfl⟩ := List.mem_map.mp ht
    rw [Operand.text_mem_iff]
    intro hu
    exact Pattern.not_usesHL_of_not_sensitive hs he o hu ((Slot.mem_iff_of_readAll hall hu).mp ho)

/-- An index prefix replaces the operands that name HL, and only those. Memory at HL becomes memory
at the index register plus the displacement byte behind the opcode, and beside it H and L keep their
meaning; the jump through HL has no displacement. All opcodes with such an operand are affected,
except for the exchange of DE with HL. -/
theorem decodeAt_index_substitution (i : IndexRegister) (op : UInt8) (rest : List UInt8)
    (base : UInt16) :
    let plain := decodeAt (op :: rest) 0 base
    (isIndexSensitive op = true → op ≠ 0xCB → plain.1.isTruncated = false →
      ("(HL)" ∈ operandTexts plain.1.mnemonic → op ≠ 0xE9 → ∀ d : UInt8,
        let indexed := decodeAt (i.prefixByte :: op :: d :: rest) 0 base
        indexed.1.mnemonic = replaceOperands (displaceMemory i d) plain.1.mnemonic ∧
          indexed.2 = plain.2 + 2) ∧
      ("(HL)" ∉ operandTexts plain.1.mnemonic ∨ op = 0xE9 →
        let indexed := decodeAt (i.prefixByte :: op :: rest) 0 base
        indexed.1.mnemonic = replaceOperands (renameHL i) plain.1.mnemonic ∧
          indexed.2 = plain.2 + 1)) ∧
    (op ∉ [0xCB, 0xDD, 0xED, 0xFD] → isIndexSensitive op = false → op ≠ 0xEB →
      ∀ t ∈ operandTexts plain.1.mnemonic, t ∉ ["HL", "H", "L", "(HL)"]) ∧
    (op = 0xEB → plain.1.mnemonic = "EX DE, HL" ∧
      (decodeAt (i.prefixByte :: op :: rest) 0 base).1.mnemonic = "EX DE, HL") := by
  simp only [decodeAt_zero]
  refine ⟨fun hs hb hc => ⟨fun hm he d => decode_index_of_memory i hs hb he hc hm d,
    fun hm => decode_index_of_not_memory i hs hb hc hm⟩, fun hp hs he t ht => ?_, ?_⟩
  · simp only [List.mem_cons, List.not_mem_nil, or_false, not_or] at hp
    have hnone := Prefix.ofByte?_eq_none_of_not_sensitive hs hp.2
    exact operandTexts_of_not_sensitive hnone hs he base rest ht
  · rintro rfl
    rw [decode_index_cons i rfl rfl]
    exact ⟨rfl, rfl⟩

theorem decodeAt_index_substitution_lowest_displacement :
    let plain := (decodeAt [0x36, 0x12] 0 0x8000).1
    let indexed := (decodeAt [0xDD, 0x36, 0x80, 0x12] 0 0x8000).1
    plain.isTruncated = false ∧ "(HL)" ∈ operandTexts plain.mnemonic ∧
      indexed.mnemonic = replaceOperands (displaceMemory .ix 0x80) plain.mnemonic ∧
      indexed.mnemonic = "LD (IX-0x80), 0x12" := by
  intro plain indexed
  have hc : plain.isTruncated = false := by decide
  have hm : "(HL)" ∈ operandTexts plain.mnemonic := by decide
  have law := (decodeAt_index_substitution .ix 0x36 [0x12] 0x8000).1 rfl (by decide) hc
  exact ⟨hc, hm, (law.1 hm (by decide) 0x80).1, by decide⟩

end Z80

end SpectrumListing
