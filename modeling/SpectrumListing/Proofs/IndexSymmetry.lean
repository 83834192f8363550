import Mathlib
import SpectrumListing.Proofs.IndexedBits

/-!
# The two index registers

The prefixes of IX and IY act alike. Behind either of them the same bytes are taken, and they are
cut off together or make one statement in which the index register is a parameter. In the text this
means that one register name takes the place of the other in the operands, and nothing else changes.
`Checked.decodeAt_prefix_symmetric` says so of the tables that list the prefixed opcodes case by
case.
-/
namespace SpectrumListing.Z80

/-- An operand of a mnemonic with one index register in the place of another: the register itself,
one of its halves, or memory or a jump target at the register. -/
def renameIndex (i j : IndexRegister) (operand : String) : String :=
  if operand = i.name then j.name
  else if operand = i.name ++ "H" then j.name ++ "H"
  else if operand = i.name ++ "L" then j.name ++ "L"
  else if ("(" ++ i.name).toList <+: operand.toList then
    "(" ++ j.name ++ String.ofList (operand.toList.drop 3)
  else operand

namespace Operand

/-- The operand with `j` for whatever index register it names. -/
def withIndex (j : IndexRegister) : Operand → Operand
  | high _ => high j
  | low _ => low j
  | index _ => index j
  | atIndex _ => atIndex j
  | displaced _ d => displaced j d
  | o => o

def namesIndex : Operand → Bool
  | high _ | low _ | index _ | atIndex _ | displaced _ _ => true
  | _ => false

theorem withIndex_withIndex (i j : IndexRegister) (o : Operand) :
    (o.withIndex i).withIndex j = o.withIndex j := by
  cases o <;> rfl

theorem withIndex_eq_self {o : Operand} (h : o.namesIndex = false) (j : IndexRegister) :
    o.withIndex j = o := by
  cases o <;> first | rfl | cases h

theorem withIndex_indexed {o : Operand} (h : o.namesIndex = false) (i j : IndexRegister) :
    (o.indexed i).withIndex j = o.indexed j := by
  cases o with
  | register reg => cases reg <;> rfl
  | pair p => cases p <;> rfl
  | atPair p => cases p <;> rfl
  | _ => first | rfl | cases h

theorem not_bracket_prefix_text {o : Operand} (h : o.namesIndex = false) (i : IndexRegister) :
    ¬ ("(" ++ i.name).toList <+: o.text.toList := by
  rw [← List.isPrefixOf_iff_prefix, Bool.not_eq_true]
  cases o with
  | register reg => cases reg <;> cases i <;> rfl
  | pair p => cases p <;> cases i <;> rfl
  | alternate => cases i <;> rfl
  | atPair p => cases p <;> cases i <;> rfl
  | byte n =>
    rw [toList_byte]
    cases i <;> rfl
  | word n =>
    rw [toList_word]
    cases i <;> rfl
  | address a =>
    rw [toList_address]
    cases i <;> rfl
  | device n =>
    rw [toList_device]
    cases i <;> rfl
  | deviceInC => cases i <;> rfl
  | condition test => cases test <;> cases i <;> rfl
  | number n =>
    rw [Bool.eq_false_iff, ne_eq, List.isPrefixOf_iff_prefix]
    intro hprefix
    have hmem : '(' ∈ (number n).text.toList := hprefix.subset (by simp)
    cases isDigit_of_mem_number hmem
  | _ => cases h

theorem renameIndex_text_of_not_namesIndex {o : Operand} (h : o.namesIndex = false)
    (i j : IndexRegister) : renameIndex i j o.text = o.text := by
  -- The text of an operand determines it, so none of the names can be the text of `o`.
  have hne {p : Operand} (hp : p.namesIndex = true) (hc : p.spelled ≠ register .c) :
      o.text ≠ p.text := by
    intro he
    rw [eq_of_text_eq he hc, hp] at h
    cases h
  have hindex : o.text ≠ i.name := hne (p := index i) rfl nofun
  have hhigh : o.text ≠ i.name ++ "H" := hne (p := high i) rfl nofun
  have hlow : o.text ≠ i.name ++ "L" := hne (p := low i) rfl nofun
  rw [renameIndex, if_neg hindex, if_neg hhigh, if_neg hlow,
    if_neg (not_bracket_prefix_text h i)]

theorem renameIndex_bracket {i j : IndexRegister} (hij : i ≠ j) (k : IndexRegister)
    (rest : String) : renameIndex i j ("(" ++ k.name ++ rest) = "(" ++ j.name ++ rest := by
  have hname {t : String} (ht : t.toList.head? ≠ some '(') : "(" ++ k.name ++ rest ≠ t := by
    rintro rfl
    simp at ht
  have hindex := hname (t := i.name) (by cases i <;> decide)
  have hhigh := hname (t := i.name ++ "H") (by cases i <;> decide)
  have hlow := hname (t := i.name ++ "L") (by cases i <;> decide)
  rw [renameIndex, if_neg hindex, if_neg hhigh, if_neg hlow]
  cases i <;> cases j <;> cases k <;> simp_all [IndexRegister.name]

/-- Renaming the index register in the text of an operand renames it in the operand. -/
theorem renameIndex_text {i j : IndexRegister} (hij : i ≠ j) (o : Operand) :
    renameIndex i j o.text = (o.withIndex j).text := by
  cases ho : o.namesIndex with
  | false => rw [withIndex_eq_self ho, renameIndex_text_of_not_namesIndex ho]
  | true =>
    cases o with
    | high k => cases i <;> cases j <;> cases k <;> first | rfl | exact absurd rfl hij
    | low k => cases i <;> cases j <;> cases k <;> first | rfl | exact absurd rfl hij
    | index k => cases i <;> cases j <;> cases k <;> first | rfl | exact absurd rfl hij
    | atIndex k => exact renameIndex_bracket hij k ")"
    | displaced k d =>
      change renameIndex i j ("(" ++ k.name ++ displacementText d ++ ")") =
        "(" ++ j.name ++ displacementText d ++ ")"
      rw [String.append_assoc, renameIndex_bracket hij, ← String.append_assoc]
    | _ => cases ho

end Operand

namespace Slot

def withIndex (j : IndexRegister) : Slot → Slot
  | fixed o => fixed (o.withIndex j)
  | displaced _ => displaced j
  | s => s

def namesIndex : Slot → Bool
  | fixed o => o.namesIndex
  | displaced _ => true
  | _ => false

theorem width_withIndex (j : IndexRegister) (s : Slot) : (s.withIndex j).width = s.width := by
  cases s <;> rfl

theorem read?_withIndex (j : IndexRegister) (here : UInt16) (s : Slot) (input : List UInt8) :
    (s.withIndex j).read? here input = (s.read? here input).map (Operand.withIndex j) := by
  cases s <;> rcases input with _ | ⟨a, _ | ⟨b, rest⟩⟩ <;> rfl

/-- What is read does not depend on the index register, which only appears in the operands. -/
theorem readAll_withIndex (j : IndexRegister) (here : UInt16) (slots : List Slot)
    (input : List UInt8) :
    readAll here (slots.map (withIndex j)) input =
      (readAll here slots input).map fun r => (r.1.map (Operand.withIndex j), r.2) := by
  induction slots generalizing here input with
  | nil => rfl
  | cons s slots ih =>
    simp only [List.map_cons, readAll, read?_withIndex, width_withIndex, ih]
    cases s.read? here input with
    | none => rfl
    | some o =>
      cases readAll (here + UInt16.ofNat s.width) slots (input.drop s.width) <;> rfl

theorem withIndex_displace {s : Slot} (h : s.namesIndex = false) (i j : IndexRegister) :
    (s.displace i).withIndex j = s.displace j := by
  unfold displace
  split_ifs
  · rfl
  · cases s with
    | fixed o => exact congrArg fixed (Operand.withIndex_eq_self h j)
    | displaced k => cases h
    | _ => rfl

theorem withIndex_rename {s : Slot} (h : s.namesIndex = false) (i j : IndexRegister) :
    (s.rename i).withIndex j = s.rename j := by
  cases s with
  | fixed o => exact congrArg fixed (Operand.withIndex_indexed h i j)
  | displaced k => cases h
  | _ => rfl

end Slot

def Statement.withIndex (j : IndexRegister) (s : Statement) : Statement :=
  ⟨s.operation, s.operands.map (Operand.withIndex j)⟩

theorem Statement.withIndex_withIndex (i j : IndexRegister) (s : Statement) :
    (s.withIndex i).withIndex j = s.withIndex j := by
  simp [withIndex, Operand.withIndex_withIndex, Function.comp_def]

namespace Pattern

def withIndex (j : IndexRegister) (p : Pattern) : Pattern :=
  ⟨p.operation, p.slots.map (Slot.withIndex j)⟩

theorem read_withIndex (j : IndexRegister) (here : UInt16) (p : Pattern) (input : List UInt8) :
    (p.withIndex j).read here input =
      (p.read here input).map fun r => (r.1.withIndex j, r.2) := by
  rw [read, withIndex, Slot.readAll_withIndex, read]
  cases Slot.readAll here p.slots input <;> rfl

theorem not_namesIndex_plain (op : UInt8) : ∀ s ∈ (plain op).slots, s.namesIndex = false := by
  revert op
  decide +kernel

/-- The index register is a parameter of the pattern that its prefix makes of another. -/
theorem withIndex_indexed {p : Pattern} (h : ∀ s ∈ p.slots, s.namesIndex = false)
    (i j : IndexRegister) : (p.indexed i).withIndex j = p.indexed j := by
  by_cases hx : p = exchange
  · subst hx
    rfl
  by_cases hm : p.operation = .jp ∨ Slot.atPair .hl ∉ p.slots
  · rw [indexed_of_not_memory i hx hm, indexed_of_not_memory j hx hm, withIndex, List.map_map]
    exact congrArg (mk _) (List.map_congr_left fun s hs => Slot.withIndex_rename (h s hs) i j)
  · obtain ⟨hj, hm⟩ := not_or.mp hm
    rw [indexed_of_memory i hx hj (not_not.mp hm), indexed_of_memory j hx hj (not_not.mp hm),
      withIndex, List.map_map]
    exact congrArg (mk _) (List.map_congr_left fun s hs => Slot.withIndex_displace (h s hs) i j)

theorem operation_indexed (p : Pattern) (i : IndexRegister) :
    (p.indexed i).operation = p.operation := by
  unfold indexed
  split_ifs <;> rfl

theorem slots_indexed_eq_nil {p : Pattern} (h : p.slots = []) (i : IndexRegister) :
    (p.indexed i).slots = [] := by
  unfold indexed
  split_ifs <;> simp [h]

theorem isNamed_or_slots_plain (op : UInt8) :
    (plain op).operation.isNamed = true ∨ (plain op).slots = [] := by
  cases hp : Prefix.ofByte? op with
  | none => exact .inl (isNamed_plain hp)
  | some lead =>
    rw [Prefix.ofByte?_eq_some hp]
    rcases lead with _ | _ | ⟨_ | _⟩ <;> exact .inr rfl

end Pattern

namespace Statement

theorem withIndex_bitwise (j : IndexRegister) (f : Fields) (o : Operand) :
    (bitwise f o).withIndex j = bitwise f (o.withIndex j) := by
  unfold bitwise
  split <;> rfl

theorem withIndex_indexedBits (i j : IndexRegister) (d op : UInt8) :
    (indexedBits i d op).withIndex j = indexedBits j d op := by
  have hfield : ∀ z, (Operand.ofField z).withIndex j = Operand.ofField z := by
    cases j <;> decide
  have hbitwise : bitwise (Fields.ofByte op) (.displaced j d) =
      (bitwise (Fields.ofByte op) (.displaced i d)).withIndex j :=
    (withIndex_bitwise j _ (.displaced i d)).symm
  rw [indexedBits_eq, indexedBits_eq j, hbitwise]
  split_ifs
  · rfl
  · simp [withIndex, hfield]

theorem isNamed_indexedBits (i : IndexRegister) (d op : UInt8) :
    (indexedBits i d op).operation.isNamed = true := by
  rw [indexedBits_eq]
  split_ifs <;> exact isNamed_bitwise _ _

/-- Renaming the index register in a mnemonic. A stray prefix has a name of two words, which would
split like an operation and an operand, but the second of them names no register. -/
theorem renameIndex_text {i j : IndexRegister} (hij : i ≠ j) {s : Statement}
    (h : s.operation.isNamed = true ∨ s.operands = []) :
    replaceOperands (renameIndex i j) s.text = (s.withIndex j).text := by
  cases hn : s.operation.isNamed with
  | true => exact replaceOperands_text hn fun o _ => Operand.renameIndex_text hij o
  | false =>
    obtain ⟨operation, operands⟩ := s
    obtain rfl : operands = [] := h.resolve_left (by simp [hn])
    cases operation with
    | stray lead => rcases lead with _ | _ | ⟨_ | _⟩ <;> cases i <;> cases j <;> decide
    | _ => cases hn

theorem renameIndex_withIndex_text {i j : IndexRegister} (hij : i ≠ j) {s : Statement}
    (h : s.operation.isNamed = true ∨ s.operands = []) :
    replaceOperands (renameIndex i j) (s.withIndex i).text = (s.withIndex j).text := by
  have hi : (s.withIndex i).operation.isNamed = true ∨ (s.withIndex i).operands = [] :=
    h.imp id fun hnil => by rw [withIndex, hnil, List.map_nil]
  rw [renameIndex_text hij hi, withIndex_withIndex]

end Statement

/-- Behind an index prefix the same bytes are taken for both registers. Either the input ends in
both cases, or there is one statement with the register as a parameter. -/
theorem decode_index_uniform (address : UInt16) (rest : List UInt8) :
    ∃ behind : List UInt8,
      (∀ i : IndexRegister, decode address (i.prefixByte :: rest) =
        ⟨address, i.prefixByte :: behind, .truncated⟩) ∨
      ∃ s : Statement, (s.operation.isNamed = true ∨ s.operands = []) ∧
        ∀ i : IndexRegister, decode address (i.prefixByte :: rest) =
          ⟨address, i.prefixByte :: behind, .statement (s.withIndex i)⟩ := by
  rcases rest with _ | ⟨op, rest⟩
  · exact ⟨[], .inl fun i =>
      (Decoded.cutOpcode (.lead (.index i)) (List.cons_ne_nil _ _)).decode_eq⟩
  by_cases hb : op = Prefix.bits.byte
  · subst hb
    rcases rest with _ | ⟨d, _ | ⟨op, rest⟩⟩
    · exact ⟨[Prefix.bits.byte], .inl fun i =>
        (Decoded.cutOpcode (.bits i) (List.cons_ne_nil _ _)).decode_eq⟩
    · exact ⟨[Prefix.bits.byte, d], .inl fun i =>
        (Decoded.cutOpcode (.displacement i d) (List.cons_ne_nil _ _)).decode_eq⟩
    · refine ⟨[Prefix.bits.byte, d, op], .inr ⟨Statement.indexedBits .ix d op,
        .inl (Statement.isNamed_indexedBits _ _ _), fun i => ?_⟩⟩
      rw [Statement.withIndex_indexedBits]
      exact decode_index_bits address i d op rest
  · -- The pattern for IX serves for both registers, so it is read only once.
    have hread (i : IndexRegister) :
        ((Pattern.plain op).indexed i).read (address + UInt16.ofNat 2) rest =
          (((Pattern.plain op).indexed .ix).read (address + UInt16.ofNat 2) rest).map
            fun r => (r.1.withIndex i, r.2) := by
      rw [← Pattern.read_withIndex, Pattern.withIndex_indexed (Pattern.not_namesIndex_plain op)]
    cases hr : ((Pattern.plain op).indexed .ix).read (address + UInt16.ofNat 2) rest with
    | error taken =>
      rw [hr] at hread
      exact ⟨op :: rest.take taken, .inl fun i =>
        (Decoded.cutOperand (Selects.index i hb) (hread i)).decode_eq⟩
    | ok r =>
      obtain ⟨s, taken⟩ := r
      rw [hr] at hread
      refine ⟨op :: rest.take taken, .inr ⟨s, ?_, fun i =>
        (Decoded.complete (Selects.index i hb) (hread i)).decode_eq⟩⟩
      obtain ⟨os, hall, rfl⟩ := Pattern.readAll_of_read_ok hr
      refine (Pattern.isNamed_or_slots_plain op).imp (fun h => ?_) fun h => ?_
      · rwa [Pattern.operation_indexed]
      · rw [Pattern.slots_indexed_eq_nil h] at hall
        cases hall
        rfl

theorem dataText_cons (bytes : List UInt8) :
    ∃ more : String, ∀ b : UInt8, dataText (b :: bytes) = "DB 0x" ++ Hex.byte b ++ more := by
  have hlead (b : UInt8) : "DB 0x" ++ Hex.byte b = "DB " ++ (Operand.byte b).text := by
    rw [Operand.text, ← String.append_assoc]
    rfl
  simp only [hlead, dataText, List.map_cons, String.append_assoc]
  rcases eq_or_ne bytes [] with rfl | hne
  · exact ⟨"", fun b => by simp⟩
  · refine ⟨", " ++ ", ".intercalate (bytes.map fun c => (Operand.byte c).text), fun b => ?_⟩
    rw [String.intercalate_cons_of_ne_nil (by simpa using hne), String.append_assoc]

/-- Exchanging the prefix of one index register for that of the other keeps the number of bytes that
are taken and all of them but the first. If the input ends inside the instruction, the listed data
differ in the first byte alone; otherwise the mnemonics have one register name in the place of the
other and agree in everything else. -/
theorem decodeAt_index_symmetry (rest : List UInt8) (base : UInt16) :
    let a := decodeAt (0xDD :: rest) 0 base
    let b := decodeAt (0xFD :: rest) 0 base
    a.2 = b.2 ∧
    (∃ behind, a.1.bytes = 0xDD :: behind ∧ b.1.bytes = 0xFD :: behind) ∧
    a.1.isTruncated = b.1.isTruncated ∧
    if a.1.isTruncated then
      ∃ more, a.1.mnemonic = "DB 0xDD" ++ more ∧ b.1.mnemonic = "DB 0xFD" ++ more
    else
      b.1.mnemonic = replaceOperands (renameIndex .ix .iy) a.1.mnemonic ∧
      a.1.mnemonic = replaceOperands (renameIndex .iy .ix) b.1.mnemonic := by
  have hx : decodeAt (0xDD :: rest) 0 base =
      (decode base (IndexRegister.ix.prefixByte :: rest),
        (decode base (IndexRegister.ix.prefixByte :: rest)).size) := decodeAt_zero _ base
  have hy : decodeAt (0xFD :: rest) 0 base =
      (decode base (IndexRegister.iy.prefixByte :: rest),
        (decode base (IndexRegister.iy.prefixByte :: rest)).size) := decodeAt_zero _ base
  have htruncated (i : IndexRegister) :=
    (decoded_decode base (i.prefixByte :: rest)).isTruncated_iff
  rw [hx, hy]
  obtain ⟨behind, hcut | ⟨s, hs, hstatement⟩⟩ := decode_index_uniform base rest
  · obtain ⟨more, hmore⟩ := dataText_cons behind
    have hends (i : IndexRegister) := (htruncated i).mpr (by rw [hcut])
    simp only [hcut] at hends ⊢
    simp only [hends, if_true]
    exact ⟨rfl, ⟨behind, rfl, rfl⟩, trivial, more, hmore 0xDD, hmore 0xFD⟩
  · have hrename {i j : IndexRegister} (hij : i ≠ j) :=
      (Statement.renameIndex_withIndex_text hij hs).symm
    have hwhole (i : IndexRegister) := Bool.eq_false_iff.mpr (mt (htruncated i).mp (by
      rw [hstatement]
      nofun))
    simp only [hstatement] at hwhole ⊢
    simp only [hwhole, Bool.false_eq_true, if_false]
    exact ⟨rfl, ⟨behind, rfl, rfl⟩, trivial, hrename (by decide), hrename (by decide)⟩

example : (decodeAt [0xDD, 0xDD] 0 0).1.mnemonic = "DD PREFIX" ∧
    replaceOperands (renameIndex .ix .iy) "DD PREFIX" = "DD PREFIX" := by
  decide

end SpectrumListing.Z80
