import Mathlib
import SpectrumListing.Proofs.Partition

/-!
# The length of an instruction

The opcode bytes alone tell how far an instruction reaches and whether it ends in a word, as tabled
in `Extent.ofBytes?`. When so many bytes are there, the instruction takes all of them and does not
depend on what follows. From any shorter input it takes everything except the first half of a word,
and what it takes is listed as data.
-/
namespace SpectrumListing.Z80

structure Extent where
  length : ℕ
  endsInWord : Bool
deriving DecidableEq, Repr

def takesWord (op : UInt8) : Bool :=
  let f := Fields.ofByte op
  match f.x, f.z with
  | 0, 1 => f.q.val == 0 -- LD of a pair
  | 0, 2 => 2 ≤ f.p.val -- LD to and from a fixed address
  | 3, 2 | 3, 4 => true -- JP and CALL with a condition
  | 3, 3 => f.y.val == 0 -- JP
  | 3, 5 => f.q.val == 1 && f.p.val == 0 -- CALL
  | _, _ => false

def takesByte (op : UInt8) : Bool :=
  let f := Fields.ofByte op
  match f.x, f.z with
  | 0, 0 => 2 ≤ f.y.val -- DJNZ and JR
  | 0, 6 | 3, 6 => true -- LD and arithmetic with a number
  | 3, 3 => f.y.val == 2 || f.y.val == 3 -- OUT and IN
  | _, _ => false

/-- Whether the opcode has memory at HL as an operand, which an index prefix displaces. -/
def takesDisplacement (op : UInt8) : Bool :=
  let f := Fields.ofByte op
  match f.x with
  | 0 => f.y.val == 6 && 4 ≤ f.z.val && f.z.val ≤ 6
  | 1 => (f.y.val == 6) != (f.z.val == 6)
  | 2 => f.z.val == 6
  | 3 => false

namespace Extent

def plain (op : UInt8) : Extent :=
  ⟨if takesWord op then 3 else if takesByte op then 2 else 1, takesWord op⟩

def extended (op : UInt8) : Extent :=
  let f := Fields.ofByte op
  if f.x.val = 1 ∧ f.z.val = 3 then ⟨4, true⟩ else ⟨2, false⟩

def indexed (op : UInt8) : Extent :=
  if op = 0xCB then ⟨4, false⟩
  else if op ∈ [0xDD, 0xED, 0xFD] then ⟨2, false⟩
  else ⟨1 + (plain op).length + if takesDisplacement op then 1 else 0, takesWord op⟩

/-- The extent of the instruction at the front of the input, if the bytes that fix it are there. -/
def ofBytes? : List UInt8 → Option Extent
  | [] => none
  | lead :: rest =>
    if lead = 0xCB then some ⟨2, false⟩
    else if lead = 0xED then rest.head?.map extended
    else if lead ∈ [0xDD, 0xFD] then rest.head?.map indexed
    else some (plain lead)

theorem ofBytes?_plain {op : UInt8} (h : Prefix.ofByte? op = none) (rest : List UInt8) :
    ofBytes? (op :: rest) = some (plain op) := by
  have hb : op ≠ 0xCB := by
    rintro rfl
    cases h
  have he : op ≠ 0xED := by
    rintro rfl
    cases h
  have hi : op ∉ [0xDD, 0xFD] := by
    intro hmem
    simp only [List.mem_cons, List.not_mem_nil, or_false] at hmem
    rcases hmem with rfl | rfl <;> cases h
  simp only [ofBytes?, if_neg hb, if_neg he, if_neg hi]

theorem ofBytes?_extended (op : UInt8) (rest : List UInt8) :
    ofBytes? (Prefix.extended.byte :: op :: rest) = some (extended op) := rfl

theorem ofBytes?_index (i : IndexRegister) (op : UInt8) (rest : List UInt8) :
    ofBytes? (i.prefixByte :: op :: rest) = some (indexed op) := by
  cases i <;> rfl

end Extent

/-- Whether the input ends before its first instruction does. -/
def IsCutOff (input : List UInt8) : Prop := ∀ e ∈ Extent.ofBytes? input, input.length < e.length

instance : DecidablePred IsCutOff := fun input =>
  inferInstanceAs (Decidable (∀ e ∈ Extent.ofBytes? input, input.length < e.length))

/-- Whether the input ends between the two bytes of a word that its first instruction ends in. -/
def endsInsideWord (input : List UInt8) : Bool :=
  (Extent.ofBytes? input).any fun e => e.endsInWord && e.length == input.length + 1

namespace Slot

theorem readAll_error_of_word {here : UInt16} {slots : List Slot} {input : List UInt8} {taken : ℕ}
    (hw : ∃ s ∈ slots, s.width = 2) (hsum : (slots.map width).sum ≤ 2)
    (h : readAll here slots input = .error taken) : taken = 0 := by
  induction slots generalizing here input taken with
  | nil => cases h
  | cons s slots ih =>
    simp only [List.map_cons, List.sum_cons] at hsum
    obtain ⟨-, rfl⟩ | ⟨o, n, -, hr, rfl⟩ := readAll_cons_error h
    · rfl
    · have hn := (readAll_error_taken hr).1
      obtain ⟨t, ht, htwo⟩ := hw
      rcases List.mem_cons.mp ht with rfl | ht
      · omega
      · have hle := List.le_sum_of_mem (List.mem_map_of_mem (f := width) ht)
        have hzero := ih ⟨t, ht, htwo⟩ (by omega) hr
        omega

theorem readAll_error_of_bytes {here : UInt16} {slots : List Slot} {input : List UInt8} {taken : ℕ}
    (hw : ∀ s ∈ slots, s.width ≠ 2) (h : readAll here slots input = .error taken) :
    taken = input.length := by
  induction slots generalizing here input taken with
  | nil => cases h
  | cons s slots ih =>
    obtain ⟨ho, rfl⟩ | ⟨o, n, ho, hr, rfl⟩ := readAll_cons_error h
    · have hlt := read?_eq_none_iff.mp ho
      have hle := width_le_two s
      have hne := hw s (by simp)
      omega
    · have hle := width_le_of_read? ho
      have hn := ih (fun t ht => hw t (by simp [ht])) hr
      rw [List.length_drop] at hn
      omega

theorem read?_take {here : UInt16} {s : Slot} {input : List UInt8} {o : Operand}
    (h : s.read? here input = some o) (n : ℕ) :
    s.read? here (input.take (s.width + n)) = some o := by
  cases s <;> rcases input with _ | ⟨a, _ | ⟨b, rest⟩⟩ <;>
    simp_all [read?, width, Nat.add_comm _ n]

/-- The number of bytes that an attempt to read takes, successful or not. -/
def taken {α : Type} : Except ℕ (α × ℕ) → ℕ
  | .ok (_, n) => n
  | .error n => n

theorem readAll_take (here : UInt16) (slots : List Slot) (input : List UInt8) :
    readAll here slots (input.take (taken (readAll here slots input))) =
      readAll here slots input := by
  induction slots generalizing here input with
  | nil => rfl
  | cons s slots ih =>
    cases ho : s.read? here input with
    | none =>
      have hlt := read?_eq_none_iff.mp ho
      have hnone : s.read? here [] = none := by
        rw [read?_eq_none_iff, List.length_nil]
        omega
      simp only [readAll, ho, taken, List.take_zero, hnone]
    | some o =>
      have tail := ih (here + UInt16.ofNat s.width) (input.drop s.width)
      cases hr : readAll (here + UInt16.ofNat s.width) slots (input.drop s.width) with
      | error n =>
        simp only [hr, taken] at tail
        simp only [readAll, ho, hr, taken, read?_take ho, ← List.take_drop, tail]
      | ok r =>
        simp only [hr, taken] at tail
        simp only [readAll, ho, hr, taken, read?_take ho, ← List.take_drop, tail]

end Slot

namespace Pattern

theorem read_take (here : UInt16) (p : Pattern) (input : List UInt8) :
    p.read here (input.take (Slot.taken (p.read here input))) = p.read here input := by
  have htaken : Slot.taken (p.read here input) = Slot.taken (Slot.readAll here p.slots input) := by
    unfold read
    cases Slot.readAll here p.slots input <;> rfl
  rw [htaken, read, read, Slot.readAll_take]

def endsInWord (p : Pattern) : Bool := p.slots.any fun s => s.width == 2

theorem endsInWord_ofStatement (s : Statement) : (ofStatement s).endsInWord = false := by
  simp [endsInWord, ofStatement, Slot.width]

theorem width_of_endsInWord {p : Pattern} (hw : p.width ≤ 2) (h : p.endsInWord = true) :
    p.width = 2 := by
  obtain ⟨s, hs, htwo⟩ : ∃ s ∈ p.slots, s.width = 2 := by simpa [endsInWord] using h
  have hle := List.le_sum_of_mem (List.mem_map_of_mem (f := Slot.width) hs)
  unfold width at hw ⊢
  omega

/-- Where the input runs out, a word is left as it is and everything else is taken. -/
theorem taken_of_read_error {here : UInt16} {p : Pattern} {input : List UInt8} {taken : ℕ}
    (hw : p.width ≤ 2) (h : p.read here input = .error taken) :
    taken = if p.endsInWord then 0 else input.length := by
  have hr := readAll_of_read_error h
  split_ifs with hword
  · have hex : ∃ s ∈ p.slots, s.width = 2 := by simpa [endsInWord] using hword
    exact Slot.readAll_error_of_word hex hw hr
  · have hall : ∀ s ∈ p.slots, s.width ≠ 2 := by simpa [endsInWord] using hword
    exact Slot.readAll_error_of_bytes hall hr

def extent (opcodes : ℕ) (p : Pattern) : Extent := ⟨opcodes + p.width, p.endsInWord⟩

theorem extent_eq (op : UInt8) :
    Extent.plain op = (plain op).extent 1 ∧
      (∀ p ∈ extended? op, Extent.extended op = p.extent 2) ∧
      (extended? op = none → Extent.extended op = ⟨2, false⟩) ∧
      (op ≠ Prefix.bits.byte → ∀ i, Extent.indexed op = ((plain op).indexed i).extent 2) := by
  revert op
  decide +kernel

end Pattern

namespace Selects

variable {opcode : List UInt8} {p : Pattern}

theorem width_le_two (h : Selects opcode p) : p.width ≤ 2 := by
  cases h with
  | @plain op _ => exact (Pattern.width_le op).1
  | bits op => simp
  | @extended op p h => exact (Pattern.width_le op).2.2 p h
  | @index i op _ => exact (Pattern.width_le op).2.1 i
  | indexBits i d op => simp

/-- The opcode bytes fix the extent of the instruction. -/
theorem extent_eq (h : Selects opcode p) (rest : List UInt8) :
    Extent.ofBytes? (opcode ++ rest) = some (p.extent opcode.length) := by
  cases h with
  | @plain op h =>
    rw [List.singleton_append, Extent.ofBytes?_plain h, (Pattern.extent_eq op).1]
    rfl
  | bits op => simp [Pattern.extent, Pattern.endsInWord_ofStatement, Extent.ofBytes?, Prefix.byte]
  | @extended op p h =>
    refine (Extent.ofBytes?_extended op rest).trans ?_
    rw [(Pattern.extent_eq op).2.1 p h]
    rfl
  | @index i op h =>
    refine (Extent.ofBytes?_index i op rest).trans ?_
    rw [(Pattern.extent_eq op).2.2.2 h i]
    rfl
  | indexBits i d op =>
    refine (Extent.ofBytes?_index i Prefix.bits.byte (d :: op :: rest)).trans ?_
    simp [Pattern.extent, Pattern.endsInWord_ofStatement, Extent.indexed, Prefix.byte]

end Selects

theorem Unfinished.isCutOff {input : List UInt8} (h : Unfinished input) :
    IsCutOff input ∧ endsInsideWord input = false := by
  cases h with
  | nil => decide
  | lead p => rcases p with _ | _ | ⟨_ | _⟩ <;> decide
  | bits i => cases i <;> decide
  | displacement i d =>
    have hextent : Extent.ofBytes? [i.prefixByte, Prefix.bits.byte, d] = some ⟨4, false⟩ :=
      Extent.ofBytes?_index i Prefix.bits.byte [d]
    simp only [IsCutOff, endsInsideWord, hextent]
    simp

namespace Decoded

variable {address : UInt16} {input : List UInt8} {i : Instruction}

/-- The bytes of an instruction decode to it on their own. -/
theorem self (h : Decoded address input i) : Decoded address i.bytes i := by
  cases h with
  | finished => exact .finished
  | @complete opcode rest p s taken selects read =>
    have htake := Pattern.read_take (address + UInt16.ofNat opcode.length) p rest
    rw [read] at htake
    have hd := complete selects htake
    rwa [Slot.taken, List.take_take, Nat.min_self] at hd
  | undefined none => exact undefined none
  | @cutOperand opcode rest p taken selects read =>
    have htake := Pattern.read_take (address + UInt16.ofNat opcode.length) p rest
    rw [read] at htake
    have hd := cutOperand selects htake
    rwa [Slot.taken, List.take_take, Nat.min_self] at hd
  | cutOpcode unfinished ne => exact cutOpcode unfinished ne

theorem extent_of_complete (h : Decoded address input i) (hr : i.reading ≠ .truncated)
    (hne : input ≠ []) : ∃ e, Extent.ofBytes? input = some e ∧ i.size = e.length := by
  cases h with
  | finished => exact absurd rfl hne
  | @complete opcode rest p s taken selects read =>
    obtain ⟨rfl, hle⟩ := Pattern.read_ok_taken read
    refine ⟨_, selects.extent_eq rest, ?_⟩
    simp only [Instruction.size, List.length_append, List.length_take, Pattern.extent]
    omega
  | @undefined op rest none =>
    refine ⟨_, Extent.ofBytes?_extended op rest, ?_⟩
    rw [(Pattern.extent_eq op).2.2.1 none]
    rfl
  | cutOperand _ _ => exact absurd rfl hr
  | cutOpcode _ _ => exact absurd rfl hr

theorem isCutOff_of_truncated (h : Decoded address input i) (hr : i.reading = .truncated) :
    IsCutOff input ∧
      i.size = if endsInsideWord input then input.length - 1 else input.length := by
  cases h with
  | finished => cases hr
  | complete _ _ => cases hr
  | undefined _ => cases hr
  | @cutOperand opcode rest p taken selects read =>
    have hextent := selects.extent_eq rest
    have hwidth := selects.width_le_two
    obtain ⟨hlt, hle, hone⟩ := Pattern.read_error_taken read
    have htaken := Pattern.taken_of_read_error hwidth read
    simp only [IsCutOff, endsInsideWord, hextent, Option.mem_some_iff, forall_eq', Option.any_some,
      Pattern.extent, Instruction.size, List.length_append, List.length_take]
    -- A word is the only open operand, so the input ends right before it or inside it.
    cases hword : p.endsInWord with
    | true =>
      have htwo := Pattern.width_of_endsInWord hwidth hword
      rw [hword, if_pos rfl] at htaken
      simp only [Bool.true_and, beq_iff_eq]
      constructor
      · omega
      · split_ifs <;> omega
    | false =>
      rw [hword, if_neg Bool.false_ne_true] at htaken
      simp only [Bool.false_and, Bool.false_eq_true, if_false]
      omega
  | cutOpcode unfinished _ =>
    obtain ⟨hcut, hword⟩ := unfinished.isCutOff
    exact ⟨hcut, by simp [hword, Instruction.size]⟩

theorem truncated_iff_isCutOff (h : Decoded address input i) (hne : input ≠ []) :
    i.reading = .truncated ↔ IsCutOff input := by
  refine ⟨fun hr => (h.isCutOff_of_truncated hr).1, fun hcut => ?_⟩
  by_contra hr
  obtain ⟨e, he, hsize⟩ := h.extent_of_complete hr hne
  have hlt := hcut e he
  have hle := h.bytes_prefix.length_le
  rw [Instruction.size] at hsize
  omega

end Decoded

theorem drop_ne_nil_of_lt {buffer : List UInt8} {offset : ℕ} (h : offset < buffer.length) :
    buffer.drop offset ≠ [] := by
  apply List.ne_nil_of_length_pos
  rw [List.length_drop]
  omega

theorem decoded_of_decodeAt_eq {buffer : List UInt8} {offset next : ℕ} {base : UInt16}
    {i : Instruction} (hi : decodeAt buffer offset base = (i, next)) :
    Decoded (base + UInt16.ofNat offset) (buffer.drop offset) i ∧ offset + i.size = next := by
  obtain ⟨rfl, rfl⟩ := Prod.mk.inj hi
  exact ⟨decoded_decodeAt buffer offset base, rfl⟩

/-- A buffer with the same bytes up to the end of an instruction has the same instruction there. -/
theorem decodeAt_eq_of_take_eq {buffer other : List UInt8} {offset next : ℕ} {base : UInt16}
    {i : Instruction} (h : offset < buffer.length) (hi : decodeAt buffer offset base = (i, next))
    (hr : i.reading ≠ .truncated) (hother : other.take next = buffer.take next) :
    decodeAt other offset base = (i, next) := by
  obtain ⟨hd, rfl⟩ := decoded_of_decodeAt_eq hi
  have hfront : i.bytes = (other.drop offset).take i.size := by
    rw [List.take_drop, hother, ← List.take_drop]
    exact List.prefix_iff_eq_take.mp hd.bytes_prefix
  have hne := hd.bytes_ne_nil (drop_ne_nil_of_lt h)
  have hrest := hd.self.append hr hne ((other.drop offset).drop i.size)
  rw [hfront, List.take_append_drop] at hrest
  have hsame : decode (base + UInt16.ofNat offset) (Cursor.mk other offset).rest = i :=
    hrest.decode_eq
  rw [decodeAt, hsame]

/-- An instruction takes as many bytes as its opcode bytes say and depends on no others. When the
input ends before that, its bytes are listed as data, and only the first half of a word is left. -/
theorem decodeAt_length_law {buffer : List UInt8} {offset next : ℕ} {base : UInt16}
    {i : Instruction} (h : offset < buffer.length) (hi : decodeAt buffer offset base = (i, next)) :
    next = offset + i.size ∧ i.bytes = (buffer.drop offset).take i.size ∧
    (∀ e ∈ Extent.ofBytes? (buffer.drop offset), offset + e.length ≤ buffer.length →
      next = offset + e.length ∧
      ∀ other : List UInt8, other.take next = buffer.take next →
        decodeAt other offset base = (i, next)) ∧
    (IsCutOff (buffer.drop offset) →
      i.mnemonic = dataText i.bytes ∧
      next = if endsInsideWord (buffer.drop offset) then buffer.length - 1 else buffer.length) := by
  obtain ⟨hd, rfl⟩ := decoded_of_decodeAt_eq hi
  have hne := drop_ne_nil_of_lt h
  have hlength : (buffer.drop offset).length = buffer.length - offset := List.length_drop
  refine ⟨rfl, List.prefix_iff_eq_take.mp hd.bytes_prefix, fun e he hle => ?_, fun hcut => ?_⟩
  · have hr : i.reading ≠ .truncated := by
      intro hr
      have hlt := (hd.truncated_iff_isCutOff hne).mp hr e he
      omega
    obtain ⟨e', he', hsize⟩ := hd.extent_of_complete hr hne
    obtain rfl := Option.some.inj (he.symm.trans he')
    rw [← hsize]
    exact ⟨rfl, fun other hother => decodeAt_eq_of_take_eq h hi hr hother⟩
  · have hr := (hd.truncated_iff_isCutOff hne).mpr hcut
    have hsize := (hd.isCutOff_of_truncated hr).2
    refine ⟨Instruction.mnemonic_of_truncated hr, ?_⟩
    rw [hsize, hlength]
    split_ifs <;> omega

theorem decodeAt_length_law_half_word :
    Extent.ofBytes? [0xFD, 0x21, 0x34] = some ⟨4, true⟩ ∧
    ∃ i, decodeAt [0x00, 0xFD, 0x21, 0x34] 1 0xFFFF = (i, 3) ∧ i.bytes = [0xFD, 0x21] ∧
      i.mnemonic = dataText i.bytes := by
  refine ⟨rfl, _, rfl, rfl, ?_⟩
  have law := decodeAt_length_law (by decide) (rfl : decodeAt [0x00, 0xFD, 0x21, 0x34] 1 0xFFFF = _)
  exact (law.2.2.2 (by decide)).1

end SpectrumListing.Z80
