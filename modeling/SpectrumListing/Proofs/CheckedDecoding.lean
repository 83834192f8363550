import Mathlib
import SpectrumListing.Proofs.CheckedOpcodes
import SpectrumListing.Proofs.InstructionLength

/-!
# Decoding on machine words

Decoding at a 64-bit offset, with the opcode tables on bytes and a reader on words. It never faults:
on every buffer, offset and base it has the result of `Z80.decodeAt`. The cases are those of
`Decoded`, one for each way in which an input can select a pattern or end too early.
-/
namespace SpectrumListing

open Z80

namespace Checked

/-- The statement that a pattern makes of what is read. -/
def readStatement (base : UInt16) (p : Pattern) : Step Reading :=
  return .statement (← readPattern base p)

def behindBits : Step Reading := do
  let opcode ← readByte
  return .statement (← bits opcode)

def behindExtended (base : UInt16) : Step Reading := do
  let opcode ← readByte
  match ← extended? opcode with
  | some p => readStatement base p
  | none => return .undefined opcode

def behindIndex (base : UInt16) (i : IndexRegister) : Step Reading := do
  let opcode ← readByte
  if opcode = Prefix.bits.byte then
    let d ← readByte
    let last ← readByte
    return .statement (← indexedBits i d last)
  else readStatement base (← indexed i opcode)

/-- What follows from the first byte of an instruction. -/
def behind (base : UInt16) (opcode : UInt8) : Step Reading :=
  match opcode with
  | 0xCB => behindBits
  | 0xDD => behindIndex base .ix
  | 0xED => behindExtended base
  | 0xFD => behindIndex base .iy
  | _ => do readStatement base (← plain opcode)

/-- The instruction at the reader, and the position after it. Where the input is exhausted within
the instruction, the bytes read until then make up a truncated one. -/
def decodeAt (r : Reader) (base : UInt16) : Except Fault (Instruction × UInt64) := do
  match ← readByte.exec r with
  | (none, _) => return (⟨r.address base, [], .finished⟩, r.position)
  | (some opcode, next) =>
    let (reading?, last) ← (behind base opcode).exec next
    let bytes ← last.consumedSince r.position
    return (⟨r.address base, bytes, reading?.getD .truncated⟩, last.position)

variable {base : UInt16} {r : Reader}

theorem exec_readByte_bind {β : Type} {b : UInt8} {rest : List UInt8}
    (h : r.cursor.rest = b :: rest) (f : UInt8 → Step β) :
    Step.exec (readByte >>= f) r = (f b).exec (r.advance 1) :=
  Step.exec_bind_some (exec_readByte_of_cons h) f

theorem rest_advance_two {b c : UInt8} {rest : List UInt8} (h : r.cursor.rest = b :: c :: rest) :
    (r.advance 2).cursor.rest = rest := by
  have hrest := Reader.rest_advance_one (Reader.rest_advance_one h)
  rwa [Reader.advance_advance] at hrest

theorem exec_readStatement_ok {p : Pattern} {s : Statement} {taken : ℕ}
    (h : p.read (r.address base) r.cursor.rest = .ok (s, taken)) :
    (readStatement base p).exec r = .ok (some (.statement s), r.advance taken) := by
  have hread := exec_readPattern base p r
  rw [h] at hread
  exact Step.exec_bind_some hread _

theorem exec_readStatement_error {p : Pattern} {taken : ℕ}
    (h : p.read (r.address base) r.cursor.rest = .error taken) :
    (readStatement base p).exec r = .ok (none, r.advance taken) := by
  have hread := exec_readPattern base p r
  rw [h] at hread
  exact Step.exec_bind_none hread _

theorem exec_readStatement_ofStatement (base : UInt16) (s : Statement) (r : Reader) :
    (readStatement base (.ofStatement s)).exec r = .ok (some (.statement s), r) := by
  rw [exec_readStatement_ok (Pattern.read_ofStatement _ s _), Reader.advance_zero]

theorem behind_of_none {op : UInt8} (h : Prefix.ofByte? op = none) (base : UInt16) :
    behind base op = (do readStatement base (← plain op)) := by
  unfold behind
  split
  · cases h
  · cases h
  · cases h
  · cases h
  · rfl

theorem behind_index (base : UInt16) (i : IndexRegister) :
    behind base i.prefixByte = behindIndex base i := by
  cases i <;> rfl

theorem exec_behind_extended (base : UInt16) {op : UInt8} {rest : List UInt8}
    (hr : r.cursor.rest = Prefix.extended.byte :: op :: rest) :
    Step.exec (readByte >>= behind base) r =
      (match Pattern.extended? op with
        | some p => readStatement base p
        | none => return .undefined op).exec (r.advance 2) := by
  rw [exec_readByte_bind hr]
  change (behindExtended base).exec (r.advance 1) = _
  rw [behindExtended, exec_readByte_bind (Reader.rest_advance_one hr),
    Step.exec_lift_bind (extended?_eq op), Reader.advance_advance]

theorem exec_behind_indexBits (base : UInt16) (i : IndexRegister) {rest : List UInt8}
    (hr : r.cursor.rest = i.prefixByte :: Prefix.bits.byte :: rest) :
    Step.exec (readByte >>= behind base) r =
      Step.exec (do return .statement (← indexedBits i (← readByte) (← readByte)))
        (r.advance 2) := by
  rw [exec_readByte_bind hr, behind_index, behindIndex,
    exec_readByte_bind (Reader.rest_advance_one hr), if_pos rfl, Reader.advance_advance]

/-- Behind the opcode bytes, the pattern that they select is read. -/
theorem exec_behind_of_selects {opcode : List UInt8} {p : Pattern} {rest : List UInt8}
    (h : Selects opcode p) (hr : r.cursor.rest = opcode ++ rest) :
    Step.exec (readByte >>= behind base) r =
      (readStatement base p).exec (r.advance opcode.length) := by
  cases h with
  | @plain op h =>
    rw [exec_readByte_bind hr, behind_of_none h, Step.exec_lift_bind (plain_eq op)]
    rfl
  | bits op =>
    rw [exec_readByte_bind hr]
    change behindBits.exec (r.advance 1) = _
    rw [behindBits, exec_readByte_bind (Reader.rest_advance_one hr),
      Step.exec_lift_bind (bits_eq op), Step.exec_pure, exec_readStatement_ofStatement,
      Reader.advance_advance]
    rfl
  | @extended op p h =>
    rw [exec_behind_extended base hr, h]
    rfl
  | @index i op h =>
    rw [exec_readByte_bind hr, behind_index, behindIndex,
      exec_readByte_bind (Reader.rest_advance_one hr), if_neg h,
      Step.exec_lift_bind (indexed_eq i op), Reader.advance_advance]
    rfl
  | indexBits i d op =>
    have hd := rest_advance_two hr
    rw [exec_behind_indexBits base i hr, exec_readByte_bind hd,
      exec_readByte_bind (Reader.rest_advance_one hd), Step.exec_lift_bind (indexedBits_eq i d op),
      Step.exec_pure, exec_readStatement_ofStatement, Reader.advance_advance,
      Reader.advance_advance]
    rfl

/-- An input that ends among the opcode bytes is read to its end. -/
theorem exec_behind_of_unfinished {input : List UInt8} (h : Unfinished input) (hne : input ≠ [])
    (hr : r.cursor.rest = input) :
    Step.exec (readByte >>= behind base) r = .ok (none, r.advance input.length) := by
  cases h with
  | nil => exact absurd rfl hne
  | lead lead =>
    have hend := exec_readByte_of_nil (Reader.rest_advance_one hr)
    rw [exec_readByte_bind hr]
    cases lead with
    | bits => exact Step.exec_bind_none hend _
    | extended => exact Step.exec_bind_none hend _
    | index i =>
      change (behind base i.prefixByte).exec (r.advance 1) = _
      rw [behind_index]
      exact Step.exec_bind_none hend _
  | bits i =>
    rw [exec_behind_indexBits base i hr]
    exact Step.exec_bind_none (exec_readByte_of_nil (rest_advance_two hr)) _
  | displacement i d =>
    have hd := rest_advance_two hr
    rw [exec_behind_indexBits base i hr, exec_readByte_bind hd,
      Step.exec_bind_none (exec_readByte_of_nil (Reader.rest_advance_one hd)),
      Reader.advance_advance]
    rfl

theorem read_behind {opcode rest : List UInt8} (p : Pattern) (base : UInt16)
    (hr : r.cursor.rest = opcode ++ rest) :
    p.read ((r.advance opcode.length).address base) (r.advance opcode.length).cursor.rest =
      p.read (r.address base + UInt16.ofNat opcode.length) rest := by
  rw [Reader.rest_advance (by simp [hr]), hr, List.drop_left, Reader.address_advance]

theorem length_append_take {taken : ℕ} {rest : List UInt8} (opcode : List UInt8)
    (h : taken ≤ rest.length) : (opcode ++ rest.take taken).length = opcode.length + taken := by
  rw [List.length_append, List.length_take, Nat.min_eq_left h]

/-- Reading the instruction at the front of what is left ends right behind its bytes. -/
theorem exec_behind {i : Instruction} (hd : Decoded (r.address base) r.cursor.rest i)
    (hne : r.cursor.rest ≠ []) :
    ∃ reading?, Step.exec (readByte >>= behind base) r = .ok (reading?, r.advance i.size) ∧
      reading?.getD .truncated = i.reading := by
  -- Each case of `hd` gives the bytes that are left, and with them every read up to the operands.
  generalize hr : r.cursor.rest = input at hd hne
  cases hd with
  | finished => exact absurd rfl hne
  | @complete opcode rest p s taken selects read =>
    have hle := (Pattern.read_ok_taken read).2
    rw [← read_behind p base hr] at read
    refine ⟨some (.statement s), ?_, rfl⟩
    rw [exec_behind_of_selects selects hr, exec_readStatement_ok read, Reader.advance_advance,
      Instruction.size, length_append_take opcode hle]
  | @undefined op rest none =>
    refine ⟨some (.undefined op), ?_, rfl⟩
    rw [exec_behind_extended base hr, none]
    rfl
  | @cutOperand opcode rest p taken selects read =>
    have hle := (Pattern.read_error_taken read).2.1
    rw [← read_behind p base hr] at read
    refine ⟨none, ?_, rfl⟩
    rw [exec_behind_of_selects selects hr, exec_readStatement_error read, Reader.advance_advance,
      Instruction.size, length_append_take opcode hle]
  | cutOpcode unfinished ne => exact ⟨_, exec_behind_of_unfinished unfinished ne hr, rfl⟩

/-- Decoding on words gives whatever instruction the bytes at the reader decode to. -/
theorem decodeAt_of_decoded {i : Instruction} (hd : Decoded (r.address base) r.cursor.rest i) :
    decodeAt r base = .ok (i, (r.advance i.size).position) := by
  rcases hr : r.cursor.rest with _ | ⟨b, rest⟩
  · rw [hr] at hd
    obtain rfl := hd.decode_eq
    simp only [decodeAt, exec_readByte_of_nil hr, bind, Except.bind, decode_nil, Instruction.size,
      List.length_nil, Reader.advance_zero]
    rfl
  · obtain ⟨reading?, hexec, hreading⟩ := exec_behind hd (by simp [hr])
    rw [exec_readByte_bind hr] at hexec
    have hle : i.size ≤ r.cursor.rest.length := hd.bytes_prefix.length_le
    have hbytes : (r.advance i.size).consumedSince r.position = .ok i.bytes := by
      rw [Reader.consumedSince_eq, Reader.cursor_advance hle]
      exact congrArg _ (Cursor.consumedSince_advance hd.bytes_prefix)
    simp only [decodeAt, exec_readByte_of_cons hr, hexec, hbytes, hreading, bind, Except.bind,
      ← hd.address_eq]
    rfl

theorem decodeAt_eq_decode (r : Reader) (base : UInt16) :
    decodeAt r base = .ok (decode (r.address base) r.cursor.rest,
      (r.advance (decode (r.address base) r.cursor.rest).size).position) :=
  decodeAt_of_decoded (decoded_decode _ _)

theorem decodeAt_eq (r : Reader) (base : UInt16) :
    ∃ next, decodeAt r base = .ok ((Z80.decodeAt r.buffer r.position.toNat base).1, next) ∧
      next.toNat = (Z80.decodeAt r.buffer r.position.toNat base).2 := by
  have hd := decoded_decodeAt r.buffer r.position.toNat base
  have hchecked := decodeAt_eq_decode r base
  rw [r.address_eq] at hchecked
  exact ⟨_, hchecked, Reader.toNat_position_advance hd.bytes_prefix.length_le⟩

end Checked

namespace Z80

theorem decodeAt_of_length_le {buffer : List UInt8} {offset : ℕ} (h : buffer.length ≤ offset)
    (base : UInt16) :
    decodeAt buffer offset base = (⟨base + UInt16.ofNat offset, [], .finished⟩, offset) := by
  rw [decodeAt, Cursor.rest, List.drop_of_length_le h, decode_nil]
  rfl

/-- Before the end of the buffer, an instruction takes one to four bytes from the offset on. -/
theorem decodeAt_extent {buffer : List UInt8} {offset next : ℕ} {base : UInt16} {i : Instruction}
    (h : offset < buffer.length) (hi : decodeAt buffer offset base = (i, next)) :
    offset < next ∧ next ≤ buffer.length ∧ next - offset ≤ 4 ∧
      i.bytes = buffer.extract offset next := by
  obtain ⟨hd, rfl⟩ := decoded_of_decodeAt_eq hi
  have hpos : 0 < i.size := List.length_pos_iff.mpr (hd.bytes_ne_nil (drop_ne_nil_of_lt h))
  have hle : i.size ≤ (buffer.drop offset).length := hd.bytes_prefix.length_le
  have hfour := hd.size_le_four
  rw [List.length_drop] at hle
  rw [List.extract_eq_take_drop, Nat.add_sub_cancel_left]
  exact ⟨by omega, by omega, hfour, List.prefix_iff_eq_take.mp hd.bytes_prefix⟩

/-- Decoding on words never faults. It has the result of decoding with unbounded numbers: at the end
of the buffer and beyond it the end mark, which takes nothing, and before it one to four bytes,
which stand in the buffer from the offset on. -/
theorem decodeAt_never_faults (buffer : List UInt8) (h : buffer.length < 2 ^ 63) (offset : UInt64)
    (base : UInt16) :
    ∃ i next, Checked.decodeAt ⟨buffer, offset, h⟩ base = .ok (i, next) ∧
      Z80.decodeAt buffer offset.toNat base = (i, next.toNat) ∧
      i.address.toNat = (base.toNat + offset.toNat) % 65536 ∧
      (buffer.length ≤ offset.toNat →
        i.mnemonic = "END" ∧ i.isEnd = true ∧ i.bytes = [] ∧ next = offset) ∧
      (offset.toNat < buffer.length →
        offset < next ∧ next.toNat ≤ buffer.length ∧
        1 ≤ next.toNat - offset.toNat ∧ next.toNat - offset.toNat ≤ 4 ∧
        i.bytes = buffer.extract offset.toNat next.toNat) := by
  obtain ⟨next, hchecked, hnext⟩ := Checked.decodeAt_eq ⟨buffer, offset, h⟩ base
  generalize hi : Z80.decodeAt buffer offset.toNat base = result at hchecked hnext
  obtain ⟨i, position⟩ := result
  obtain rfl := hnext
  refine ⟨i, next, hchecked, rfl, ?_, fun hle => ?_, fun hlt => ?_⟩
  · rw [(decoded_of_decodeAt_eq hi).1.address_eq, UInt16.toNat_add, UInt16.toNat_ofNat']
    omega
  · rw [decodeAt_of_length_le hle] at hi
    obtain ⟨rfl, hoffset⟩ := Prod.mk.inj hi
    exact ⟨rfl, rfl, rfl, (UInt64.toNat_inj.mp hoffset).symm⟩
  · obtain ⟨hpos, hle, hfour, hbytes⟩ := decodeAt_extent hlt hi
    exact ⟨UInt64.lt_iff_toNat_lt.mpr hpos, hle, by omega, hfour, hbytes⟩

theorem decodeAt_never_faults_last_offset :
    ∃ h : [0xFD, 0x21, 0x34].length < 2 ^ 63,
      (∃ i next, Checked.decodeAt ⟨[0xFD, 0x21, 0x34], 0xFFFFFFFFFFFFFFFF, h⟩ 2 = .ok (i, next) ∧
        i.address.toNat = 1 ∧ i.mnemonic = "END" ∧ next = 0xFFFFFFFFFFFFFFFF) ∧
      ∃ i next, Checked.decodeAt ⟨[0xFD, 0x21, 0x34], 0, h⟩ 0xFFFF = .ok (i, next) ∧
        next.toNat ≤ 3 ∧ i.bytes = [0xFD, 0x21, 0x34].extract 0 next.toNat := by
  refine ⟨by decide, ?_, ?_⟩
  · obtain ⟨i, next, hchecked, -, haddress, hend, -⟩ :=
      decodeAt_never_faults [0xFD, 0x21, 0x34] (by decide) 0xFFFFFFFFFFFFFFFF 2
    obtain ⟨hmnemonic, -, -, hnext⟩ := hend (by decide)
    exact ⟨i, next, hchecked, haddress, hmnemonic, hnext⟩
  · obtain ⟨i, next, hchecked, -, -, -, hextent⟩ :=
      decodeAt_never_faults [0xFD, 0x21, 0x34] (by decide) 0 0xFFFF
    obtain ⟨-, hle, -, -, hbytes⟩ := hextent (by decide)
    exact ⟨i, next, hchecked, hle, hbytes⟩

end Z80

end SpectrumListing
