import Mathlib
import SpectrumListing.Proofs.Mnemonic
import SpectrumListing.Z80.Sweep

/-!
# Sweeps partition their buffer

`Swept` builds a sweep instruction by instruction, each behind the bytes of those before it.
Decoding a buffer yields the only such sweep, so its instructions cut the buffer into consecutive
pieces, and the place of each follows from the sizes of its predecessors.
-/
namespace SpectrumListing.Z80

/-- The instructions of a buffer that is loaded at an address. -/
inductive Swept : UInt16 → List UInt8 → List Instruction → Prop
  | nil (base : UInt16) : Swept base [] []
  | cons {base : UInt16} {rest : List UInt8} {i : Instruction} {is : List Instruction}
      (head : Decoded base (i.bytes ++ rest) i) (ne : i.bytes ≠ [])
      (tail : Swept (base + UInt16.ofNat i.size) rest is) : Swept base (i.bytes ++ rest) (i :: is)

@[simp] theorem decodeBlock_nil (base : UInt16) : decodeBlock [] base = [] :=
  Unfold.toList_of_none rfl

theorem decodeBlock_of_ne_nil {buffer : List UInt8} (hne : buffer ≠ []) (base : UInt16) :
    decodeBlock buffer base = decode base buffer ::
      decodeBlock (buffer.drop (decode base buffer).size)
        (base + UInt16.ofNat (decode base buffer).size) := by
  apply Unfold.toList_of_some
  simp [Sweep.source, Sweep.next?, hne]

theorem Decoded.bytes_ne_nil {address : UInt16} {input : List UInt8} {i : Instruction}
    (h : Decoded address input i) (hne : input ≠ []) : i.bytes ≠ [] := by
  obtain ⟨b, rest, rfl⟩ := List.exists_cons_of_ne_nil hne
  have hpos := size_decode_pos address b rest
  rw [h.decode_eq] at hpos
  exact List.length_pos_iff.mp hpos

theorem Decoded.swept_cons {base : UInt16} {buffer : List UInt8} {i : Instruction}
    {is : List Instruction} (h : Decoded base buffer i) (hne : buffer ≠ [])
    (tail : Swept (base + UInt16.ofNat i.size) (buffer.drop i.size) is) :
    Swept base buffer (i :: is) := by
  have hb := h.bytes_ne_nil hne
  obtain ⟨rest, rfl⟩ := h.bytes_prefix
  rw [Instruction.size, List.drop_left] at tail
  exact .cons h hb tail

theorem swept_decodeBlock (buffer : List UInt8) (base : UInt16) :
    Swept base buffer (decodeBlock buffer base) := by
  induction hn : buffer.length using Nat.strongRecOn generalizing buffer base with
  | _ n ih =>
    rcases eq_or_ne buffer [] with rfl | hne
    · rw [decodeBlock_nil]
      exact .nil base
    · have hd := decoded_decode base buffer
      have hb := hd.bytes_ne_nil hne
      have hlen : (buffer.drop (decode base buffer).size).length < n := by
        have := List.length_pos_iff.mpr hb
        have := List.length_pos_iff.mpr hne
        rw [List.length_drop, Instruction.size]
        omega
      have tail := ih _ hlen (buffer.drop (decode base buffer).size)
        (base + UInt16.ofNat (decode base buffer).size) rfl
      rw [decodeBlock_of_ne_nil hne]
      exact hd.swept_cons hne tail

namespace Swept

variable {base : UInt16} {buffer : List UInt8} {is : List Instruction}

/-- A buffer has one sweep. -/
theorem eq_decodeBlock (h : Swept base buffer is) : is = decodeBlock buffer base := by
  induction h with
  | nil base => rw [decodeBlock_nil]
  | @cons base rest i is head ne _ ih =>
    rw [decodeBlock_of_ne_nil (by simp [ne]), head.decode_eq, Instruction.size, List.drop_left, ih,
      Instruction.size]

theorem flatMap_bytes (h : Swept base buffer is) : is.flatMap Instruction.bytes = buffer := by
  induction h with
  | nil _ => rfl
  | cons _ _ _ ih => rw [List.flatMap_cons, ih]

theorem exists_decoded (h : Swept base buffer is) {i : Instruction} (hi : i ∈ is) :
    i.bytes ≠ [] ∧ ∃ address input, Decoded address input i := by
  induction h with
  | nil _ => cases hi
  | cons head ne _ ih =>
    rcases List.mem_cons.mp hi with rfl | hi
    · exact ⟨ne, _, _, head⟩
    · exact ih hi

end Swept

/-- Bytes in front of the offset can be counted in the base instead. -/
theorem decodeAt_append (front rest : List UInt8) (offset : ℕ) (base : UInt16) :
    (decodeAt (front ++ rest) (front.length + offset) base).1 =
      (decodeAt rest offset (base + UInt16.ofNat front.length)).1 := by
  simp only [decodeAt, Cursor.rest, UInt16.ofNat_add, List.drop_length_add_append,
    ← UInt16.add_assoc]

theorem Swept.getElem_eq {base : UInt16} {buffer : List UInt8} {is : List Instruction}
    (h : Swept base buffer is) (k : ℕ) (hk : k < is.length) :
    is[k] = (decodeAt buffer ((is.take k).map Instruction.size).sum base).1 := by
  induction h generalizing k with
  | nil _ => simp at hk
  | @cons base rest i is head _ _ ih =>
    cases k with
    | zero =>
      change i = decode (base + 0) (i.bytes ++ rest)
      rw [UInt16.add_zero, head.decode_eq]
    | succ k =>
      rw [List.getElem_cons_succ, ih k (by simpa using hk)]
      simp only [List.take_succ_cons, List.map_cons, List.sum_cons, Instruction.size]
      rw [decodeAt_append]

/-- The instructions of a buffer are its consecutive pieces of one to four bytes. -/
theorem decodeBlock_partition (buffer : List UInt8) (base : UInt16) :
    (decodeBlock buffer base).flatMap Instruction.bytes = buffer ∧
    (∀ i ∈ decodeBlock buffer base, 1 ≤ i.size ∧ i.size ≤ 4 ∧ i.mnemonic ≠ "" ∧
      i.isEnd = false ∧ i.mnemonic ≠ "END") ∧
    ∀ k (hk : k < (decodeBlock buffer base).length),
      (decodeBlock buffer base)[k].address.toNat =
        (base.toNat + (((decodeBlock buffer base).take k).map Instruction.size).sum) % 65536 := by
  have swept := swept_decodeBlock buffer base
  refine ⟨swept.flatMap_bytes, fun i hi => ?_, fun k hk => ?_⟩
  · obtain ⟨ne, address, input, hd⟩ := swept.exists_decoded hi
    have hinput : input ≠ [] := by
      rintro rfl
      exact ne (List.prefix_nil.mp hd.bytes_prefix)
    obtain ⟨hempty, hend⟩ := hd.mnemonic_ne hinput
    have hisEnd : i.isEnd = false := by simpa [Instruction.isEnd] using ne
    exact ⟨List.length_pos_iff.mpr ne, hd.size_le_four, hempty, hisEnd, hend⟩
  · rw [swept.getElem_eq k hk, (decoded_decodeAt _ _ _).address_eq, UInt16.toNat_add,
      UInt16.toNat_ofNat']
    omega

end SpectrumListing.Z80
