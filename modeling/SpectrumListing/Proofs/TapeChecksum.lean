import Mathlib
import SpectrumListing.Tape.Block

/-!
# Checksums of tape blocks

A block that is long enough to have a checksum is valid if the exclusive or of all its bytes is
zero, the checksum included. Changing a single byte changes the exclusive or by as much as the byte.
-/
namespace SpectrumListing.Tape

/-- The exclusive or of all bytes. -/
def parity (bytes : List UInt8) : UInt8 := bytes.foldr (· ^^^ ·) 0

@[simp] theorem parity_nil : parity [] = 0 := rfl

@[simp] theorem parity_cons (b : UInt8) (bytes : List UInt8) :
    parity (b :: bytes) = b ^^^ parity bytes := rfl

theorem parity_append (front back : List UInt8) :
    parity (front ++ back) = parity front ^^^ parity back := by
  induction front with
  | nil => simp
  | cons b front ih => simp [ih, UInt8.xor_assoc]

theorem foldl_xor (start : UInt8) (bytes : List UInt8) :
    bytes.foldl (· ^^^ ·) start = start ^^^ parity bytes := by
  induction bytes generalizing start with
  | nil => simp
  | cons b bytes ih => simp [ih, UInt8.xor_assoc]

theorem parity_set {bytes : List UInt8} {p : ℕ} (hp : p < bytes.length) (v : UInt8) :
    parity (bytes.set p v) = bytes[p] ^^^ v ^^^ parity bytes := by
  induction bytes generalizing p with
  | nil => cases hp
  | cons b bytes ih =>
    cases p with
    | zero =>
      have hcancel : b ^^^ v ^^^ b = v := by
        rw [UInt8.xor_comm b v, UInt8.xor_assoc, UInt8.xor_self, UInt8.xor_zero]
      simp only [List.set_cons_zero, parity_cons, List.getElem_cons_zero, ← UInt8.xor_assoc,
        hcancel]
    | succ p =>
      have hp : p < bytes.length := by simpa using hp
      simp only [List.set_cons_succ, parity_cons, ih hp, List.getElem_cons_succ]
      ac_rfl

/-- Bytes that cancel out no longer do so once one of them is changed. -/
theorem parity_set_ne_zero {bytes : List UInt8} (h : parity bytes = 0) {p : ℕ}
    (hp : p < bytes.length) {v : UInt8} (hv : v ≠ bytes[p]) : parity (bytes.set p v) ≠ 0 := by
  rw [parity_set hp, h, UInt8.xor_zero, ne_eq, UInt8.xor_eq_zero_iff]
  exact hv.symm

namespace Block

theorem computedChecksum_eq (b : Block) : b.computedChecksum = parity b.data.dropLast := by
  rw [computedChecksum, foldl_xor, UInt8.zero_xor]

theorem mismatch?_of_short {b : Block} (h : b.data.length < 2) : b.mismatch? = none := by
  have hnone : b.checksum? = none := if_neg (by omega)
  rw [mismatch?, hnone]

theorem isValid_of_long {b : Block} (h : 2 ≤ b.data.length) :
    b.isValid = true ↔ parity b.data = 0 := by
  have hne : b.data ≠ [] := List.length_pos_iff.mp (by omega)
  have hstored : b.checksum? = some (b.data.getLast hne) := by
    rw [checksum?, if_pos h, List.getLast?_eq_some_getLast hne]
  have hparity : parity b.data = b.computedChecksum ^^^ b.data.getLast hne := by
    conv_lhs => rw [← List.dropLast_append_getLast hne, parity_append]
    rw [computedChecksum_eq, parity_cons, parity_nil, UInt8.xor_zero]
  rw [hparity, UInt8.xor_eq_zero_iff, isValid, mismatch?, hstored]
  by_cases he : b.data.getLast hne = b.computedChecksum
  · simp [he]
  · simp [he, Ne.symm he]

/-- A block without checksum is valid, and any other if its bytes cancel out. -/
theorem isValid_iff (b : Block) : b.isValid = true ↔ b.data.length < 2 ∨ parity b.data = 0 := by
  rcases Nat.lt_or_ge b.data.length 2 with hshort | hlong
  · simp [isValid, mismatch?_of_short hshort, hshort]
  · rw [isValid_of_long hlong]
    simp [Nat.not_lt.mpr hlong]

/-- The exclusive or of flag and payload completes them to a valid block. -/
theorem isValid_of_parity (index : ℕ) (flag : UInt8) (payload : List UInt8) :
    (⟨index, flag :: payload ++ [parity (flag :: payload)]⟩ : Block).isValid = true := by
  rw [isValid_iff]
  right
  rw [parity_append, parity_cons (parity (flag :: payload)), parity_nil, UInt8.xor_zero,
    UInt8.xor_self]

theorem payload_of_flag_checksum (index : ℕ) (flag checksum : UInt8) {payload : List UInt8}
    (h : payload ≠ []) : (⟨index, flag :: payload ++ [checksum]⟩ : Block).payload = payload := by
  have hpos := List.length_pos_iff.mpr h
  have hlong : 2 < (flag :: payload ++ [checksum]).length := by simpa using hpos
  rw [Block.payload, if_pos hlong]
  simp

end Block

end SpectrumListing.Tape
