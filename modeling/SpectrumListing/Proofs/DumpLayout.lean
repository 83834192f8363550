import Mathlib
import SpectrumListing.Proofs.DataRows

/-!
# The columns of a dump

The rows of a dump are sixteen bytes apart, and each of them has its columns in the same places. So
the bytes can be read off the lines again, and a dump that is interrupted after a full row goes on
as if it had started there.
-/
namespace SpectrumListing.HexDump

/-- The rows by their number, each with its address and its part of the bytes. -/
theorem rows_eq_map_range (bytes : List UInt8) (base : UInt16) :
    rows bytes base = (List.range (bytes.length ⌈/⌉ 16)).map fun i =>
      ⟨base + UInt16.ofNat (16 * i), (bytes.drop (16 * i)).take 16⟩ := by
  induction bytes, base using rows_induction with
  | nil base => simp [rows_nil]
  | row bytes base hne ih =>
    have hcount : bytes.length ⌈/⌉ 16 = (bytes.drop 16).length ⌈/⌉ 16 + 1 := by
      have hpos := List.length_pos_iff.mpr hne
      simp only [Nat.ceilDiv_eq_add_pred_div, List.length_drop]
      omega
    rw [rows_of_ne_nil hne, ih, hcount, List.range_succ_eq_map, List.map_cons, List.map_map]
    refine congrArg₂ List.cons (by simp) (List.map_congr_left fun i _ => ?_)
    have haddress : base + UInt16.ofNat 16 + UInt16.ofNat (16 * i) =
        base + UInt16.ofNat (16 * (i + 1)) := by
      rw [UInt16.add_assoc, ← UInt16.ofNat_add, Nat.mul_add, Nat.mul_one, Nat.add_comm (16 * i)]
    rw [Function.comp_apply, haddress, List.drop_drop, Nat.mul_add, Nat.mul_one,
      Nat.add_comm (16 * i)]

/-- Behind full rows a dump goes on as if it had started there. -/
theorem rows_append {front : List UInt8} (h : 16 ∣ front.length) (back : List UInt8)
    (base : UInt16) :
    rows (front ++ back) base =
      rows front base ++ rows back (base + UInt16.ofNat front.length) := by
  induction front, base using rows_induction with
  | nil base => simp [rows_nil]
  | row front base hne ih =>
    have hfull : 16 ≤ front.length := Nat.le_of_dvd (List.length_pos_iff.mpr hne) h
    have haddress : base + UInt16.ofNat 16 + UInt16.ofNat (front.drop 16).length =
        base + UInt16.ofNat front.length := by
      rw [UInt16.add_assoc, ← UInt16.ofNat_add, List.length_drop, Nat.add_sub_cancel' hfull]
    have htail := ih (by simpa using Nat.dvd_sub h (dvd_refl 16))
    rw [haddress] at htail
    rw [rows_of_ne_nil hne, rows_of_ne_nil (by simp [hne]), List.take_append_of_le_length hfull,
      List.drop_append_of_le_length hfull, htail, List.cons_append]

theorem shownChar_eq (b : UInt8) :
    shownChar b = if 0x20 ≤ b ∧ b ≤ 0x7E then Char.ofNat b.toNat else '.' := by
  have hiff : b < 0x7F ↔ b ≤ 0x7E := by
    rw [UInt8.lt_iff_toNat_lt, UInt8.le_iff_toNat_le]
    exact Nat.lt_succ_iff
  simp only [shownChar, hiff]

/-- A line of a dump: an address of four digits, a colon and a blank, a column of 47 characters with
the bytes, two blanks, and one character for every byte. -/
def IsLine (address : ℕ) (bytes : List UInt8) (line : String) : Prop :=
  ∃ digits column : List Char,
    line.toList = digits ++ ([':', ' '] ++ (column ++ ([' ', ' '] ++ bytes.map shownChar))) ∧
    Hex.IsWord digits address ∧ Hex.IsRow 47 column bytes

theorem Row.isLine_text {r : Row} (h : r.bytes.length ≤ 16) :
    IsLine r.address.toNat r.bytes r.text :=
  ⟨_, _, r.toList_text, Hex.isWord_word r.address, Hex.isRow_padRight (by omega)⟩

namespace IsLine

variable {address : ℕ} {bytes : List UInt8} {line : String}

/-- The bytes in the column of a line. -/
theorem readRow?_eq (h : IsLine address bytes line) :
    Hex.readRow? ((line.toList.drop 6).take 47) = some bytes := by
  obtain ⟨digits, column, hline, hdigits, hcolumn⟩ := h
  rw [hline, ← List.append_assoc, List.drop_left' (by simp [hdigits.1]),
    List.take_left' hcolumn.1, hcolumn.readRow?_eq]

/-- The characters start in the same place on every line. -/
theorem drop_eq (h : IsLine address bytes line) :
    line.toList.drop 55 = bytes.map shownChar := by
  obtain ⟨digits, column, hline, hdigits, hcolumn⟩ := h
  rw [hline]
  simp only [← List.append_assoc]
  exact List.drop_left' (by simp [hdigits.1, hcolumn.1])

end IsLine

/-- The dump of bytes as lines of text. -/
def lines (bytes : List UInt8) (base : UInt16) : List String := (rows bytes base).map Row.text

/-- The bytes in the columns of lines, one line after the other. -/
def readLines? : List String → Option (List UInt8)
  | [] => some []
  | line :: lines =>
    (Hex.readRow? ((line.toList.drop 6).take 47)).bind fun bytes =>
      (readLines? lines).map (bytes ++ ·)

theorem readLines?_lines (bytes : List UInt8) (base : UInt16) :
    readLines? (lines bytes base) = some bytes := by
  induction bytes, base using rows_induction with
  | nil base =>
    rw [lines, rows_nil]
    rfl
  | row bytes base hne ih =>
    have hrow : IsLine base.toNat (bytes.take 16) (Row.text ⟨base, bytes.take 16⟩) :=
      Row.isLine_text (List.length_take_le 16 bytes)
    rw [lines] at ih
    rw [lines, rows_of_ne_nil hne, List.map_cons, readLines?, hrow.readRow?_eq, ih]
    simp

theorem isLine_getElem {bytes : List UInt8} {base : UInt16} {i : ℕ}
    (h : i < (lines bytes base).length) :
    IsLine ((base.toNat + 16 * i) % 65536) ((bytes.drop (16 * i)).take 16)
      (lines bytes base)[i] := by
  have haddress : (base + UInt16.ofNat (16 * i)).toNat = (base.toNat + 16 * i) % 65536 := by
    rw [UInt16.toNat_add, UInt16.toNat_ofNat']
    omega
  have hline : (lines bytes base)[i] =
      Row.text ⟨base + UInt16.ofNat (16 * i), (bytes.drop (16 * i)).take 16⟩ := by
    simp only [lines, rows_eq_map_range, List.getElem_map, List.getElem_range]
  rw [hline, ← haddress]
  exact Row.isLine_text (List.length_take_le 16 _)

/-- A dump has a line for every sixteen bytes and one for what is left over. Each line shows its
address, which is counted on from that of the first, and its bytes in the same columns, both as
digits and as characters. The bytes can be read off the columns, and a dump of full rows is
continued by the dump of what follows. -/
theorem dump_roundtrip (bytes : List UInt8) (base : UInt16) :
    (lines bytes base).length = bytes.length ⌈/⌉ 16 ∧
    (∀ i (h : i < (lines bytes base).length),
      let row := (bytes.drop (16 * i)).take 16
      IsLine ((base.toNat + 16 * i) % 65536) row (lines bytes base)[i] ∧
      (lines bytes base)[i].toList.drop 55 = row.map fun b =>
        if 0x20 ≤ b ∧ b ≤ 0x7E then Char.ofNat b.toNat else '.') ∧
    readLines? (lines bytes base) = some bytes ∧
    ∀ more : List UInt8, 16 ∣ bytes.length →
      lines (bytes ++ more) base =
        lines bytes base ++ lines more (UInt16.ofNat (base.toNat + bytes.length)) := by
  refine ⟨?_, fun i h => ?_, readLines?_lines bytes base, fun more h => ?_⟩
  · rw [lines, rows_eq_map_range, List.length_map, List.length_map, List.length_range]
  · have hline := isLine_getElem h
    exact ⟨hline, hline.drop_eq.trans (List.map_congr_left fun b _ => shownChar_eq b)⟩
  · have haddress : UInt16.ofNat (base.toNat + bytes.length) =
        base + UInt16.ofNat bytes.length := by
      rw [UInt16.ofNat_add, UInt16.ofNat_toNat]
    rw [lines, rows_append h, List.map_append, haddress, lines, lines]

/-- A full row that goes beyond the last address, and two bytes behind it. -/
theorem dump_roundtrip_wrapped :
    let front := List.replicate 16 (0x41 : UInt8)
    let bytes := front ++ [0x7F, 0x7E]
    16 ∣ front.length ∧ lines bytes 0xFFF8 = lines front 0xFFF8 ++ lines [0x7F, 0x7E] 0x0008 ∧
      (∃ h : 1 < (lines bytes 0xFFF8).length,
        IsLine 0x0008 [0x7F, 0x7E] (lines bytes 0xFFF8)[1] ∧
          (lines bytes 0xFFF8)[1].toList.drop 55 = ['.', '~']) ∧
      readLines? (lines bytes 0xFFF8) = some bytes := by
  intro front bytes
  obtain ⟨-, -, -, happend⟩ := dump_roundtrip front 0xFFF8
  obtain ⟨hcount, hline, hread, -⟩ := dump_roundtrip bytes 0xFFF8
  have hfull : 16 ∣ front.length := by decide
  have haddress : UInt16.ofNat (UInt16.toNat 0xFFF8 + front.length) = 0x0008 := by decide
  rw [haddress] at happend
  have hsecond : 1 < (lines bytes 0xFFF8).length := by
    rw [hcount, Nat.ceilDiv_eq_add_pred_div]
    decide
  exact ⟨hfull, happend [0x7F, 0x7E] hfull, ⟨hsecond, hline 1 hsecond⟩, hread⟩

end SpectrumListing.HexDump
