import Mathlib
import SpectrumListing.Proofs.Spelling

/-!
# Rows of bytes in columns of fixed width

A row holds two digits for every byte with a space between neighbours, and spaces fill it up to the
width of its column. The text of a column determines the bytes of its row.
-/
namespace SpectrumListing.Hex

/-- Two characters that are the digits of a byte. -/
def IsByte (pair : List Char) (b : UInt8) : Prop :=
  pair.length = 2 ∧ read? pair = some b.toNat

/-- A column of the given width that shows a row of bytes. -/
def IsRow (width : ℕ) (column : List Char) (bytes : List UInt8) : Prop :=
  column.length = width ∧ ∃ (pairs : List (List Char)) (blanks : ℕ),
    column = [' '].intercalate pairs ++ List.replicate blanks ' ' ∧
    List.Forall₂ IsByte pairs bytes

theorem isByte_byte (b : UInt8) : IsByte (byte b).toList b :=
  ⟨by simp [toList_byte], read?_byte b⟩

/-- The bytes in a column, if it holds pairs of digits, a blank between neighbours and blanks behind
the last of them, and nothing else. -/
def readRow? : List Char → Option (List UInt8)
  | [] => some []
  | ' ' :: rest => if rest.all (· == ' ') then some [] else none
  | [a, b] => (read? [a, b]).map fun n => [UInt8.ofNat n]
  | a :: b :: ' ' :: rest =>
    (read? [a, b]).bind fun n => (readRow? rest).map (UInt8.ofNat n :: ·)
  | _ => none

theorem readRow?_blanks (blanks : ℕ) : readRow? (List.replicate blanks ' ') = some [] := by
  cases blanks with
  | zero => rfl
  | succ n => simp [List.replicate_succ, readRow?]

theorem IsByte.eq_pair {pair : List Char} {b : UInt8} (h : IsByte pair b) :
    ∃ c d, pair = [c, d] ∧ c ≠ ' ' ∧ read? [c, d] = some b.toNat := by
  obtain ⟨c, d, rfl⟩ := List.length_eq_two.mp h.1
  refine ⟨c, d, rfl, ?_, h.2⟩
  rintro rfl
  cases h.2

/-- A column shows at most one row. -/
theorem IsRow.readRow?_eq {width : ℕ} {column : List Char} {bytes : List UInt8}
    (h : IsRow width column bytes) : readRow? column = some bytes := by
  obtain ⟨-, pairs, blanks, rfl, hpairs⟩ := h
  induction hpairs with
  | nil => exact readRow?_blanks blanks
  | @cons pair b pairs bytes hpair hpairs ih =>
    obtain ⟨c, d, rfl, hc, hread⟩ := hpair.eq_pair
    -- Behind the last byte stand the blanks of the column, behind any other a separating blank.
    rcases eq_or_ne pairs [] with rfl | hne
    · cases hpairs
      cases blanks with
      | zero => simp [readRow?, hread]
      | succ n => simp [readRow?, hread, List.replicate_succ, readRow?_blanks]
    · rw [List.intercalate_cons_of_ne_nil hne]
      simp [readRow?, hread, ih]

theorem toList_bytes (bs : List UInt8) :
    (bytes bs).toList = [' '].intercalate (bs.map fun b => (byte b).toList) := by
  simp [bytes, String.toList_intercalate, Function.comp_def]

theorem length_bytes (bs : List UInt8) : (bytes bs).length = 3 * bs.length - 1 := by
  rw [← String.length_toList, toList_bytes]
  induction bs with
  | nil => rfl
  | cons b bs ih =>
    rcases eq_or_ne bs [] with rfl | hne
    · simp [toList_byte]
    · have hpos := List.length_pos_iff.mpr hne
      rw [List.map_cons, List.intercalate_cons_of_ne_nil (by simpa using hne)]
      simp only [List.length_append, (isByte_byte b).1, List.length_cons, List.length_nil, ih]
      omega

theorem isRow_padRight {width : ℕ} {bs : List UInt8} (h : 3 * bs.length ≤ width + 1) :
    IsRow width (padRight width (bytes bs)).toList bs := by
  have hlen := length_bytes bs
  have htext : (padRight width (bytes bs)).toList =
      [' '].intercalate (bs.map fun b => (byte b).toList) ++
        List.replicate (width - (bytes bs).length) ' ' := by
    simp [padRight, toList_bytes]
  constructor
  · rw [htext, ← toList_bytes, List.length_append, List.length_replicate, String.length_toList]
    omega
  · refine ⟨_, _, htext, ?_⟩
    rw [List.forall₂_map_left_iff]
    exact List.forall₂_same.mpr fun b _ => isByte_byte b

end SpectrumListing.Hex
