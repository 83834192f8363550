import Mathlib
import SpectrumListing.Proofs.RawListing

/-!
# Rows of data in a listing

Lines of code and lines of a dump show an address and bytes in fixed columns. `DataRow.read?` reads
them off the text of a line; a comment that does not start like a row is passed over. The rows that
a disassembly or a dump shows are `Consecutive`: no byte is missing or out of place.
-/
namespace SpectrumListing

namespace HexDump

theorem rows_nil (base : UInt16) : rows [] base = [] := Unfold.toList_of_none rfl

theorem rows_of_ne_nil {bytes : List UInt8} (hne : bytes ≠ []) (base : UInt16) :
    rows bytes base =
      ⟨base, bytes.take 16⟩ :: rows (bytes.drop 16) (base + UInt16.ofNat 16) := by
  apply Unfold.toList_of_some
  simp [source, read?, hne, bytesPerRow]

/-- What holds of no bytes, and of bytes if it holds of those behind their first row, holds of all
bytes. -/
theorem rows_induction {motive : List UInt8 → UInt16 → Prop} (nil : ∀ base, motive [] base)
    (row : ∀ bytes base, bytes ≠ [] → motive (bytes.drop 16) (base + UInt16.ofNat 16) →
      motive bytes base) (bytes : List UInt8) (base : UInt16) : motive bytes base := by
  induction hn : bytes.length using Nat.strongRecOn generalizing bytes base with
  | _ n ih =>
    subst hn
    rcases eq_or_ne bytes [] with rfl | hne
    · exact nil base
    · have hpos := List.length_pos_iff.mpr hne
      refine row bytes base hne (ih (bytes.drop 16).length ?_ _ _ rfl)
      rw [List.length_drop]
      omega

theorem length_le_of_mem_rows {bytes : List UInt8} {base : UInt16} {r : Row}
    (h : r ∈ rows bytes base) : r.bytes.length ≤ 16 := by
  induction bytes, base using rows_induction with
  | nil base =>
    rw [rows_nil] at h
    cases h
  | row bytes base hne ih =>
    rw [rows_of_ne_nil hne] at h
    rcases List.mem_cons.mp h with rfl | h
    · exact List.length_take_le 16 bytes
    · exact ih h

theorem Row.toList_text (r : Row) :
    r.text.toList = (Hex.word r.address).toList ++ ([':', ' '] ++
      ((padRight 47 (Hex.bytes r.bytes)).toList ++ ([' ', ' '] ++ r.bytes.map shownChar))) := by
  simp [text, bytesPerRow]

end HexDump

namespace Listing

/-- An address and the bytes shown beside it. -/
structure DataRow where
  address : UInt16
  bytes : List UInt8
deriving DecidableEq, Repr

namespace DataRow

/-- Reads four digits, a colon and a blank, and the bytes in a column of the given width. -/
def ofColumns? (width : ℕ) (cs : List Char) : Option DataRow :=
  if (cs.drop 4).take 2 = [':', ' '] then
    (Hex.read? (cs.take 4)).bind fun address =>
      (Hex.readRow? ((cs.drop 6).take width)).map (DataRow.mk (UInt16.ofNat address))
  else none

/-- Reads a line of code, or a line of a dump behind a semicolon and a blank. -/
def read? (line : String) : Option DataRow :=
  match line.toList with
  | ';' :: ' ' :: cs => ofColumns? 47 cs
  | cs => ofColumns? 16 cs

theorem ofColumns?_eq {width : ℕ} {digits column : List Char} {address : UInt16}
    {bytes : List UInt8} (hlength : digits.length = 4)
    (haddress : Hex.read? digits = some address.toNat) (hrow : Hex.IsRow width column bytes)
    (rest : List Char) :
    ofColumns? width (digits ++ ([':', ' '] ++ (column ++ rest))) = some ⟨address, bytes⟩ := by
  have hbytes : ((digits ++ ([':', ' '] ++ (column ++ rest))).drop 6).take width = column := by
    rw [← List.append_assoc, List.drop_left' (by simp [hlength]), List.take_left' hrow.1]
  have hmark : ((digits ++ ([':', ' '] ++ (column ++ rest))).drop 4).take 2 = [':', ' '] := by
    rw [List.drop_left' hlength]
    rfl
  rw [ofColumns?, if_pos hmark, hbytes, List.take_left' hlength, haddress, hrow.readRow?_eq]
  simp

/-- Whether a text starts like a row: with four digits, a colon and a blank. -/
def opensRow (cs : List Char) : Bool :=
  (cs.drop 4).take 2 == [':', ' '] && (Hex.read? (cs.take 4)).isSome

theorem ofColumns?_eq_none {width : ℕ} {cs : List Char} (h : opensRow cs = false) :
    ofColumns? width cs = none := by
  rw [opensRow, Bool.and_eq_false_iff] at h
  rcases h with h | h
  · rw [ofColumns?, if_neg (by simpa using h)]
  · have hnone : Hex.read? (cs.take 4) = none := by simpa using h
    simp [ofColumns?, hnone]

theorem opensRow_append {start : List Char} (h : 6 ≤ start.length) (rest : List Char) :
    opensRow (start ++ rest) = opensRow start := by
  rw [opensRow, opensRow, List.drop_append_of_le_length (by omega),
    List.take_append_of_le_length (by simp; omega), List.take_append_of_le_length (by omega)]

theorem read?_of_isShownBy {r : CodeRow} {line : String} (h : r.IsShownBy line) :
    read? line = some ⟨r.address, r.bytes⟩ := by
  obtain ⟨digits, column, hline, hlength, haddress, hrow⟩ := h
  unfold read?
  split
  · next cs hcs =>
    -- A semicolon is not a digit.
    rcases digits with _ | ⟨c, digits⟩
    · cases hlength
    rw [hline, List.cons_append, List.cons.injEq] at hcs
    rw [hcs.1] at haddress
    cases haddress
  · rw [hline]
    exact ofColumns?_eq hlength haddress hrow _

theorem read?_comment (words : String) : read? ("; " ++ words) = ofColumns? 47 words.toList := by
  unfold read?
  rw [String.toList_append]
  rfl

end DataRow

namespace Line

/-- The address and the bytes on a line. -/
def row? : Line → Option DataRow
  | code i => some ⟨i.address, i.bytes⟩
  | dump r => some ⟨r.address, r.bytes⟩
  | blank | comment _ => none

/-- Whether a line's text shows the address and the bytes on it, and none if it has none. -/
def IsLegible (line : Line) : Prop := DataRow.read? line.text = line.row?

@[simp] theorem isLegible_blank : IsLegible blank := rfl

@[simp] theorem isLegible_comment {words : String} (h : DataRow.opensRow words.toList = false) :
    IsLegible (comment words) :=
  (DataRow.read?_comment words).trans (DataRow.ofColumns?_eq_none h)

@[simp] theorem isLegible_comment_append {start : String} (hlength : 6 ≤ start.toList.length)
    (h : DataRow.opensRow start.toList = false) (rest : String) :
    IsLegible (comment (start ++ rest)) := by
  apply isLegible_comment
  rw [String.toList_append, DataRow.opensRow_append hlength, h]

theorem isLegible_code {i : Z80.Instruction} (h : i.size ≤ 5) : IsLegible (code i) :=
  DataRow.read?_of_isShownBy (isShownBy_line h)

theorem isLegible_dump {r : HexDump.Row} (h : r.bytes.length ≤ 16) : IsLegible (dump r) := by
  change DataRow.read? ("; " ++ r.text) = some ⟨r.address, r.bytes⟩
  rw [DataRow.read?_comment, r.toList_text]
  exact DataRow.ofColumns?_eq (by simp [Hex.toList_word]) (Hex.read?_word _)
    (Hex.isRow_padRight (by omega)) _

end Line

/-- The rows of data on lines, in order. -/
def dataRows (lines : List Line) : List DataRow := lines.filterMap Line.row?

@[simp] theorem dataRows_nil : dataRows [] = [] := rfl

@[simp] theorem dataRows_blank_cons (lines : List Line) :
    dataRows (.blank :: lines) = dataRows lines := rfl

@[simp] theorem dataRows_comment_cons (words : String) (lines : List Line) :
    dataRows (.comment words :: lines) = dataRows lines := rfl

@[simp] theorem dataRows_append (front back : List Line) :
    dataRows (front ++ back) = dataRows front ++ dataRows back :=
  List.filterMap_append

/-- Whether the text of each of the lines shows what is on it. -/
def AreLegible (lines : List Line) : Prop := ∀ line ∈ lines, line.IsLegible

@[simp] theorem areLegible_nil : AreLegible [] := List.forall_mem_nil _

@[simp] theorem areLegible_cons {line : Line} {lines : List Line} :
    AreLegible (line :: lines) ↔ line.IsLegible ∧ AreLegible lines :=
  List.forall_mem_cons

@[simp] theorem areLegible_append {front back : List Line} :
    AreLegible (front ++ back) ↔ AreLegible front ∧ AreLegible back :=
  List.forall_mem_append

@[simp] theorem areLegible_codeLines (bytes : List UInt8) (base : UInt16) :
    AreLegible (codeLines bytes base) := by
  intro line hline
  obtain ⟨i, hi, rfl⟩ := List.mem_map.mp hline
  exact Line.isLegible_code (size_le_of_mem_decodeBlock hi)

@[simp] theorem areLegible_dumpLines (bytes : List UInt8) (base : UInt16) :
    AreLegible (dumpLines bytes base) := by
  intro line hline
  obtain ⟨r, hr, rfl⟩ := List.mem_map.mp hline
  exact Line.isLegible_dump (HexDump.length_le_of_mem_rows hr)

/-- The rows of legible lines can be read off their text. -/
theorem AreLegible.filterMap_read? {lines : List Line} (h : AreLegible lines) :
    (lines.map Line.text).filterMap DataRow.read? = dataRows lines := by
  rw [List.filterMap_map]
  exact List.filterMap_congr h

/-- Rows that show bytes from an address on, each where the one before it ends. -/
inductive Consecutive : UInt16 → List UInt8 → List DataRow → Prop
  | nil (address : UInt16) : Consecutive address [] []
  | cons (row : DataRow) {bytes : List UInt8} {rows : List DataRow}
      (tail : Consecutive (row.address + UInt16.ofNat row.bytes.length) bytes rows) :
      Consecutive row.address (row.bytes ++ bytes) (row :: rows)

namespace Consecutive

variable {address : UInt16} {bytes : List UInt8} {rows : List DataRow}

theorem flatMap_bytes (h : Consecutive address bytes rows) :
    rows.flatMap DataRow.bytes = bytes := by
  induction h with
  | nil _ => rfl
  | cons _ _ ih => rw [List.flatMap_cons, ih]

theorem address_getElem (h : Consecutive address bytes rows) (k : ℕ) (hk : k < rows.length) :
    rows[k].address =
      address + UInt16.ofNat ((rows.take k).flatMap DataRow.bytes).length := by
  induction h generalizing k with
  | nil _ => cases hk
  | cons row _ ih =>
    cases k with
    | zero =>
      change row.address = row.address + 0
      rw [UInt16.add_zero]
    | succ k =>
      rw [List.getElem_cons_succ, ih k (by simpa using hk), List.take_succ_cons,
        List.flatMap_cons, List.length_append, UInt16.ofNat_add, UInt16.add_assoc]

end Consecutive

theorem consecutive_of_swept {base : UInt16} {bytes : List UInt8} {is : List Z80.Instruction}
    (h : Z80.Swept base bytes is) :
    Consecutive base bytes (dataRows (is.map Line.code)) := by
  induction h with
  | nil base => exact .nil base
  | @cons base rest i is head _ _ ih =>
    have haddress : i.address = base := head.address_eq
    subst haddress
    exact .cons ⟨i.address, i.bytes⟩ ih

theorem consecutive_codeLines (bytes : List UInt8) (base : UInt16) :
    Consecutive base bytes (dataRows (codeLines bytes base)) :=
  consecutive_of_swept (Z80.swept_decodeBlock bytes base)

theorem consecutive_dumpLines (bytes : List UInt8) (base : UInt16) :
    Consecutive base bytes (dataRows (dumpLines bytes base)) := by
  induction bytes, base using HexDump.rows_induction with
  | nil base =>
    rw [dumpLines, HexDump.rows_nil]
    exact .nil base
  | row bytes base hne ih =>
    -- The next row starts sixteen bytes further on; after a shorter row there is none.
    have tail : Consecutive (base + UInt16.ofNat (bytes.take 16).length) (bytes.drop 16)
        (dataRows (dumpLines (bytes.drop 16) (base + UInt16.ofNat 16))) := by
      rcases le_or_gt 16 bytes.length with hfull | hshort
      · rwa [List.length_take_of_le hfull]
      · rw [List.drop_of_length_le hshort.le, dumpLines, HexDump.rows_nil]
        exact .nil _
    have hrow := Consecutive.cons ⟨base, bytes.take 16⟩ tail
    rw [List.take_append_drop] at hrow
    rw [dumpLines, HexDump.rows_of_ne_nil hne]
    exact hrow

end Listing

end SpectrumListing
