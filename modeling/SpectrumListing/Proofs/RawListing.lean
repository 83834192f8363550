import Mathlib
import SpectrumListing.Proofs.HexRow
import SpectrumListing.Proofs.ListingText
import SpectrumListing.Proofs.Partition

/-!
# Reading a listing of machine code back

A line of code shows an address, bytes and a mnemonic in fixed columns, so it can be read in one way
only. The lines between the opening and the closing of a listing, read one by one, are the
instructions of the code, and the bytes on them are the code.
-/
namespace SpectrumListing.Listing

open SpectrumListing.Z80

/-- What a line of code shows. -/
structure CodeRow where
  address : UInt16
  bytes : List UInt8
  mnemonic : String
deriving DecidableEq, Repr

/-- Four digits, a colon and a blank, a column of sixteen characters with the bytes, one more blank
and the mnemonic. -/
def CodeRow.IsShownBy (r : CodeRow) (line : String) : Prop :=
  ∃ digits column : List Char,
    line.toList = digits ++ ([':', ' '] ++ (column ++ ([' '] ++ r.mnemonic.toList))) ∧
    digits.length = 4 ∧ Hex.read? digits = some r.address.toNat ∧ Hex.IsRow 16 column r.bytes

theorem CodeRow.eq_of_isShownBy {r r' : CodeRow} {line : String} (h : r.IsShownBy line)
    (h' : r'.IsShownBy line) : r = r' := by
  obtain ⟨digits, column, hline, hlength, haddress, hrow⟩ := h
  obtain ⟨digits', column', hline', hlength', haddress', hrow'⟩ := h'
  -- The columns have the same widths in both readings, so both cut the line at the same places.
  obtain ⟨rfl, hbehind⟩ := List.append_inj (hline.symm.trans hline') (hlength.trans hlength'.symm)
  obtain ⟨rfl, hend⟩ :=
    List.append_inj (List.append_cancel_left hbehind) (hrow.1.trans hrow'.1.symm)
  have hword : r.address = r'.address :=
    UInt16.toNat_inj.mp (Option.some.inj (haddress.symm.trans haddress'))
  have hbytes : r.bytes = r'.bytes :=
    Option.some.inj (hrow.readRow?_eq.symm.trans hrow'.readRow?_eq)
  have hmnemonic : r.mnemonic = r'.mnemonic :=
    String.toList_inj.mp (List.append_cancel_left hend)
  cases r
  cases r'
  rw [CodeRow.mk.injEq]
  exact ⟨hword, hbytes, hmnemonic⟩

def rowOf (i : Instruction) : CodeRow := ⟨i.address, i.bytes, i.mnemonic⟩

theorem isShownBy_line {i : Instruction} (h : i.size ≤ 5) : (rowOf i).IsShownBy i.line := by
  refine ⟨(Hex.word i.address).toList, (padRight 16 (Hex.bytes i.bytes)).toList, ?_, ?_,
    Hex.read?_word i.address, Hex.isRow_padRight ?_⟩
  · simp [Instruction.line, rowOf]
  · simp [Hex.toList_word]
  · change 3 * i.size ≤ 17
    omega

theorem isShownBy_line_iff {i : Instruction} (h : i.size ≤ 5) {r : CodeRow} :
    r.IsShownBy i.line ↔ r = rowOf i := by
  constructor
  · intro hr
    exact CodeRow.eq_of_isShownBy hr (isShownBy_line h)
  · rintro rfl
    exact isShownBy_line h

theorem forall₂_isShownBy_iff {is : List Instruction} (h : ∀ i ∈ is, i.size ≤ 5)
    {rows : List CodeRow} :
    List.Forall₂ CodeRow.IsShownBy rows (is.map Instruction.line) ↔ rows = is.map rowOf := by
  induction is generalizing rows with
  | nil => simp
  | cons i is ih =>
    have hhead := h i (by simp)
    have htail (j : Instruction) (hj : j ∈ is) := h j (by simp [hj])
    rcases rows with _ | ⟨r, rows⟩
    · simp
    · rw [List.map_cons, List.map_cons, List.forall₂_cons, isShownBy_line_iff hhead, ih htail,
        List.cons.injEq]

/-- The lines before the code. -/
def opening (fileName : String) (code : List UInt8) (origin : UInt16) : List String :=
  ["; " ++ String.ofList (List.replicate 60 '='),
    "; Z80 Disassembly of " ++ fileName,
    "; " ++ String.ofList (List.replicate 60 '='),
    "; ORG: 0x" ++ Hex.word origin,
    "; Length: " ++ toString code.length ++ " bytes (0x" ++ Hex.number 4 code.length ++ ")",
    ""]

theorem map_text_raw (fileName : String) (code : List UInt8) (origin : UInt16) :
    (raw fileName code origin).map Line.text =
      opening fileName code origin ++ (decodeBlock code origin).map Instruction.line ++
        ["", "; === End of Disassembly ==="] := by
  simp only [raw, banner, rule, closing, codeLines, opening, List.map_append, List.map_cons,
    List.map_nil, List.map_map, Line.text, ← String.append_assoc]
  rfl

theorem unbroken_of_mem_opening {fileName : String} (h : Unbroken fileName) (code : List UInt8)
    (origin : UInt16) : ∀ line ∈ opening fileName code origin, Unbroken line := by
  have hrule : Unbroken ("; " ++ String.ofList (List.replicate 60 '=')) :=
    .append (by decide) (.replicate (by decide) 60)
  have hlength : Unbroken ("; Length: " ++ toString code.length ++ " bytes (0x" ++
      Hex.number 4 code.length ++ ")") :=
    ((((Unbroken.append (by decide) (.decimal _)).append (by decide)).append (.digits _ _)).append
      (by decide))
  intro line hline
  simp only [opening, List.mem_cons, List.not_mem_nil, or_false] at hline
  rcases hline with rfl | rfl | rfl | rfl | rfl | rfl
  · exact hrule
  · exact .append (by decide) h
  · exact hrule
  · exact .append (by decide) (.hexWord origin)
  · exact hlength
  · decide

theorem splitOn_render_raw {fileName : String} (h : Unbroken fileName) (code : List UInt8)
    (origin : UInt16) :
    (render (raw fileName code origin)).toList.splitOn '\n' =
      (opening fileName code origin ++ (decodeBlock code origin).map Instruction.line ++
        ["", "; === End of Disassembly ==="]).map String.toList ++ [[]] := by
  rw [render, map_text_raw]
  refine splitOn_joinLines (by simp) fun line hline => ?_
  rcases List.mem_append.mp hline with hline | hline
  · rcases List.mem_append.mp hline with hline | hline
    · exact unbroken_of_mem_opening h code origin line hline
    · obtain ⟨i, -, rfl⟩ := List.mem_map.mp hline
      exact i.unbroken_line
  · have hall : ∀ line ∈ ["", "; === End of Disassembly ==="], Unbroken line := by decide
    exact hall line hline

theorem size_le_of_mem_decodeBlock {code : List UInt8} {origin : UInt16} {i : Instruction}
    (h : i ∈ decodeBlock code origin) : i.size ≤ 5 := by
  obtain ⟨-, address, input, hd⟩ := (swept_decodeBlock code origin).exists_decoded h
  exact hd.size_le_four.trans (by omega)

/-- The text of a listing of code, cut at its line breaks, has six opening lines, one line for each
instruction and two closing lines. A line of code can be read in one way only, and the rows that are
read are the instructions of the code, so that their bytes are the code. -/
theorem raw_roundtrip {fileName : String} (hname : '\n' ∉ fileName.toList) (code : List UInt8)
    (origin : UInt16) :
    ∃ body : List String,
      (render (raw fileName code origin)).toList.splitOn '\n' =
        (opening fileName code origin ++ body ++ ["", "; === End of Disassembly ==="]).map
          String.toList ++ [[]] ∧
      (∀ line ∈ body, ∃! r : CodeRow, r.IsShownBy line) ∧
      (∀ rows : List CodeRow, List.Forall₂ CodeRow.IsShownBy rows body ↔
        rows = (decodeBlock code origin).map rowOf) ∧
      ∀ rows : List CodeRow, List.Forall₂ CodeRow.IsShownBy rows body →
        rows.flatMap CodeRow.bytes = code := by
  have hsize (i : Instruction) (hi : i ∈ decodeBlock code origin) := size_le_of_mem_decodeBlock hi
  refine ⟨(decodeBlock code origin).map Instruction.line, splitOn_render_raw hname code origin,
    fun line hline => ?_, fun rows => forall₂_isShownBy_iff hsize, fun rows hrows => ?_⟩
  · obtain ⟨i, hi, rfl⟩ := List.mem_map.mp hline
    exact ⟨rowOf i, isShownBy_line (hsize i hi), fun r => (isShownBy_line_iff (hsize i hi)).mp⟩
  · rw [(forall₂_isShownBy_iff hsize).mp hrows, List.flatMap_map]
    exact (swept_decodeBlock code origin).flatMap_bytes

theorem raw_roundtrip_two_instructions :
    '\n' ∉ "game.bin".toList ∧ ∃ body : List String,
      (render (raw "game.bin" [0x3E, 0x01, 0xC9] 0xFFFF)).toList.splitOn '\n' =
        (opening "game.bin" [0x3E, 0x01, 0xC9] 0xFFFF ++ body ++
          ["", "; === End of Disassembly ==="]).map String.toList ++ [[]] ∧
      List.Forall₂ CodeRow.IsShownBy
        [⟨0xFFFF, [0x3E, 0x01], "LD A, 0x01"⟩, ⟨0x0001, [0xC9], "RET"⟩] body := by
  have hname : '\n' ∉ "game.bin".toList := by decide
  have hrows : [⟨0xFFFF, [0x3E, 0x01], "LD A, 0x01"⟩, ⟨0x0001, [0xC9], "RET"⟩] =
      (decodeBlock [0x3E, 0x01, 0xC9] 0xFFFF).map rowOf := by
    cbv
  obtain ⟨body, hsplit, -, hread, -⟩ := raw_roundtrip hname [0x3E, 0x01, 0xC9] 0xFFFF
  exact ⟨hname, body, hsplit, (hread _).mpr hrows⟩

end SpectrumListing.Listing
