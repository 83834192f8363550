import Mathlib
import SpectrumListing.Proofs.ListingText
import SpectrumListing.Proofs.TapeListing
import SpectrumListing.Proofs.Trimming

/-!
# Lines in the text of a tape's listing

Whatever a tape holds is shown in digits or as printable characters, except for the names in its
headers: a line feed in front of the last visible byte of a name is shown as it is, in the title of
the entry's section. `innerBreaks` counts the line breaks inside of lines, part by part, and over a
whole listing it finds those in names and no others. Where there are none the text is cut into its
lines at the line breaks, and has as many lines as the listing.
-/
namespace SpectrumListing

/-- The number of line breaks in a text. -/
def breaks (text : String) : ℕ := text.toList.count '\n'

theorem breaks_eq_zero_iff {text : String} : breaks text = 0 ↔ Unbroken text := List.count_eq_zero

theorem Unbroken.breaks_eq {text : String} (h : Unbroken text) : breaks text = 0 :=
  breaks_eq_zero_iff.mpr h

@[simp] theorem breaks_append (a b : String) : breaks (a ++ b) = breaks a + breaks b := by
  rw [breaks, String.toList_append, List.count_append, breaks, breaks]

@[simp] theorem breaks_hexByte (b : UInt8) : breaks (Hex.byte b) = 0 :=
  (Unbroken.hexByte b).breaks_eq

@[simp] theorem breaks_hexWord (w : UInt16) : breaks (Hex.word w) = 0 :=
  (Unbroken.hexWord w).breaks_eq

@[simp] theorem breaks_decimal (n : ℕ) : breaks n.repr = 0 := (Unbroken.decimal n).breaks_eq

theorem length_splitOn_break (cs : List Char) :
    (cs.splitOn '\n').length = cs.count '\n' + 1 := by
  rw [List.splitOn_eq_splitOnP]
  induction cs with
  | nil => simp
  | cons c cs ih =>
    rw [List.splitOnP_cons_eq_if_modifyHead, List.count_cons]
    split_ifs <;> simp_all

namespace HexDump

theorem shownChar_ne_break (b : UInt8) : shownChar b ≠ '\n' := by
  revert b
  decide +kernel

theorem Row.unbroken_text (r : Row) : Unbroken r.text := by
  have hshown : Unbroken (String.ofList (r.bytes.map shownChar)) := by
    rw [Unbroken, String.toList_ofList]
    intro h
    obtain ⟨b, -, hb⟩ := List.mem_map.mp h
    exact shownChar_ne_break b hb
  exact ((((Unbroken.hexWord _).append (by decide)).append (.padRight (.hexBytes _) _)).append
    (by decide)).append hshown

end HexDump

namespace Tape

theorem Kind.unbroken_title (k : Kind) : Unbroken k.title := by
  unfold title
  split <;> decide

namespace Header

/-- Whether a line feed stands in a field before a byte that is not blank. -/
def HoldsBreak (field : List UInt8) : Prop :=
  ∃ front back, field = front ++ 0x0A :: back ∧ ∃ b ∈ back, isBlank (nameChar b) = false

theorem nameChar_eq_break_iff (b : UInt8) : nameChar b = '\n' ↔ b = 0x0A := by
  revert b
  decide +kernel

theorem unbroken_nameOfBytes_iff (field : List UInt8) :
    Unbroken (nameOfBytes field) ↔ ¬ HoldsBreak field := by
  rw [Unbroken, nameOfBytes, String.toList_ofList, mem_trimEnd_iff (by decide)]
  refine not_congr ⟨?_, ?_⟩
  · rintro ⟨front, back, hsplit, d, hd, hshown⟩
    obtain ⟨front, rest, rfl, rfl, hrest⟩ := List.map_eq_append_iff.mp hsplit
    obtain ⟨b, back, rfl, hb, rfl⟩ := List.map_eq_cons_iff.mp hrest
    obtain ⟨last, hlast, rfl⟩ := List.mem_map.mp hd
    rw [(nameChar_eq_break_iff b).mp hb]
    exact ⟨front, back, rfl, last, hlast, hshown⟩
  · rintro ⟨front, back, rfl, b, hb, hshown⟩
    refine ⟨front.map nameChar, back.map nameChar, ?_, nameChar b, List.mem_map_of_mem hb, hshown⟩
    rw [List.map_append, List.map_cons, (nameChar_eq_break_iff 0x0A).mpr rfl]

end Header

end Tape

namespace Listing

open SpectrumListing.Tape

theorem breaks_joinLines {lines : List String} (hne : lines ≠ []) :
    breaks (joinLines lines) = lines.length + (lines.map breaks).sum := by
  have hbreak : breaks "\n" = 1 := by decide
  rw [joinLines, breaks_append, hbreak]
  induction lines with
  | nil => exact absurd rfl hne
  | cons line lines ih =>
    rcases eq_or_ne lines [] with rfl | hrest
    · rw [String.intercalate_singleton]
      simp [Nat.add_comm]
    · have hlines := ih hrest
      rw [String.intercalate_cons_of_ne_nil hrest, breaks_append, breaks_append, hbreak]
      simp only [List.length_cons, List.map_cons, List.sum_cons]
      omega

/-- The number of line breaks inside of lines. -/
def innerBreaks (lines : List Line) : ℕ := (lines.map fun line => breaks line.text).sum

theorem breaks_render {lines : List Line} (hne : lines ≠ []) :
    breaks (render lines) = lines.length + innerBreaks lines := by
  rw [render, breaks_joinLines (by simpa using hne), List.length_map, List.map_map, innerBreaks]
  rfl

theorem innerBreaks_eq_zero_iff {lines : List Line} :
    innerBreaks lines = 0 ↔ ∀ line ∈ lines, Unbroken line.text := by
  simp [innerBreaks, List.sum_eq_zero_iff, breaks_eq_zero_iff]

@[simp] theorem innerBreaks_nil : innerBreaks [] = 0 := rfl

@[simp] theorem innerBreaks_blank_cons (lines : List Line) :
    innerBreaks (.blank :: lines) = innerBreaks lines := Nat.zero_add _

@[simp] theorem innerBreaks_comment_cons (words : String) (lines : List Line) :
    innerBreaks (.comment words :: lines) = breaks words + innerBreaks lines := by
  have hmark : breaks "; " = 0 := by decide
  simp [innerBreaks, Line.text, hmark]

@[simp] theorem innerBreaks_append (front back : List Line) :
    innerBreaks (front ++ back) = innerBreaks front + innerBreaks back := by
  simp [innerBreaks]

@[simp] theorem innerBreaks_codeLines (bytes : List UInt8) (base : UInt16) :
    innerBreaks (codeLines bytes base) = 0 := by
  rw [innerBreaks_eq_zero_iff]
  intro line hline
  obtain ⟨i, -, rfl⟩ := List.mem_map.mp hline
  exact i.unbroken_line

@[simp] theorem innerBreaks_dumpLines (bytes : List UInt8) (base : UInt16) :
    innerBreaks (dumpLines bytes base) = 0 := by
  rw [innerBreaks_eq_zero_iff]
  intro line hline
  obtain ⟨r, -, rfl⟩ := List.mem_map.mp hline
  exact .append (by decide) r.unbroken_text

theorem innerBreaks_checksumLines (b : Block) : innerBreaks (checksumLines b) = 0 := by
  unfold checksumLines
  split <;> simp (disch := decide) [Unbroken.breaks_eq]

theorem innerBreaks_optionalDump (hex : Bool) (bytes : List UInt8) :
    innerBreaks (optionalDump hex bytes) = 0 := by
  unfold optionalDump
  split_ifs <;> simp

theorem innerBreaks_describedData (hex : Bool) (h : Header) (payload : List UInt8) :
    innerBreaks (describedData hex h payload) = 0 := by
  have hdump := innerBreaks_optionalDump hex payload
  unfold describedData
  cases h.kind <;> simp (disch := decide) [Unbroken.breaks_eq, hdump]

theorem innerBreaks_undescribedData (hex : Bool) (payload : List UInt8) :
    innerBreaks (undescribedData hex payload) = 0 := by
  unfold undescribedData
  split_ifs <;> simp (disch := decide) [Unbroken.breaks_eq]

/-- Only the title of a section can hold line breaks, and only in the name. -/
theorem innerBreaks_entryLines (hex : Bool) (e : Entry) :
    innerBreaks (entryLines hex e) = (e.header.map fun h => breaks h.name).getD 0 := by
  have hchecksum := innerBreaks_checksumLines e.data
  unfold entryLines
  cases e.header with
  | some h =>
    have hdata := innerBreaks_describedData hex h e.data.payload
    have htitle := h.kind.unbroken_title.breaks_eq
    simp (disch := decide) [Unbroken.breaks_eq, hchecksum, hdata, htitle]
  | none =>
    have hdata := innerBreaks_undescribedData hex e.data.payload
    simp (disch := decide) [Unbroken.breaks_eq, hchecksum, hdata]

/-- The names in the headers of the entries that are listed. -/
def listedNames (options : Options) (image : Image) : List String :=
  (selectedEntries options image).filterMap fun e => e.header.map Header.name

theorem innerBreaks_flatMap_entryLines (hex : Bool) (entries : List Entry) :
    innerBreaks (entries.flatMap (entryLines hex)) =
      ((entries.filterMap fun e => e.header.map Header.name).map breaks).sum := by
  induction entries with
  | nil => rfl
  | cons e entries ih =>
    rw [List.flatMap_cons, innerBreaks_append, innerBreaks_entryLines, ih]
    cases hh : e.header <;> simp [hh]

theorem innerBreaks_tape (fileName : String) (image : Image) (options : Options) :
    innerBreaks (tape fileName image options) =
      breaks fileName + ((listedNames options image).map breaks).sum := by
  simp (disch := decide) [tape, banner, rule, closing, Unbroken.breaks_eq,
    innerBreaks_flatMap_entryLines, listedNames]

@[simp] theorem code_mem_codeLines {bytes : List UInt8} {base : UInt16} {i : Z80.Instruction} :
    Line.code i ∈ codeLines bytes base ↔ i ∈ Z80.decodeBlock bytes base := by
  simp [codeLines]

@[simp] theorem code_not_mem_dumpLines (bytes : List UInt8) (base : UInt16)
    (i : Z80.Instruction) : Line.code i ∉ dumpLines bytes base := by
  simp [dumpLines]

theorem code_not_mem_checksumLines (b : Block) (i : Z80.Instruction) :
    Line.code i ∉ checksumLines b := by
  unfold checksumLines
  split <;> simp

theorem code_not_mem_optionalDump (hex : Bool) (bytes : List UInt8) (i : Z80.Instruction) :
    Line.code i ∉ optionalDump hex bytes := by
  unfold optionalDump
  split_ifs <;> simp

theorem code_mem_describedData {hex : Bool} {h : Header} {payload : List UInt8}
    {i : Z80.Instruction} (hi : Line.code i ∈ describedData hex h payload) :
    h.kind = .code ∧ i ∈ Z80.decodeBlock payload h.start := by
  have hdump := code_not_mem_optionalDump hex payload i
  unfold describedData at hi
  split at hi <;> simp_all

theorem code_mem_undescribedData {hex : Bool} {payload : List UInt8} {i : Z80.Instruction}
    (hi : Line.code i ∈ undescribedData hex payload) :
    payload.length ≠ screenSize ∧ i ∈ Z80.decodeBlock payload 0 := by
  unfold undescribedData at hi
  split_ifs at hi <;> simp_all

theorem code_mem_entryLines {hex : Bool} {e : Entry} {i : Z80.Instruction}
    (hi : Line.code i ∈ entryLines hex e) :
    i ∈ Z80.decodeBlock e.data.payload e.firstAddress := by
  have hchecksum := code_not_mem_checksumLines e.data i
  unfold entryLines at hi
  cases hh : e.header with
  | some h =>
    simp only [hh, List.cons_append, List.nil_append, List.mem_cons, List.mem_append, hchecksum,
      reduceCtorEq, false_or] at hi
    obtain ⟨hkind, hi⟩ := code_mem_describedData hi
    simpa [Entry.firstAddress, hh, hkind] using hi
  | none =>
    simp only [hh, List.cons_append, List.nil_append, List.mem_cons, List.mem_append, hchecksum,
      reduceCtorEq, false_or] at hi
    obtain ⟨hsize, hi⟩ := code_mem_undescribedData hi
    have hscreen : e.isScreen = false := by simpa [Entry.isScreen, hh, screenSize] using hsize
    simpa [Entry.firstAddress, hh, hscreen] using hi

theorem code_mem_tape {fileName : String} {image : Image} {options : Options}
    {i : Z80.Instruction} (hi : Line.code i ∈ tape fileName image options) :
    ∃ e ∈ selectedEntries options image, i ∈ Z80.decodeBlock e.data.payload e.firstAddress := by
  simp only [tape, banner, rule, closing, List.mem_append, List.mem_cons, List.mem_flatMap,
    List.not_mem_nil, reduceCtorEq, or_false, false_or] at hi
  obtain ⟨e, he, hi⟩ := hi
  exact ⟨e, he, code_mem_entryLines hi⟩

/-- A line is blank, a comment, or shows an instruction of a listed entry. -/
theorem text_of_mem_tape {fileName : String} {image : Image} {options : Options} {line : Line}
    (h : line ∈ tape fileName image options) :
    line.text = "" ∨ line.text.toList.head? = some ';' ∨
      ∃ e ∈ selectedEntries options image,
        ∃ i ∈ Z80.decodeBlock e.data.payload e.firstAddress, line.text = i.line := by
  cases line with
  | blank => exact .inl rfl
  | comment words => exact .inr (.inl (by simp [Line.text]))
  | dump row => exact .inr (.inl (by simp [Line.text]))
  | code i =>
    obtain ⟨e, he, hi⟩ := code_mem_tape h
    exact .inr (.inr ⟨e, he, i, hi, rfl⟩)

/-- Beside the one at the end of each line, a listing has the line breaks in the name of the file
and in the names of the listed headers. Exactly if there are none, no line is broken, the text is
cut into the lines of the listing at its line breaks, and there are as many of them as lines. A line
is blank, a comment, or shows an instruction of a listed entry. The name of a header holds a line
break exactly if a line feed stands in its field before a byte that is not blank. -/
theorem tape_text_lines (fileName : String) (bytes : List UInt8) (options : Options) :
    let image := Image.ofBytes bytes
    let lines := tape fileName image options
    let names := listedNames options image
    breaks (render lines) = lines.length + breaks fileName + (names.map breaks).sum ∧
    [∀ line ∈ lines, Unbroken line.text,
      (render lines).toList.splitOn '\n' = lines.map (·.text.toList) ++ [[]],
      breaks (render lines) = lines.length,
      Unbroken fileName ∧ ∀ name ∈ names, Unbroken name].TFAE ∧
    (∀ line ∈ lines, line.text = "" ∨ line.text.toList.head? = some ';' ∨
      ∃ e ∈ selectedEntries options image,
        ∃ i ∈ Z80.decodeBlock e.data.payload e.firstAddress, line.text = i.line) ∧
    ∀ e ∈ selectedEntries options image, ∀ h, e.header = some h →
      ∃ block, image.blocks[e.index]? = some block ∧
        (Unbroken h.name ↔ ¬ Header.HoldsBreak (Header.nameField block.data)) := by
  intro image lines names
  have hne : lines ≠ [] := by simp [lines, tape]
  have htext : breaks (render lines) = lines.length + innerBreaks lines := breaks_render hne
  have hinner : innerBreaks lines = breaks fileName + (names.map breaks).sum :=
    innerBreaks_tape fileName image options
  refine ⟨by omega, ?_, fun line hline => text_of_mem_tape hline, fun e he h hh => ?_⟩
  · tfae_have 1 → 2 := fun hlines => by
      rw [render, splitOn_joinLines (by simpa using hne) (by simpa using hlines), List.map_map]
      rfl
    tfae_have 2 → 3 := fun hsplit => by
      have hlength := congrArg List.length hsplit
      rw [length_splitOn_break] at hlength
      simpa [breaks] using hlength
    tfae_have 3 → 4 := fun hcount => by
      have hzero : breaks fileName = 0 ∧ (names.map breaks).sum = 0 := by omega
      simpa [List.sum_eq_zero_iff, breaks_eq_zero_iff] using hzero
    tfae_have 4 → 1 := fun hnames => by
      rw [← innerBreaks_eq_zero_iff, hinner]
      simpa [List.sum_eq_zero_iff, breaks_eq_zero_iff] using hnames
    tfae_finish
  · have hentry : e ∈ image.entries := List.mem_of_mem_filter he
    obtain ⟨⟨block, hblock, parses⟩, -⟩ := Image.of_mem_entries_of_some hentry hh
    refine ⟨block, hblock, ?_⟩
    rw [Header.name_eq_of_ofBytes? parses, Header.unbroken_nameOfBytes_iff]

/-- A header whose name is `A`, a line feed and `B` breaks the title of its section, and the text
has a line more than the listing. -/
theorem title_broken_by_name :
    let bytes : List UInt8 :=
      [0x13, 0x00, 0x00, 0x03, 0x41, 0x0A, 0x42, 0x20, 0x20, 0x20, 0x20, 0x20, 0x20, 0x20,
        0x01, 0x00, 0x00, 0x80, 0x00, 0x80, 0x2B, 0x03, 0x00, 0xFF, 0xC9, 0x36]
    let lines := tape "t.tap" (Image.ofBytes bytes) ⟨false, none⟩
    Unbroken "t.tap" ∧ ¬ (∀ line ∈ lines, Unbroken line.text) ∧
      lines.length = 12 ∧ breaks (render lines) = 13 ∧
      lines[5]?.map Line.text = some "; === Block 0/1: Code \"A\nB\" ===" := by
  intro bytes lines
  have hlength : lines.length = 12 := by cbv
  have hinner : innerBreaks lines = 1 := by cbv
  have hbreaks := breaks_render (List.ne_nil_of_length_pos (by omega : 0 < lines.length))
  have htitle : lines[5]?.map Line.text = some "; === Block 0/1: Code \"A\nB\" ===" := by cbv
  refine ⟨by decide, ?_, hlength, by omega, htitle⟩
  rw [← innerBreaks_eq_zero_iff, hinner]
  exact one_ne_zero

end Listing

end SpectrumListing
