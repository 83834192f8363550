import Mathlib
import SpectrumListing.Proofs.Trimming
import SpectrumListing.Tape.Block
import SpectrumListing.Tape.Header

/-!
# Writing headers and reading them back

The fields of a header lie side by side and fill its nineteen bytes. A name of ASCII characters that
does not end with a blank is read from its field as it was written, with spaces behind it. What
reading a block loses is the last byte and, if the name is ASCII, which blanks stand behind the
name.
-/
namespace SpectrumListing

/-- The codes of blanks among the ASCII characters: from tab to carriage return, and the space. -/
def IsBlankCode (code : ℕ) : Prop := 0x09 ≤ code ∧ code ≤ 0x0D ∨ code = 0x20

theorem isBlank_iff_of_ascii {c : Char} (h : c.toNat < 0x80) :
    isBlank c = true ↔ IsBlankCode c.toNat := by
  simp only [isBlank, IsBlankCode, Bool.or_eq_true, Bool.and_eq_true, decide_eq_true_eq,
    beq_iff_eq]
  omega

namespace Tape

/-- A word, low byte first. -/
def wordBytes (w : UInt16) : List UInt8 := [lowByte w, highByte w]

theorem wordBytes_wordOfBytes (low high : UInt8) :
    wordBytes (wordOfBytes low high) = [low, high] := by
  rw [wordBytes, lowByte_wordOfBytes, highByte_wordOfBytes]

namespace Header

/-- A name that its field can hold as it is. -/
structure IsStorable (name : String) : Prop where
  length_le : name.length ≤ 10
  ascii : ∀ c ∈ name.toList, c.toNat < 0x80
  unpadded : ∀ c ∈ name.toList.getLast?, ¬ IsBlankCode c.toNat

def nameBytes (name : String) : List UInt8 := name.toList.map fun c => UInt8.ofNat c.toNat

/-- The field of a name, filled up with spaces to ten bytes. -/
def paddedName (name : String) : List UInt8 :=
  nameBytes name ++ List.replicate (10 - name.length) 0x20

/-- A header block from its fields. -/
def blockBytes (kind : UInt8) (name : String) (dataLength start extra : UInt16) (last : UInt8) :
    List UInt8 :=
  [0, kind] ++ paddedName name ++
    (wordBytes dataLength ++ wordBytes start ++ wordBytes extra ++ [last])

/-- The block of a header, with a last byte of any value. -/
def toBytes (h : Header) (last : UInt8) : List UInt8 :=
  blockBytes h.kind.toByte h.name h.dataLength h.start h.extra last

theorem ofBytes?_eq_none_iff {data : List UInt8} :
    ofBytes? data = none ↔ data.length ≠ 19 ∨ data.head? ≠ some 0 := by
  rw [ofBytes?, blockSize]
  split_ifs with h
  · simp [h]
  · simpa [imp_iff_not_or] using h

/-- The bytes of a block of the right size, field by field. -/
theorem exists_fields {data : List UInt8} (h : data.length = 19) :
    ∃ (flag kind : UInt8) (field : List UInt8) (dataLength start extra : UInt16) (last : UInt8),
      field.length = 10 ∧ data = [flag, kind] ++ field ++
        (wordBytes dataLength ++ wordBytes start ++ wordBytes extra ++ [last]) := by
  match data, h with
  | flag :: kind :: rest, h =>
    have hrest : rest.length = 17 := by simpa using h
    obtain ⟨a, b, c, d, e, f, last, htail⟩ :
        ∃ a b c d e f last, rest.drop 10 = [a, b, c, d, e, f, last] := by
      have htail : (rest.drop 10).length = 7 := by rw [List.length_drop, hrest]
      match rest.drop 10, htail with
      | [a, b, c, d, e, f, last], _ => exact ⟨a, b, c, d, e, f, last, rfl⟩
    refine ⟨flag, kind, rest.take 10, wordOfBytes a b, wordOfBytes c d, wordOfBytes e f, last,
      ?_, ?_⟩
    · rw [List.length_take, hrest]
      rfl
    · simp only [wordBytes_wordOfBytes, List.cons_append, List.nil_append]
      rw [← htail, List.take_append_drop]

theorem nameField_fields (flag kind : UInt8) {field : List UInt8} (h : field.length = 10)
    (rest : List UInt8) : nameField ([flag, kind] ++ field ++ rest) = field := by
  have hfront : ([flag, kind] ++ (field ++ rest)).drop 2 = field ++ rest := rfl
  rw [nameField, List.append_assoc, hfront, List.take_left' h]

/-- Each part of a header is read from the field that it belongs to. -/
theorem ofBytes?_fields (kind : UInt8) {field : List UInt8} (h : field.length = 10)
    (dataLength start extra : UInt16) (last : UInt8) :
    ofBytes? ([0, kind] ++ field ++
        (wordBytes dataLength ++ wordBytes start ++ wordBytes extra ++ [last])) =
      some ⟨Kind.ofByte kind, nameOfBytes field, dataLength, start, extra⟩ := by
  have hname := nameField_fields 0 kind h
    (wordBytes dataLength ++ wordBytes start ++ wordBytes extra ++ [last])
  rw [ofBytes?, hname, if_pos (by simp [wordBytes, blockSize, h])]
  simp [wordAt, wordBytes, h, wordOfBytes_lowByte_highByte]

theorem toNat_nameChar {b : UInt8} (h : b < 0x80) : (nameChar b).toNat = b.toNat := by
  have hlt : b.toNat < 0x80 := h
  rw [nameChar, if_pos h, Char.toNat_ofNat, if_pos (Or.inl (by omega))]

theorem nameChar_ofNat {c : Char} (h : c.toNat < 0x80) : nameChar (UInt8.ofNat c.toNat) = c := by
  have hcode : (UInt8.ofNat c.toNat).toNat = c.toNat :=
    (UInt8.toNat_ofNat').trans (Nat.mod_eq_of_lt (by omega))
  have hlt : UInt8.ofNat c.toNat < 0x80 := by
    rw [UInt8.lt_iff_toNat_lt, hcode]
    exact h
  rw [nameChar, if_pos hlt, hcode, Char.ofNat_toNat]

theorem map_nameChar_nameBytes {name : String} (h : ∀ c ∈ name.toList, c.toNat < 0x80) :
    (nameBytes name).map nameChar = name.toList := by
  rw [nameBytes, List.map_map]
  exact (List.map_congr_left fun c hc => nameChar_ofNat (h c hc)).trans (List.map_id _)

theorem nameBytes_ofList {text : List UInt8} (h : ∀ b ∈ text, b < 0x80) :
    nameBytes (String.ofList (text.map nameChar)) = text := by
  rw [nameBytes, String.toList_ofList, List.map_map]
  refine (List.map_congr_left fun b hb => ?_).trans (List.map_id text)
  rw [Function.comp_apply, toNat_nameChar (h b hb), UInt8.ofNat_toNat, id]

@[simp] theorem length_nameBytes (name : String) : (nameBytes name).length = name.length := by
  rw [nameBytes, List.length_map, String.length_toList]

theorem length_paddedName {name : String} (h : name.length ≤ 10) :
    (paddedName name).length = 10 := by
  simp only [paddedName, List.length_append, length_nameBytes, List.length_replicate]
  omega

theorem nameOfBytes_paddedName {name : String} (h : IsStorable name) :
    nameOfBytes (paddedName name) = name := by
  have hchars : (paddedName name).map nameChar =
      name.toList ++ List.replicate (10 - name.length) ' ' := by
    rw [paddedName, List.map_append, map_nameChar_nameBytes h.ascii, List.map_replicate]
    rfl
  have htrim : trimEnd ((paddedName name).map nameChar) = name.toList := by
    refine trimEnd_eq_iff.mpr ⟨_, hchars, fun c hc => ?_, fun c hc => ?_⟩
    · rw [List.eq_of_mem_replicate hc]
      rfl
    · rw [Bool.eq_false_iff, ne_eq, isBlank_iff_of_ascii (h.ascii c (List.mem_of_mem_getLast? hc))]
      exact h.unpadded c hc
  rw [nameOfBytes, htrim, String.ofList_toList]

theorem ofBytes?_blockBytes {name : String} (h : IsStorable name) (kind : UInt8)
    (dataLength start extra : UInt16) (last : UInt8) :
    ofBytes? (blockBytes kind name dataLength start extra last) =
      some ⟨Kind.ofByte kind, name, dataLength, start, extra⟩ := by
  rw [blockBytes, ofBytes?_fields kind (length_paddedName h.length_le), nameOfBytes_paddedName h]

/-- A field of ASCII characters holds a name that could have been written there, and blanks. -/
theorem isStorable_nameOfBytes {field : List UInt8} (hlength : field.length = 10)
    (hascii : ∀ b ∈ field, b < 0x80) :
    IsStorable (nameOfBytes field) ∧ ∃ blanks, field = nameBytes (nameOfBytes field) ++ blanks ∧
      ∀ b ∈ blanks, IsBlankCode b.toNat := by
  obtain ⟨shown, hsplit, hshown, hlast⟩ :=
    trimEnd_eq_iff.mp (rfl : trimEnd (field.map nameChar) = trimEnd (field.map nameChar))
  obtain ⟨text, blanks, rfl, htext, rfl⟩ := List.map_eq_append_iff.mp hsplit
  have hname : nameOfBytes (text ++ blanks) = String.ofList (text.map nameChar) := by
    rw [nameOfBytes, htext]
  have hchars : ∀ c ∈ text.map nameChar, c.toNat < 0x80 := by
    intro c hc
    obtain ⟨b, hb, rfl⟩ := List.mem_map.mp hc
    have hlt := hascii b (List.mem_append_left blanks hb)
    rw [toNat_nameChar hlt]
    exact hlt
  have hbytes := nameBytes_ofList fun b hb => hascii b (List.mem_append_left blanks hb)
  rw [← htext] at hlast
  rw [hname]
  refine ⟨⟨?_, ?_, fun c hc => ?_⟩, blanks, ?_, fun b hb => ?_⟩
  · rw [List.length_append] at hlength
    rw [String.length_ofList, List.length_map]
    omega
  · rwa [String.toList_ofList]
  · rw [String.toList_ofList] at hc
    rw [← isBlank_iff_of_ascii (hchars c (List.mem_of_mem_getLast? hc)), hlast c hc]
    exact Bool.false_ne_true
  · rw [hbytes]
  · have hlt := hascii b (List.mem_append_right text hb)
    have hcode := toNat_nameChar hlt
    have hblank := hshown (nameChar b) (List.mem_map_of_mem hb)
    rwa [isBlank_iff_of_ascii (by rw [hcode]; exact hlt), hcode] at hblank

theorem exists_fields_of_ofBytes? {data : List UInt8} {h : Header}
    (parses : ofBytes? data = some h) :
    ∃ last, data = [0, h.kind.toByte] ++ nameField data ++
        (wordBytes h.dataLength ++ wordBytes h.start ++ wordBytes h.extra ++ [last]) ∧
      (nameField data).length = 10 ∧ Kind.ofByte h.kind.toByte = h.kind := by
  obtain ⟨hlength, hflag⟩ : data.length = 19 ∧ data.head? = some 0 := by
    by_contra hnone
    rw [ofBytes?_eq_none_iff.mpr (not_and_or.mp hnone)] at parses
    cases parses
  obtain ⟨flag, kind, field, dataLength, start, extra, last, hfield, rfl⟩ := exists_fields hlength
  obtain rfl : flag = 0 := Option.some.inj hflag
  rw [ofBytes?_fields kind hfield, Option.some.injEq] at parses
  subst parses
  rw [nameField_fields 0 kind hfield]
  exact ⟨last, by rw [Kind.toByte_ofByte], hfield, by rw [Kind.toByte_ofByte]⟩

/-- A header block is read as the header that it was written from. Blocks of another size or with
another flag are no headers. A block with an ASCII name has the fields of its header, so that
writing them gives a block with the same header, which differs at most in the blanks behind the name
and in the last byte. -/
theorem header_roundtrip :
    (∀ (index : ℕ) (kind : UInt8) (name : String) (dataLength start extra : UInt16) (last : UInt8),
      IsStorable name →
      let block : Block := ⟨index, blockBytes kind name dataLength start extra last⟩
      block.data.length = 19 ∧
        ofBytes? block.data = some ⟨Kind.ofByte kind, name, dataLength, start, extra⟩) ∧
    (∀ block : Block, ofBytes? block.data = none ↔
      block.data.length ≠ 19 ∨ block.data.head? ≠ some 0) ∧
    ∀ (block : Block) (h : Header), ofBytes? block.data = some h →
      (∀ b ∈ nameField block.data, b < 0x80) → ∀ last : UInt8,
        ofBytes? (h.toBytes last) = some h ∧
        ∃ (front blanks words : List UInt8) (old : UInt8),
          block.data = front ++ blanks ++ (words ++ [old]) ∧
          h.toBytes last = front ++ List.replicate blanks.length 0x20 ++ (words ++ [last]) ∧
          2 ≤ front.length ∧ front.length + blanks.length = 12 ∧
          ∀ b ∈ blanks, IsBlankCode b.toNat := by
  refine ⟨fun index kind name dataLength start extra last hname => ?_,
    fun block => ofBytes?_eq_none_iff, fun block h parses hascii last => ?_⟩
  · refine ⟨?_, ofBytes?_blockBytes hname ..⟩
    simp [blockBytes, wordBytes, length_paddedName hname.length_le]
  · obtain ⟨old, hdata, hfield, hkind⟩ := exists_fields_of_ofBytes? parses
    obtain ⟨hstorable, blanks, hsplit, hblanks⟩ := isStorable_nameOfBytes hfield hascii
    rw [← name_eq_of_ofBytes? parses] at hstorable hsplit
    have hsize : h.name.length + blanks.length = 10 := by
      rw [← length_nameBytes, ← List.length_append, ← hsplit, hfield]
    refine ⟨?_, [0, h.kind.toByte] ++ nameBytes h.name, blanks,
      wordBytes h.dataLength ++ wordBytes h.start ++ wordBytes h.extra, old,
      ?_, ?_, ?_, ?_, hblanks⟩
    · rw [toBytes, ofBytes?_blockBytes hstorable, hkind]
    · rw [hsplit] at hdata
      rw [hdata]
      simp only [List.append_assoc]
    · have hfill : 10 - h.name.length = blanks.length := by omega
      rw [toBytes, blockBytes, paddedName, hfill]
      simp only [List.append_assoc]
    · simp
    · simp only [List.length_append, length_nameBytes, List.length_cons, List.length_nil]
      omega

/-- A name with a blank inside; a block of an unknown kind whose name ends with a tab. -/
theorem header_roundtrip_inner_blank :
    let data : List UInt8 := [0, 0xC8, 0x41, 0x0A, 0x42, 0x20, 0x09, 0x20, 0x20, 0x20, 0x20, 0x20,
      0x01, 0x02, 0xFF, 0xFF, 0x00, 0x80, 0x55]
    let h : Header := ⟨.unknown 0xC8, "A\nB", 0x0201, 0xFFFF, 0x8000⟩
    IsStorable "A\nB" ∧ ofBytes? (blockBytes 0xC8 "A\nB" 0x0201 0xFFFF 0x8000 0x55) = some h ∧
      ofBytes? data = some h ∧ (∀ b ∈ nameField data, b < 0x80) ∧
      ofBytes? (h.toBytes 0x00) = some h := by
  intro data h
  have hname : IsStorable "A\nB" := ⟨by decide, by simp, by simp [IsBlankCode]⟩
  have hparses : ofBytes? data = some h := by decide
  have hascii : ∀ b ∈ nameField data, b < 0x80 := by simp [data, nameField]
  obtain ⟨write, -, rewrite⟩ := header_roundtrip
  exact ⟨hname, (write 0 0xC8 "A\nB" 0x0201 0xFFFF 0x8000 0x55 hname).2, hparses, hascii,
    (rewrite ⟨0, data⟩ h hparses hascii 0x00).1⟩

end Header

end Tape

end SpectrumListing
