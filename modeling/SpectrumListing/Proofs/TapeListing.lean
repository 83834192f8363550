import Mathlib
import SpectrumListing.Proofs.BlockSelection
import SpectrumListing.Proofs.DataRows

/-!
# Reading the data of a tape back from its listing

The section of an entry disassembles or dumps the entry's payload between comments, none of which
can be taken for a row of data. So the rows that are read off the text of the section start at the
address of the entry and show the whole payload, or the front of a screen.
-/
namespace SpectrumListing

namespace Tape.Entry

/-- Whether an entry is taken for a screen: it has the size of one and nothing describes it. -/
def isScreen (e : Entry) : Bool := e.header.isNone && e.data.payload.length == 6912

/-- The part of the payload that a full listing shows. -/
def shownData (e : Entry) : List UInt8 :=
  if e.isScreen then e.data.payload.take 128 else e.data.payload

/-- The address of the first byte in the listing. -/
def firstAddress (e : Entry) : UInt16 :=
  match e.header with
  | some h => if h.kind = .code then h.start else 0
  | none => if e.isScreen then 0x4000 else 0

end Tape.Entry

namespace Listing

open SpectrumListing.Tape

theorem areLegible_checksumLines (b : Block) : AreLegible (checksumLines b) := by
  unfold checksumLines
  split <;> simp (disch := decide) [String.append_assoc]

theorem areLegible_optionalDump (hex : Bool) (bytes : List UInt8) :
    AreLegible (optionalDump hex bytes) := by
  unfold optionalDump
  split_ifs <;> simp

theorem areLegible_describedData (hex : Bool) (h : Header) (payload : List UInt8) :
    AreLegible (describedData hex h payload) := by
  have hdump := areLegible_optionalDump hex payload
  unfold describedData
  cases h.kind <;> simp (disch := decide) [String.append_assoc, hdump]

theorem areLegible_undescribedData (hex : Bool) (payload : List UInt8) :
    AreLegible (undescribedData hex payload) := by
  unfold undescribedData
  split_ifs <;> simp (disch := decide) [String.append_assoc]

theorem areLegible_entryLines (hex : Bool) (e : Entry) : AreLegible (entryLines hex e) := by
  have hchecksum := areLegible_checksumLines e.data
  unfold entryLines
  cases e.header with
  | some h =>
    have hdata := areLegible_describedData hex h e.data.payload
    simp (disch := decide) [String.append_assoc, hchecksum, hdata]
  | none =>
    have hdata := areLegible_undescribedData hex e.data.payload
    simp (disch := decide) [String.append_assoc, hchecksum, hdata]

theorem dataRows_checksumLines (b : Block) : dataRows (checksumLines b) = [] := by
  unfold checksumLines
  split <;> rfl

theorem consecutive_describedData (h : Header) (payload : List UInt8) :
    Consecutive (if h.kind = .code then h.start else 0) payload
      (dataRows (describedData true h payload)) := by
  have hcode := consecutive_codeLines payload h.start
  have hdump := consecutive_dumpLines payload 0
  cases hk : h.kind <;> simpa [describedData, optionalDump, hk]

theorem consecutive_undescribedData (payload : List UInt8) :
    Consecutive (if payload.length = 6912 then 0x4000 else 0)
      (if payload.length = 6912 then payload.take 128 else payload)
      (dataRows (undescribedData true payload)) := by
  have hcode := consecutive_codeLines payload 0
  have hdump := consecutive_dumpLines (payload.take 128) 0x4000
  by_cases hscreen : payload.length = 6912
  · simpa [undescribedData, screenSize, screenPreview, screenAddress, hscreen]
  · simpa [undescribedData, screenSize, hscreen]

theorem consecutive_entryLines (e : Entry) :
    Consecutive e.firstAddress e.shownData (dataRows (entryLines true e)) := by
  cases hh : e.header with
  | some h =>
    have hdata := consecutive_describedData h e.data.payload
    simpa [Entry.firstAddress, Entry.shownData, Entry.isScreen, entryLines, hh,
      dataRows_checksumLines]
  | none =>
    have hdata := consecutive_undescribedData e.data.payload
    simpa [Entry.firstAddress, Entry.shownData, Entry.isScreen, entryLines, hh,
      dataRows_checksumLines]

/-- The lines of code are there in any listing, those of a dump only on demand. -/
theorem entryLines_congr_hex {e : Entry}
    (h : (∃ header, e.header = some header ∧ header.kind = .code) ∨
      e.header = none ∧ e.isScreen = false) :
    entryLines false e = entryLines true e := by
  obtain ⟨header, hh, hk⟩ | ⟨hh, hscreen⟩ := h
  · simp [entryLines, describedData, hh, hk]
  · have hlength : e.data.payload.length ≠ screenSize := by
      simpa [Entry.isScreen, hh, screenSize] using hscreen
    simp [entryLines, undescribedData, hh, hlength]

/-- Reading the rows of data in the section of an entry, in order, gives the payload of the entry,
or the first 128 bytes of a screen. The first row stands at the load address of code, at the start
of the screen, or at zero, and each further row where the bytes before it end. What is disassembled
is listed with or without dumps alike. -/
theorem section_rows_cover_payload (bytes : List UInt8) :
    let image := Image.ofBytes bytes
    (∀ fileName hex, tapeBody fileName image ⟨hex, none⟩ =
      image.entries.flatMap (sectionText hex)) ∧
    ∀ e ∈ image.entries,
      let rows := (sectionText true e).filterMap DataRow.read?
      rows.flatMap DataRow.bytes = e.shownData ∧
      (∀ k (hk : k < rows.length), rows[k].address.toNat =
        (e.firstAddress.toNat + ((rows.take k).flatMap DataRow.bytes).length) % 65536) ∧
      ((∃ h, e.header = some h ∧ h.kind = .code) ∨ e.header = none ∧ e.isScreen = false →
        sectionText false e = sectionText true e) := by
  intro image
  refine ⟨fun fileName hex => tapeBody_none fileName image hex, fun e _ => ?_⟩
  intro rows
  have hrows : rows = dataRows (entryLines true e) :=
    (areLegible_entryLines true e).filterMap_read?
  have hconsecutive := consecutive_entryLines e
  rw [← hrows] at hconsecutive
  refine ⟨hconsecutive.flatMap_bytes, fun k hk => ?_, fun h => ?_⟩
  · rw [hconsecutive.address_getElem k hk, UInt16.toNat_add, UInt16.toNat_ofNat']
    omega
  · rw [sectionText, sectionText, entryLines_congr_hex h]

end Listing

end SpectrumListing
