import Mathlib
import SpectrumListing.Listing.Tape
import SpectrumListing.Proofs.TapeEntries

/-!
# Listing a single block of a tape

Entries have distinct indices, so asking for one block after the other lists every entry once and in
order. A block that starts no entry has an empty listing and is remarked upon, and that is the only
warning that can arise while a tape is listed.
-/
namespace SpectrumListing

namespace Tape

/-- Going through distinct keys in the order of the items that have them finds every item once. -/
theorem flatMap_filter_key {α : Type} {key : α → ℕ} {keys : List ℕ} {items : List α}
    (hnodup : keys.Nodup) (h : (items.map key).Sublist keys) :
    (keys.flatMap fun k => items.filter fun a => k == key a) = items := by
  induction keys generalizing items with
  | nil =>
    rw [List.sublist_nil, List.map_eq_nil_iff] at h
    rw [h, List.flatMap_nil]
  | cons k keys ih =>
    obtain ⟨hfresh, hrest⟩ := List.nodup_cons.mp hnodup
    -- No item behind those of key `k` has this key again.
    have hnone {as : List α} (has : (as.map key).Sublist keys) :
        (as.filter fun a => k == key a) = [] := by
      rw [List.filter_eq_nil_iff]
      intro a ha he
      rw [beq_iff_eq] at he
      exact hfresh (he ▸ has.subset (List.mem_map_of_mem ha))
    rcases List.sublist_cons_iff.mp h with h | ⟨later, hmap, h⟩
    · rw [List.flatMap_cons, hnone h, List.nil_append, ih hrest h]
    · obtain ⟨a, as, rfl, rfl, rfl⟩ := List.map_eq_cons_iff.mp hmap
      have hskip : ∀ k' ∈ keys, ((a :: as).filter fun b => k' == key b) =
          as.filter fun b => k' == key b := by
        intro k' hk'
        refine List.filter_cons_of_neg ?_
        rw [beq_iff_eq]
        rintro rfl
        exact hfresh hk'
      have hfirst : ((a :: as).filter fun b => key a == key b) = [a] := by
        rw [List.filter_cons_of_pos (by simp), hnone h]
      rw [List.flatMap_cons, hfirst, List.flatMap_congr hskip, ih hrest h, List.singleton_append]

theorem map_index_sublist (entries : List Entry) :
    (entries.map Entry.index).Sublist (entries.flatMap Entry.indices) := by
  induction entries with
  | nil => exact .slnil
  | cons e entries ih =>
    have hhead : [e.index].Sublist e.indices := by
      rw [List.singleton_sublist, Entry.indices]
      split <;> simp
    exact hhead.append ih

theorem flatMap_filter_index (image : Image) :
    ((List.range image.blocks.length).flatMap fun k =>
      image.entries.filter fun e => k == e.index) = image.entries := by
  refine flatMap_filter_key List.nodup_range ?_
  rw [← image.flatMap_indices_entries]
  exact map_index_sublist image.entries

end Tape

namespace Listing

open SpectrumListing.Tape

/-- The lines of a tape's listing as text. -/
def tapeText (fileName : String) (image : Image) (options : Options) : List String :=
  (tape fileName image options).map Line.text

/-- The listing without its five opening lines and its closing line. -/
def tapeBody (fileName : String) (image : Image) (options : Options) : List String :=
  ((tapeText fileName image options).drop 5).dropLast

/-- The messages of the warnings that arise while a tape is listed. -/
def tapeWarnings (fileName : String) (image : Image) (options : Options) : List String :=
  ((tapeNotices fileName image options).filter (·.level = .warn)).map Notice.message

/-- The lines before the first section. -/
def tapeOpening (fileName : String) (image : Image) : List String :=
  ["; " ++ String.ofList (List.replicate 60 '='),
    "; Z80 Disassembly of " ++ fileName,
    "; " ++ String.ofList (List.replicate 60 '='),
    "; Total blocks: " ++ toString image.chunks.length,
    ""]

/-- The section of an entry as text. -/
def sectionText (hex : Bool) (e : Entry) : List String := (entryLines hex e).map Line.text

theorem tapeText_eq (fileName : String) (image : Image) (options : Options) :
    tapeText fileName image options = tapeOpening fileName image ++
      ((selectedEntries options image).flatMap (sectionText options.hex) ++
        ["; === End of Disassembly ==="]) := by
  simp only [tapeText, tape, banner, rule, closing, tapeOpening, List.map_append, List.map_cons,
    List.map_nil, List.map_flatMap, Line.text, ← String.append_assoc, List.append_assoc]
  rfl

theorem length_tapeOpening (fileName : String) (image : Image) :
    (tapeOpening fileName image).length = 5 := rfl

theorem tapeBody_eq (fileName : String) (image : Image) (options : Options) :
    tapeBody fileName image options =
      (selectedEntries options image).flatMap (sectionText options.hex) := by
  rw [tapeBody, tapeText_eq, List.drop_left' (length_tapeOpening fileName image),
    List.dropLast_concat]

theorem tapeBody_none (fileName : String) (image : Image) (hex : Bool) :
    tapeBody fileName image ⟨hex, none⟩ = image.entries.flatMap (sectionText hex) := by
  rw [tapeBody_eq]
  exact congrArg (List.flatMap (sectionText hex)) (List.filter_eq_self.mpr fun _ _ => rfl)

theorem tapeBody_some (fileName : String) (image : Image) (hex : Bool) (k : ℕ) :
    tapeBody fileName image ⟨hex, some k⟩ =
      (image.entries.filter fun e => k == e.index).flatMap (sectionText hex) :=
  tapeBody_eq fileName image ⟨hex, some k⟩

theorem tapeText_eq_body (fileName : String) (image : Image) (options : Options) :
    tapeText fileName image options =
      tapeOpening fileName image ++ tapeBody fileName image options ++
        ["; === End of Disassembly ==="] := by
  rw [tapeBody_eq, tapeText_eq, List.append_assoc]

theorem sectionText_ne_nil (hex : Bool) (e : Entry) : sectionText hex e ≠ [] := by
  cases hh : e.header <;> simp [sectionText, entryLines, hh]

theorem selectedEntries_eq_nil_iff (image : Image) (hex : Bool) (k : ℕ) :
    selectedEntries ⟨hex, some k⟩ image = [] ↔ ∀ e ∈ image.entries, e.index ≠ k := by
  rw [selectedEntries, List.filter_eq_nil_iff]
  refine forall₂_congr fun e _ => not_congr ?_
  rw [Option.all_some, beq_iff_eq, eq_comm]

theorem tapeBody_eq_nil_iff (fileName : String) (image : Image) (options : Options) :
    tapeBody fileName image options = [] ↔ selectedEntries options image = [] := by
  rw [tapeBody_eq, List.flatMap_eq_nil_iff, List.eq_nil_iff_forall_not_mem]
  exact forall₂_congr fun e _ => iff_false_intro (sectionText_ne_nil options.hex e)

theorem level_ne_warn_of_mem_notices {line : Line} {n : Notice} (h : n ∈ line.notices) :
    n.level ≠ .warn := by
  cases line with
  | blank => cases h
  | comment _ => cases h
  | dump _ => cases h
  | code i =>
    rcases List.mem_append.mp h with h | h
    · rw [Option.mem_toList, Z80.Instruction.remark?] at h
      split at h <;> cases h <;> simp [Notice.level]
    · rw [List.mem_singleton.mp h]
      simp [Notice.level]

theorem tapeWarnings_eq (fileName : String) (image : Image) (options : Options) :
    tapeWarnings fileName image options = (missingEntry image options).map Notice.message := by
  have hlines : (((tape fileName image options).flatMap Line.notices).filter
      (·.level = .warn)) = [] := by
    rw [List.filter_eq_nil_iff]
    intro n hn
    obtain ⟨line, -, hn⟩ := List.mem_flatMap.mp hn
    simpa using level_ne_warn_of_mem_notices hn
  have hmissing : (missingEntry image options).filter (·.level = .warn) =
      missingEntry image options := by
    rw [List.filter_eq_self]
    intro n hn
    unfold missingEntry at hn
    split at hn
    · split at hn
      · rw [List.mem_singleton.mp hn]
        rfl
      · cases hn
    · cases hn
  rw [tapeWarnings, tapeNotices, List.filter_append, hlines, hmissing, List.nil_append]

/-- Under any selection a tape's listing has the same opening and the same end. Between them, the
listing of the whole tape is that of its blocks one after the other. A block that starts no entry
has nothing listed and one warning; a block that starts one has something listed, and no warning
arises, as when the whole tape is listed. -/
theorem tape_selection_law (fileName : String) (bytes : List UInt8) (hex : Bool) :
    let image := Image.ofBytes bytes
    (∀ block, tapeText fileName image ⟨hex, block⟩ =
      tapeOpening fileName image ++ tapeBody fileName image ⟨hex, block⟩ ++
        ["; === End of Disassembly ==="]) ∧
    tapeBody fileName image ⟨hex, none⟩ =
      ((List.range image.blocks.length).flatMap fun k =>
        tapeBody fileName image ⟨hex, some k⟩) ∧
    (∀ k, (∀ e ∈ image.entries, e.index ≠ k) →
      tapeWarnings fileName image ⟨hex, some k⟩ =
        ["No TAP entry starts at block " ++ toString k] ∧
      tapeBody fileName image ⟨hex, some k⟩ = []) ∧
    (∀ k, (∃ e ∈ image.entries, e.index = k) →
      tapeWarnings fileName image ⟨hex, some k⟩ = [] ∧
      tapeBody fileName image ⟨hex, some k⟩ ≠ []) ∧
    tapeWarnings fileName image ⟨hex, none⟩ = [] := by
  intro image
  refine ⟨fun block => tapeText_eq_body fileName image ⟨hex, block⟩, ?_, fun k hk => ?_,
    fun k hk => ?_, ?_⟩
  · simp only [tapeBody_none, tapeBody_some]
    rw [← List.flatMap_assoc, flatMap_filter_index]
  · have hnil := (selectedEntries_eq_nil_iff image hex k).mpr hk
    refine ⟨?_, (tapeBody_eq_nil_iff fileName image ⟨hex, some k⟩).mpr hnil⟩
    rw [tapeWarnings_eq, missingEntry, hnil]
    rfl
  · have hne : selectedEntries ⟨hex, some k⟩ image ≠ [] := by
      rw [Ne, selectedEntries_eq_nil_iff]
      simpa using hk
    refine ⟨?_, fun hnil => hne ((tapeBody_eq_nil_iff fileName image ⟨hex, some k⟩).mp hnil)⟩
    rw [tapeWarnings_eq, missingEntry, List.isEmpty_eq_false_iff.mpr hne]
    rfl
  · rw [tapeWarnings_eq]
    rfl

end Listing

end SpectrumListing
