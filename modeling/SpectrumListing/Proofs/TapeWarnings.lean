import Mathlib
import SpectrumListing.Proofs.TapeChecksum
import SpectrumListing.Proofs.TapeFraming

/-!
# Warnings on reading a tape

Reading accepts any bytes, so damage shows only in the warnings. Bytes are whole blocks one after
the other, and behind them nothing, one byte, or a block that is cut short. Each of the last two has
its own warning; beside it there is one warning for every block with a wrong checksum, and no other.
-/
namespace SpectrumListing

namespace Notice

/-- Whether a notice says that the bytes of a tape do not end with a block. -/
def isFraming : Notice → Bool
  | trailingBytes _ | shortBlock .. => true
  | _ => false

def isChecksum : Notice → Bool
  | checksumMismatch .. => true
  | _ => false

end Notice

namespace Tape

def Block.checksumWarning? (b : Block) : Option Notice :=
  b.mismatch?.map fun sums => .checksumMismatch b.index sums.1 sums.2

theorem Block.checksumWarning?_eq_none_iff (b : Block) :
    b.checksumWarning? = none ↔ b.isValid = true := by
  rw [checksumWarning?, Option.map_eq_none_iff, isValid, Option.isNone_iff_eq_none]

namespace Chunk

/-- The warning on a chunk that is shorter than it declares. -/
def shortWarning (index : ℕ) (c : Chunk) : List Notice :=
  if c.data.length < c.declared.toNat then [.shortBlock index c.declared.toNat c.data.length]
  else []

theorem notices_eq (index : ℕ) (c : Chunk) :
    c.notices index = c.shortWarning index ++
      .blockFound index (Block.mk index c.data).flag c.data.length ::
        (Block.mk index c.data).checksumWarning?.toList := by
  simp only [notices, shortWarning, Block.checksumWarning?, List.append_assoc,
    List.singleton_append]
  cases (Block.mk index c.data).mismatch? <;> rfl

theorem filter_isFraming_notices (index : ℕ) (c : Chunk) :
    (c.notices index).filter Notice.isFraming = c.shortWarning index := by
  rw [notices_eq, shortWarning, Block.checksumWarning?]
  split_ifs <;> cases (Block.mk index c.data).mismatch? <;> rfl

theorem filter_isChecksum_notices (index : ℕ) (c : Chunk) :
    (c.notices index).filter Notice.isChecksum =
      (Block.mk index c.data).checksumWarning?.toList := by
  rw [notices_eq, shortWarning, Block.checksumWarning?]
  split_ifs <;> cases (Block.mk index c.data).mismatch? <;> rfl

theorem eq_ofData {c : Chunk} (h : c.data.length = c.declared.toNat) : c = ofData c.data := by
  obtain ⟨declared, data⟩ := c
  rw [ofData, mk.injEq]
  exact ⟨by rw [h, UInt16.ofNat_toNat], rfl⟩

theorem shortWarning_of_full {c : Chunk} (h : c.data.length = c.declared.toNat) (index : ℕ) :
    c.shortWarning index = [] := if_neg (by omega)

end Chunk

theorem map_mapIdx {α β γ : Type} (g : β → γ) (f : ℕ → α → β) (items : List α) :
    (items.mapIdx f).map g = items.mapIdx fun index a => g (f index a) := by
  apply List.ext_getElem <;> simp

namespace Image

/-- The warnings that arise on reading the image. -/
def warnings (image : Image) : List Notice := image.notices.filter (·.level = .warn)

def trailingWarning (image : Image) : List Notice :=
  if image.trailing.isEmpty then [] else [.trailingBytes image.trailing.length]

theorem filter_notices (image : Image) (p : Notice → Bool) :
    image.notices.filter p =
      (image.chunks.mapIdx fun index c => (c.notices index).filter p).flatten ++
        image.trailingWarning.filter p := by
  rw [notices, List.filter_append, List.filter_flatten, map_mapIdx]
  rfl

/-- Warnings of either kind are found among all notices. -/
theorem filter_warnings (image : Image) {p : Notice → Bool}
    (hp : ∀ n, p n = true → n.level = .warn) :
    image.warnings.filter p = image.notices.filter p := by
  rw [warnings, List.filter_filter]
  refine List.filter_congr fun n _ => ?_
  cases h : p n with
  | true => simp [hp n h]
  | false => rfl

theorem filter_isFraming_warnings (image : Image) :
    image.warnings.filter Notice.isFraming =
      (image.chunks.mapIdx fun index c => c.shortWarning index).flatten ++
        image.trailingWarning := by
  have hlevel (n : Notice) (h : n.isFraming = true) : n.level = .warn := by
    cases n <;> first | rfl | cases h
  have htrailing : image.trailingWarning.filter Notice.isFraming = image.trailingWarning := by
    unfold trailingWarning
    split_ifs <;> rfl
  rw [filter_warnings image hlevel, filter_notices, htrailing]
  simp only [Chunk.filter_isFraming_notices]

theorem filter_isChecksum_warnings (image : Image) :
    image.warnings.filter Notice.isChecksum = image.blocks.filterMap Block.checksumWarning? := by
  have hlevel (n : Notice) (h : n.isChecksum = true) : n.level = .warn := by
    cases n <;> first | rfl | cases h
  have htrailing : image.trailingWarning.filter Notice.isChecksum = [] := by
    unfold trailingWarning
    split_ifs <;> rfl
  rw [filter_warnings image hlevel, filter_notices, htrailing, List.append_nil, blocks,
    List.filterMap_eq_flatMap_toList, List.flatMap_def, map_mapIdx]
  simp only [Chunk.filter_isChecksum_notices]

theorem isFraming_or_isChecksum {image : Image} {n : Notice} (h : n ∈ image.warnings) :
    n.isFraming = true ∨ n.isChecksum = true := by
  obtain ⟨hmem, hlevel⟩ := List.mem_filter.mp h
  rcases List.mem_append.mp hmem with hmem | hmem
  · obtain ⟨notices, hchunk, hmem⟩ := List.mem_flatten.mp hmem
    obtain ⟨index, hindex, rfl⟩ := List.mem_mapIdx.mp hchunk
    rw [Chunk.notices_eq, List.mem_append, List.mem_cons, Option.mem_toList] at hmem
    rcases hmem with hshort | rfl | hchecksum
    · unfold Chunk.shortWarning at hshort
      split_ifs at hshort
      · rw [List.mem_singleton.mp hshort]
        exact .inl rfl
      · cases hshort
    · cases hlevel
    · obtain ⟨sums, -, rfl⟩ := Option.map_eq_some_iff.mp hchecksum
      exact .inr rfl
  · split_ifs at hmem
    · cases hmem
    · rw [List.mem_singleton.mp hmem]
      exact .inl rfl

/-- An image whose bytes end with a block has warnings on checksums alone. -/
theorem warnings_of_not_framing {image : Image}
    (h : image.warnings.filter Notice.isFraming = []) :
    image.warnings = image.blocks.filterMap Block.checksumWarning? := by
  rw [← filter_isChecksum_warnings, eq_comm, List.filter_eq_self]
  intro n hn
  have hnot := List.filter_eq_nil_iff.mp h n hn
  exact (isFraming_or_isChecksum hn).resolve_left hnot

end Image

/-- Whether every block fits behind a length of two bytes. -/
def AreStorable (blocks : List (List UInt8)) : Prop := ∀ data ∈ blocks, data.length ≤ 65535

/-- Bytes are whole blocks, or whole blocks with a byte or a short block behind them. -/
theorem exists_encode (bytes : List UInt8) :
    ∃ blocks, AreStorable blocks ∧
      (bytes = encode blocks ∨ (∃ byte, bytes = encode blocks ++ [byte]) ∨
        ∃ c : Chunk, c.data.length < c.declared.toNat ∧ bytes = encode blocks ++ c.toBytes) := by
  have framed := framed_ofBytes bytes
  generalize Image.ofBytes bytes = image at framed
  induction framed with
  | @rest bytes length =>
    refine ⟨[], List.forall_mem_nil _, ?_⟩
    rcases bytes with _ | ⟨byte, _ | ⟨_, _⟩⟩
    · exact .inl rfl
    · exact .inr (.inl ⟨byte, rfl⟩)
    · simp at length
  | @short c short => exact ⟨[], List.forall_mem_nil _, .inr (.inr ⟨c, short, rfl⟩)⟩
  | @cons c bytes image full _ ih =>
    obtain ⟨blocks, hblocks, h⟩ := ih
    have hle : c.data.length ≤ 65535 := by
      have := c.declared.toNat_lt
      omega
    refine ⟨c.data :: blocks, List.forall_mem_cons.mpr ⟨hle, hblocks⟩, ?_⟩
    have hencode : encode (c.data :: blocks) = c.toBytes ++ encode blocks := by
      rw [encode_cons, ← Chunk.eq_ofData full]
    simp only [hencode, List.append_assoc]
    exact h.imp (congrArg _) (Or.imp (Exists.imp fun byte => congrArg _)
      (Exists.imp fun d => And.imp_right (congrArg _)))

section Encoded

variable {blocks : List (List UInt8)} (h : AreStorable blocks)
include h

theorem flatten_shortWarning_ofData :
    ((blocks.map Chunk.ofData).mapIdx fun index c => c.shortWarning index).flatten = [] := by
  rw [List.flatten_eq_nil_iff]
  intro warnings hmem
  obtain ⟨index, hindex, rfl⟩ := List.mem_mapIdx.mp hmem
  have hlt : index < blocks.length := by simpa using hindex
  have hfull := Chunk.declared_ofData (h blocks[index] (List.getElem_mem hlt))
  rw [List.getElem_map]
  exact Chunk.shortWarning_of_full hfull index

theorem framingWarnings_encode :
    (Image.ofBytes (encode blocks)).warnings.filter Notice.isFraming = [] := by
  rw [← (framed_encode h).eq_ofBytes, Image.filter_isFraming_warnings,
    flatten_shortWarning_ofData h]
  rfl

theorem framingWarnings_encode_byte (byte : UInt8) :
    (Image.ofBytes (encode blocks ++ [byte])).warnings.filter Notice.isFraming =
      [.trailingBytes 1] := by
  have tail : Framed [byte] ⟨[], [byte]⟩ := .rest le_rfl
  have framed := framed_encode_append h tail
  rw [← framed.eq_ofBytes, Image.filter_isFraming_warnings, List.append_nil,
    flatten_shortWarning_ofData h]
  rfl

theorem framingWarnings_encode_short {c : Chunk} (hc : c.data.length < c.declared.toNat) :
    (Image.ofBytes (encode blocks ++ c.toBytes)).warnings.filter Notice.isFraming =
      [.shortBlock blocks.length c.declared.toNat c.data.length] := by
  have framed := framed_encode_append h (.short hc)
  rw [← framed.eq_ofBytes, Image.filter_isFraming_warnings, List.mapIdx_concat, List.flatten_concat,
    flatten_shortWarning_ofData h, Chunk.shortWarning, if_pos hc, List.length_map]
  rfl

/-- Blocks that are stored whole have warnings on their checksums alone. -/
theorem warnings_encode :
    (Image.ofBytes (encode blocks)).warnings =
      (blocks.mapIdx Block.mk).filterMap Block.checksumWarning? := by
  rw [Image.warnings_of_not_framing (framingWarnings_encode h), blocks_ofBytes_encode h]

end Encoded

theorem framingWarnings_cases (bytes : List UInt8) :
    ∃ blocks, AreStorable blocks ∧
      let framing := (Image.ofBytes bytes).warnings.filter Notice.isFraming
      (bytes = encode blocks ∧ framing = [] ∨
        (∃ byte, bytes = encode blocks ++ [byte] ∧ framing = [.trailingBytes 1]) ∨
        ∃ c : Chunk, bytes = encode blocks ++ c.toBytes ∧ c.data.length < c.declared.toNat ∧
          framing = [.shortBlock blocks.length c.declared.toNat c.data.length]) := by
  obtain ⟨blocks, h, rfl | ⟨byte, rfl⟩ | ⟨c, hc, rfl⟩⟩ := exists_encode bytes
  · exact ⟨blocks, h, .inl ⟨rfl, framingWarnings_encode h⟩⟩
  · exact ⟨blocks, h, .inr (.inl ⟨byte, rfl, framingWarnings_encode_byte h byte⟩)⟩
  · exact ⟨blocks, h, .inr (.inr ⟨c, rfl, hc, framingWarnings_encode_short h hc⟩)⟩

theorem mem_warnings_iff_of_isFraming {image : Image} {n : Notice} (hn : n.isFraming = true) :
    n ∈ image.warnings ↔ n ∈ image.warnings.filter Notice.isFraming := by
  rw [List.mem_filter, and_iff_left hn]

theorem checksumWarnings_eq_nil_iff (blocks : List (List UInt8)) :
    (blocks.mapIdx Block.mk).filterMap Block.checksumWarning? = [] ↔
      ∀ data ∈ blocks, data.length < 2 ∨ parity data = 0 := by
  simp only [List.filterMap_eq_nil_iff, List.mem_mapIdx, Block.checksumWarning?_eq_none_iff,
    Block.isValid_iff]
  constructor
  · intro h data hdata
    obtain ⟨index, hindex, rfl⟩ := List.mem_iff_getElem.mp hdata
    exact h _ ⟨index, hindex, rfl⟩
  · rintro h _ ⟨index, hindex, rfl⟩
    exact h _ (List.getElem_mem hindex)

theorem warnings_eq_nil_iff (bytes : List UInt8) :
    (Image.ofBytes bytes).warnings = [] ↔ ∃ blocks : List (List UInt8),
      (∀ data ∈ blocks, data.length ≤ 65535 ∧ (data.length < 2 ∨ parity data = 0)) ∧
      bytes = encode blocks := by
  constructor
  · intro hnone
    have hframing : (Image.ofBytes bytes).warnings.filter Notice.isFraming = [] := by
      rw [hnone, List.filter_nil]
    obtain ⟨blocks, h, hcases⟩ := framingWarnings_cases bytes
    simp only [hframing, List.ne_cons_self, and_false, exists_false, or_false,
      and_true] at hcases
    subst hcases
    rw [warnings_encode h, checksumWarnings_eq_nil_iff] at hnone
    exact ⟨blocks, fun data hdata => ⟨h data hdata, hnone data hdata⟩, rfl⟩
  · rintro ⟨blocks, h, rfl⟩
    rw [warnings_encode fun data hdata => (h data hdata).1, checksumWarnings_eq_nil_iff]
    exact fun data hdata => (h data hdata).2

theorem trailingBytes_mem_warnings_iff (bytes : List UInt8) (count : ℕ) :
    .trailingBytes count ∈ (Image.ofBytes bytes).warnings ↔ count = 1 ∧
      ∃ blocks byte, AreStorable blocks ∧ bytes = encode blocks ++ [byte] := by
  rw [mem_warnings_iff_of_isFraming rfl]
  constructor
  · intro hmem
    obtain ⟨blocks, h, ⟨-, he⟩ | ⟨byte, hbytes, he⟩ | ⟨c, -, -, he⟩⟩ := framingWarnings_cases bytes
    · simp [he] at hmem
    · rw [he, List.mem_singleton, Notice.trailingBytes.injEq] at hmem
      exact ⟨hmem, blocks, byte, h, hbytes⟩
    · simp [he] at hmem
  · rintro ⟨rfl, blocks, byte, h, rfl⟩
    rw [framingWarnings_encode_byte h]
    exact List.mem_singleton_self _

theorem shortBlock_mem_warnings_iff (bytes : List UInt8) (index declared kept : ℕ) :
    .shortBlock index declared kept ∈ (Image.ofBytes bytes).warnings ↔
      ∃ (blocks : List (List UInt8)) (c : Chunk), AreStorable blocks ∧
        bytes = encode blocks ++ c.toBytes ∧ c.data.length < c.declared.toNat ∧
        index = blocks.length ∧ declared = c.declared.toNat ∧ kept = c.data.length := by
  rw [mem_warnings_iff_of_isFraming rfl]
  constructor
  · intro hmem
    obtain ⟨blocks, h, ⟨-, he⟩ | ⟨byte, -, he⟩ | ⟨c, hbytes, hc, he⟩⟩ := framingWarnings_cases bytes
    · simp [he] at hmem
    · simp [he] at hmem
    · rw [he, List.mem_singleton, Notice.shortBlock.injEq] at hmem
      exact ⟨blocks, c, h, hbytes, hc, hmem⟩
  · rintro ⟨blocks, c, h, rfl, hc, rfl, rfl, rfl⟩
    rw [framingWarnings_encode_short h hc]
    exact List.mem_singleton_self _

/-- Reading gives no warning exactly on whole blocks whose checksums are right. Whatever is read, at
most one warning says that the bytes do not end with a block: one for a byte left over, or one for a
last block that is shorter than it declares. The warnings on checksums follow the blocks in order.
-/
theorem warnings_exact (bytes : List UInt8) :
    let image := Image.ofBytes bytes
    (image.warnings = [] ↔ ∃ blocks : List (List UInt8),
      (∀ data ∈ blocks, data.length ≤ 65535 ∧ (data.length < 2 ∨ parity data = 0)) ∧
      bytes = encode blocks) ∧
    (image.warnings.filter Notice.isFraming).length ≤ 1 ∧
    (∀ count, .trailingBytes count ∈ image.warnings ↔ count = 1 ∧
      ∃ blocks byte, AreStorable blocks ∧ bytes = encode blocks ++ [byte]) ∧
    (∀ index declared kept, .shortBlock index declared kept ∈ image.warnings ↔
      ∃ (blocks : List (List UInt8)) (c : Chunk), AreStorable blocks ∧
        bytes = encode blocks ++ c.toBytes ∧ c.data.length < c.declared.toNat ∧
        index = blocks.length ∧ declared = c.declared.toNat ∧ kept = c.data.length) ∧
    image.warnings.filter Notice.isChecksum = image.blocks.filterMap Block.checksumWarning? := by
  intro image
  refine ⟨warnings_eq_nil_iff bytes, ?_, trailingBytes_mem_warnings_iff bytes,
    shortBlock_mem_warnings_iff bytes, image.filter_isChecksum_warnings⟩
  obtain ⟨blocks, -, ⟨-, he⟩ | ⟨byte, -, he⟩ | ⟨c, -, -, he⟩⟩ := framingWarnings_cases bytes
  · simp [image, he]
  · simp [image, he]
  · simp [image, he]

end Tape

end SpectrumListing
