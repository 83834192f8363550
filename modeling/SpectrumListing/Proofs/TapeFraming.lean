import Mathlib
import SpectrumListing.Tape.Image

/-!
# Framing of tape images

`Framed` says how bytes fall into chunks: whole chunks one after the other, and behind them at most
one byte or a chunk that the end of the bytes cuts short. Every sequence of bytes has exactly one
framing, the one that reading finds, so an image keeps all its bytes and whole blocks survive being
written and read again.
-/
namespace SpectrumListing.Tape

namespace Chunk

/-- The chunk of a block that is stored whole. -/
def ofData (data : List UInt8) : Chunk := ⟨UInt16.ofNat data.length, data⟩

theorem declared_ofData {data : List UInt8} (h : data.length ≤ 65535) :
    (ofData data).data.length = (ofData data).declared.toNat := by
  change data.length = (UInt16.ofNat data.length).toNat
  rw [UInt16.toNat_ofNat', Nat.mod_eq_of_lt (by omega)]

theorem read?_toBytes_append (c : Chunk) (rest : List UInt8) :
    read? (c.toBytes ++ rest) =
      some (⟨c.declared, (c.data ++ rest).take c.declared.toNat⟩,
        (c.data ++ rest).drop c.declared.toNat) := by
  simp only [toBytes, List.cons_append, read?, wordOfBytes_lowByte_highByte]

theorem read?_of_full {c : Chunk} (h : c.data.length = c.declared.toNat) (rest : List UInt8) :
    read? (c.toBytes ++ rest) = some (c, rest) := by
  rw [read?_toBytes_append, ← h, List.take_left, List.drop_left]

theorem read?_of_short {c : Chunk} (h : c.data.length < c.declared.toNat) :
    read? c.toBytes = some (c, []) := by
  rw [← List.append_nil c.toBytes, read?_toBytes_append, List.append_nil,
    List.take_of_length_le h.le, List.drop_of_length_le h.le]

theorem read?_eq_none_iff {bytes : List UInt8} : read? bytes = none ↔ bytes.length ≤ 1 := by
  rcases bytes with _ | ⟨low, _ | ⟨high, rest⟩⟩ <;> simp [read?]

/-- A chunk is followed by more bytes only if it is whole. -/
theorem eq_of_read?_eq_some {bytes rest : List UInt8} {c : Chunk}
    (h : read? bytes = some (c, rest)) :
    bytes = c.toBytes ++ rest ∧
      (c.data.length = c.declared.toNat ∨ c.data.length < c.declared.toNat ∧ rest = []) := by
  rcases bytes with _ | ⟨low, _ | ⟨high, body⟩⟩
  · cases h
  · cases h
  · cases h
    constructor
    · simp [toBytes, lowByte_wordOfBytes, highByte_wordOfBytes]
    · dsimp only
      rw [List.length_take, List.drop_eq_nil_iff]
      omega

end Chunk

namespace Image

theorem ofBytes_eq (bytes : List UInt8) :
    ofBytes bytes = ⟨Chunk.source.toList bytes, Chunk.source.last bytes⟩ := by
  simp [ofBytes, Unfold.drain_eq]

theorem ofBytes_of_none {bytes : List UInt8} (h : Chunk.read? bytes = none) :
    ofBytes bytes = ⟨[], bytes⟩ := by
  have hs : Chunk.source.step bytes = none := h
  rw [ofBytes_eq, Unfold.toList_of_none hs, Unfold.last_of_none hs]

theorem ofBytes_of_some {bytes rest : List UInt8} {c : Chunk}
    (h : Chunk.read? bytes = some (c, rest)) :
    ofBytes bytes = ⟨c :: (ofBytes rest).chunks, (ofBytes rest).trailing⟩ := by
  have hs : Chunk.source.step bytes = some (c, rest) := h
  rw [ofBytes_eq, ofBytes_eq rest, Unfold.toList_of_some hs, Unfold.last_of_some hs]

theorem map_data_blocks (image : Image) :
    image.blocks.map Block.data = image.chunks.map Chunk.data := by
  apply List.ext_getElem
  · simp [blocks]
  · simp [blocks]

theorem blocks_eq_mapIdx (image : Image) :
    image.blocks = (image.chunks.map Chunk.data).mapIdx Block.mk := by
  apply List.ext_getElem
  · simp [blocks]
  · simp [blocks]

end Image

/-- The chunks that bytes fall into, and the byte that may be left over. -/
inductive Framed : List UInt8 → Image → Prop
  | rest {bytes : List UInt8} (length : bytes.length ≤ 1) : Framed bytes ⟨[], bytes⟩
  | short {c : Chunk} (short : c.data.length < c.declared.toNat) : Framed c.toBytes ⟨[c], []⟩
  | cons {c : Chunk} {bytes : List UInt8} {image : Image}
      (full : c.data.length = c.declared.toNat) (tail : Framed bytes image) :
      Framed (c.toBytes ++ bytes) ⟨c :: image.chunks, image.trailing⟩

theorem framed_ofBytes (bytes : List UInt8) : Framed bytes (Image.ofBytes bytes) := by
  -- On the number of bytes: a chunk takes at least the two bytes of its length.
  induction hn : bytes.length using Nat.strongRecOn generalizing bytes with
  | _ n ih =>
    subst hn
    cases hr : Chunk.read? bytes with
    | none =>
      rw [Image.ofBytes_of_none hr]
      exact .rest (Chunk.read?_eq_none_iff.mp hr)
    | some r =>
      obtain ⟨c, rest⟩ := r
      have tail := ih _ (Chunk.length_lt_of_read? hr) rest rfl
      rw [Image.ofBytes_of_some hr]
      obtain ⟨rfl, full | ⟨short, rfl⟩⟩ := Chunk.eq_of_read?_eq_some hr
      · exact .cons full tail
      · rw [List.append_nil, Image.ofBytes_of_none rfl]
        exact .short short

namespace Framed

variable {bytes : List UInt8} {image : Image}

/-- Bytes have one framing. -/
theorem eq_ofBytes (h : Framed bytes image) : image = Image.ofBytes bytes := by
  induction h with
  | rest length => rw [Image.ofBytes_of_none (Chunk.read?_eq_none_iff.mpr length)]
  | short short =>
    rw [Image.ofBytes_of_some (Chunk.read?_of_short short), Image.ofBytes_of_none rfl]
  | cons full _ ih => rw [Image.ofBytes_of_some (Chunk.read?_of_full full _), ← ih]

theorem toBytes_eq (h : Framed bytes image) : image.toBytes = bytes := by
  induction h with
  | rest _ => rfl
  | short _ => simp [Image.toBytes]
  | cons _ _ ih =>
    rw [← ih]
    simp [Image.toBytes]

theorem length_trailing_le (h : Framed bytes image) : image.trailing.length ≤ 1 := by
  induction h with
  | rest length => exact length
  | short _ => simp
  | cons _ _ ih => exact ih

theorem length_data_le (h : Framed bytes image) :
    ∀ c ∈ image.chunks, c.data.length ≤ c.declared.toNat := by
  induction h with
  | rest _ => simp
  | short short => simpa using short.le
  | cons full _ ih => simpa [full] using ih

/-- Only the last chunk can be short. -/
theorem full_of_mem_dropLast (h : Framed bytes image) :
    ∀ c ∈ image.chunks.dropLast, c.declared.toNat = c.data.length := by
  induction h with
  | rest _ => simp
  | short _ => simp
  | @cons c bytes image full tail ih =>
    intro d hd
    rcases eq_or_ne image.chunks [] with he | hne
    · simp [he] at hd
    · rw [List.dropLast_cons_of_ne_nil hne, List.mem_cons] at hd
      obtain rfl | hd := hd
      · exact full.symm
      · exact ih d hd

theorem trailing_eq_nil_of_short (h : Framed bytes image) {c : Chunk} (hc : c ∈ image.chunks)
    (hs : c.data.length < c.declared.toNat) : image.trailing = [] := by
  induction h with
  | rest _ => cases hc
  | short _ => rfl
  | cons full _ ih =>
    rcases List.mem_cons.mp hc with rfl | hc
    · omega
    · exact ih hc

end Framed

/-- The image of blocks that are stored whole. -/
def encode (blocks : List (List UInt8)) : List UInt8 :=
  blocks.flatMap fun data => (Chunk.ofData data).toBytes

theorem encode_cons (data : List UInt8) (blocks : List (List UInt8)) :
    encode (data :: blocks) = (Chunk.ofData data).toBytes ++ encode blocks := by
  rw [encode, List.flatMap_cons]
  rfl

theorem framed_encode_append {blocks : List (List UInt8)}
    (h : ∀ data ∈ blocks, data.length ≤ 65535) {bytes : List UInt8} {image : Image}
    (tail : Framed bytes image) :
    Framed (encode blocks ++ bytes) ⟨blocks.map Chunk.ofData ++ image.chunks, image.trailing⟩ := by
  induction blocks with
  | nil => exact tail
  | cons data blocks ih =>
    have full := Chunk.declared_ofData (h data (by simp))
    have rest := ih fun d hd => h d (by simp [hd])
    rw [encode_cons, List.append_assoc]
    exact .cons full rest

theorem framed_encode {blocks : List (List UInt8)} (h : ∀ data ∈ blocks, data.length ≤ 65535) :
    Framed (encode blocks) ⟨blocks.map Chunk.ofData, []⟩ := by
  have tail : Framed [] ⟨[], []⟩ := .rest (Nat.zero_le 1)
  have framed := framed_encode_append h tail
  rwa [List.append_nil, List.append_nil] at framed

theorem blocks_ofBytes_encode {blocks : List (List UInt8)}
    (h : ∀ data ∈ blocks, data.length ≤ 65535) :
    (Image.ofBytes (encode blocks)).blocks = blocks.mapIdx Block.mk := by
  rw [← (framed_encode h).eq_ofBytes, Image.blocks_eq_mapIdx, List.map_map]
  exact congrArg (List.mapIdx Block.mk) (List.map_id blocks)

theorem length_data_le_of_mem_blocks {bytes data : List UInt8}
    (h : data ∈ (Image.ofBytes bytes).blocks.map Block.data) : data.length ≤ 65535 := by
  rw [Image.map_data_blocks] at h
  obtain ⟨c, hc, rfl⟩ := List.mem_map.mp h
  have hle := (framed_ofBytes bytes).length_data_le c hc
  have hlt := c.declared.toNat_lt
  omega

/-- Whole blocks are read back as they were written. Any bytes are the chunks of the blocks that are
read from them and at most one byte more; only the last chunk can be shorter than it declares, and
then nothing follows it. So writing the blocks of an image again changes none of them. -/
theorem blocks_roundtrip :
    (∀ blocks : List (List UInt8), (∀ data ∈ blocks, data.length ≤ 65535) →
      (Image.ofBytes (encode blocks)).blocks = blocks.mapIdx Block.mk) ∧
    (∀ bytes : List UInt8, ∃ (chunks : List Chunk) (trailing : List UInt8),
      chunks.map Chunk.data = (Image.ofBytes bytes).blocks.map Block.data ∧
      bytes = chunks.flatMap Chunk.toBytes ++ trailing ∧ trailing.length ≤ 1 ∧
      (∀ c ∈ chunks.dropLast, c.declared.toNat = c.data.length) ∧
      ∀ c ∈ chunks.getLast?, c.data.length ≤ c.declared.toNat ∧
        (c.data.length < c.declared.toNat → trailing = [])) ∧
    ∀ bytes : List UInt8,
      (Image.ofBytes (encode ((Image.ofBytes bytes).blocks.map Block.data))).blocks =
        (Image.ofBytes bytes).blocks := by
  refine ⟨fun blocks h => blocks_ofBytes_encode h, fun bytes => ?_, fun bytes => ?_⟩
  · have framed := framed_ofBytes bytes
    refine ⟨(Image.ofBytes bytes).chunks, (Image.ofBytes bytes).trailing,
      (Image.map_data_blocks _).symm, framed.toBytes_eq.symm, framed.length_trailing_le,
      framed.full_of_mem_dropLast, fun c hc => ?_⟩
    have hmem := List.mem_of_mem_getLast? hc
    exact ⟨framed.length_data_le c hmem, framed.trailing_eq_nil_of_short hmem⟩
  · rw [blocks_ofBytes_encode fun data => length_data_le_of_mem_blocks, Image.map_data_blocks,
      ← Image.blocks_eq_mapIdx]

theorem blocks_roundtrip_with_empty_block :
    (∀ data ∈ ([[0xFF, 0x01, 0xFE], [], [0x13]] : List (List UInt8)), data.length ≤ 65535) ∧
    (Image.ofBytes (encode [[0xFF, 0x01, 0xFE], [], [0x13]])).blocks =
      [⟨0, [0xFF, 0x01, 0xFE]⟩, ⟨1, []⟩, ⟨2, [0x13]⟩] := by
  have hlen : ∀ data ∈ ([[0xFF, 0x01, 0xFE], [], [0x13]] : List (List UInt8)),
      data.length ≤ 65535 := by decide
  exact ⟨hlen, blocks_roundtrip.1 _ hlen⟩

end SpectrumListing.Tape
