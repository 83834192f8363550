import Mathlib
import SpectrumListing.Proofs.TapeWarnings

/-!
# Damage to a single byte of a tape

Changing one byte inside a block leaves the framing of the tape alone, since every block keeps its
length. In a block whose checksum was right it is wrong afterwards, so the warnings tell which block
was damaged.
-/
namespace SpectrumListing.Tape

/-- Where a block begins in the bytes of a tape, behind the two bytes of its length. -/
def bodyStart (blocks : List (List UInt8)) (k : ℕ) : ℕ := (encode (blocks.take k)).length + 2

/-- Changing a byte of a block as it is stored is storing the changed block. -/
theorem set_encode {blocks : List (List UInt8)} {k p : ℕ} (hk : k < blocks.length)
    (hp : p < blocks[k].length) (v : UInt8) :
    (encode blocks).set (bodyStart blocks k + p) v =
      encode (blocks.set k (blocks[k].set p v)) := by
  induction blocks generalizing k with
  | nil => cases hk
  | cons data blocks ih =>
    cases k with
    | zero =>
      have hplace : bodyStart (data :: blocks) 0 + p = p + 1 + 1 := by
        simp [bodyStart, encode]
        omega
      have hp : p < data.length := hp
      rw [hplace, List.set_cons_zero, encode_cons, encode_cons]
      simp only [Chunk.toBytes, Chunk.ofData, List.cons_append, List.set_cons_succ,
        List.length_set, List.getElem_cons_zero, List.set_append_left _ _ hp]
    | succ k =>
      have hplace : bodyStart (data :: blocks) (k + 1) + p =
          (Chunk.ofData data).toBytes.length + (bodyStart blocks k + p) := by
        rw [bodyStart, bodyStart, List.take_succ_cons, encode_cons, List.length_append]
        omega
      have htail := ih (by simpa using hk) hp
      rw [hplace, List.set_cons_succ, encode_cons, encode_cons, List.getElem_cons_succ, ← htail,
        List.set_append_right _ _ (by omega), Nat.add_sub_cancel_left]

/-- One item with a result among items that have none. -/
theorem filterMap_eq_singleton {α β : Type} {f : α → Option β} {items : List α} {k : ℕ}
    (hk : k < items.length) {b : β} (hb : f items[k] = some b)
    (hnone : ∀ n (hn : n < items.length), n ≠ k → f items[n] = none) :
    items.filterMap f = [b] := by
  have hfront : (items.take k).filterMap f = [] := by
    rw [List.filterMap_eq_nil_iff]
    intro a ha
    obtain ⟨n, hn, rfl⟩ := List.mem_take_iff_getElem.mp ha
    exact hnone n (by omega) (by omega)
  have hback : (items.drop (k + 1)).filterMap f = [] := by
    rw [List.filterMap_eq_nil_iff]
    intro a ha
    obtain ⟨n, hn, rfl⟩ := List.mem_drop_iff_getElem.mp ha
    exact hnone (k + 1 + n) (by omega) (by omega)
  rw [← List.take_append_drop k items, List.drop_eq_getElem_cons hk, List.filterMap_append, hfront,
    List.filterMap_cons_some hb, hback, List.nil_append]

section Damaged

variable {blocks : List (List UInt8)} {k p : ℕ} {v : UInt8}

theorem map_length_damaged (hk : k < blocks.length) (p : ℕ) (v : UInt8) :
    (blocks.set k (blocks[k].set p v)).map List.length = blocks.map List.length := by
  apply List.ext_getElem
  · simp
  · intro n hn hn'
    rw [List.getElem_map, List.getElem_map, List.getElem_set]
    split_ifs with he
    · subst he
      exact List.length_set
    · rfl

theorem areStorable_damaged (h : AreStorable blocks) (hk : k < blocks.length) (p : ℕ) (v : UInt8) :
    AreStorable (blocks.set k (blocks[k].set p v)) := by
  intro data hdata
  rcases List.mem_or_eq_of_mem_set hdata with hmem | rfl
  · exact h data hmem
  · rw [List.length_set]
    exact h _ (List.getElem_mem hk)

theorem blocks_damaged (h : AreStorable blocks) (hk : k < blocks.length) (hp : p < blocks[k].length)
    (v : UInt8) :
    (Image.ofBytes ((encode blocks).set (bodyStart blocks k + p) v)).blocks =
      (blocks.set k (blocks[k].set p v)).mapIdx Block.mk := by
  rw [set_encode hk hp, blocks_ofBytes_encode (areStorable_damaged h hk p v)]

variable (hlong : ∀ data ∈ blocks, 2 ≤ data.length) (hparity : ∀ data ∈ blocks, parity data = 0)
  (hk : k < blocks.length) (hp : p < blocks[k].length) (hv : v ≠ blocks[k][p])
include hlong hparity hk hp hv

theorem isValid_damaged {n : ℕ} (hn : n < (blocks.set k (blocks[k].set p v)).length) :
    (Block.mk n (blocks.set k (blocks[k].set p v))[n]).isValid = true ↔ n ≠ k := by
  have hmem (m : ℕ) (hm : m < blocks.length) : blocks[m] ∈ blocks := List.getElem_mem hm
  rw [List.length_set] at hn
  by_cases he : k = n
  · subst he
    rw [Block.isValid_of_long]
    · simp [parity_set_ne_zero (hparity _ (hmem k hk)) hp hv]
    · simpa using hlong _ (hmem k hk)
  · have hsame : (blocks.set k (blocks[k].set p v))[n] = blocks[n] := List.getElem_set_ne he _
    rw [hsame, Block.isValid_of_long (hlong _ (hmem n hn))]
    exact iff_of_true (hparity _ (hmem n hn)) (Ne.symm he)

theorem warnings_damaged (h : AreStorable blocks) :
    ∃ stored computed, (Image.ofBytes ((encode blocks).set (bodyStart blocks k + p) v)).warnings =
      [.checksumMismatch k stored computed] := by
  have hlength : k < (blocks.set k (blocks[k].set p v)).length := by simpa using hk
  have hwrong : (Block.mk k (blocks.set k (blocks[k].set p v))[k]).checksumWarning? ≠ none := by
    rw [Ne, Block.checksumWarning?_eq_none_iff, isValid_damaged hlong hparity hk hp hv hlength]
    simp
  obtain ⟨n, hn⟩ := Option.ne_none_iff_exists'.mp hwrong
  obtain ⟨⟨stored, computed⟩, -, rfl⟩ := Option.map_eq_some_iff.mp hn
  refine ⟨stored, computed, ?_⟩
  rw [set_encode hk hp, warnings_encode (areStorable_damaged h hk p v)]
  refine filterMap_eq_singleton (k := k) (by simpa using hk) ?_ fun m hm he => ?_
  · rw [List.getElem_mapIdx]
    exact hn
  · rw [List.getElem_mapIdx, Block.checksumWarning?_eq_none_iff,
      isValid_damaged hlong hparity hk hp hv (by simpa using hm)]
    exact he

end Damaged

/-- If one byte of one block changes on a tape of blocks with right checksums, the same number of
blocks with the same lengths is read. The checksum of the changed block is wrong, those of all
others are right, and the only warning is on the changed block. Checksums are right if the exclusive
or of all bytes is zero, and every flag and payload can be completed to such a block. -/
theorem corruption_located :
    (∀ blocks : List Block,
      (∀ b ∈ blocks, 2 ≤ b.data.length ∧ b.data.length ≤ 65535 ∧ b.isValid = true) →
      ∀ (k p : ℕ) (v : UInt8) (hk : k < blocks.length) (hp : p < blocks[k].data.length),
        v ≠ blocks[k].data[p] →
        let tape := blocks.map Block.data
        let image := Image.ofBytes ((encode tape).set (bodyStart tape k + p) v)
        image.blocks.map Block.data = tape.set k (blocks[k].data.set p v) ∧
        image.blocks.map (·.data.length) = blocks.map (·.data.length) ∧
        (∀ n (hn : n < image.blocks.length), image.blocks[n].isValid = true ↔ n ≠ k) ∧
        ∃ stored computed, image.warnings = [.checksumMismatch k stored computed]) ∧
    (∀ b : Block, b.isValid = true ↔ b.data.length < 2 ∨ parity b.data = 0) ∧
    ∀ (index : ℕ) (flag : UInt8) (payload : List UInt8), payload ≠ [] →
      let b : Block := ⟨index, flag :: payload ++ [parity (flag :: payload)]⟩
      b.isValid = true ∧ b.payload = payload := by
  refine ⟨fun blocks hblocks k p v hk hp hv => ?_, Block.isValid_iff, fun index flag payload h =>
    ⟨Block.isValid_of_parity index flag payload, Block.payload_of_flag_checksum index flag _ h⟩⟩
  intro tape image
  have hsound (data : List UInt8) (hdata : data ∈ tape) :
      2 ≤ data.length ∧ data.length ≤ 65535 ∧ parity data = 0 := by
    obtain ⟨b, hb, rfl⟩ := List.mem_map.mp hdata
    obtain ⟨hlong, hle, hvalid⟩ := hblocks b hb
    exact ⟨hlong, hle, (Block.isValid_of_long hlong).mp hvalid⟩
  have hstorable : AreStorable tape := fun data hdata => (hsound data hdata).2.1
  have hk : k < tape.length := by simpa [tape] using hk
  have hblock : blocks[k].data = tape[k] := by simp [tape]
  have hp : p < tape[k].length := hblock ▸ hp
  have hv : v ≠ tape[k][p] := by simpa [tape] using hv
  have hread : image.blocks = (tape.set k (tape[k].set p v)).mapIdx Block.mk :=
    blocks_damaged hstorable hk hp v
  have hdata : image.blocks.map Block.data = tape.set k (tape[k].set p v) := by
    rw [hread, map_mapIdx]
    exact List.mapIdx_eq_iff.mpr fun n => by simp
  refine ⟨hblock ▸ hdata, ?_, fun n hn => ?_, ?_⟩
  · have hlengths := congrArg (List.map List.length) hdata
    rw [map_length_damaged hk] at hlengths
    simpa [tape, Function.comp_def] using hlengths
  · simp only [hread, List.getElem_mapIdx]
    exact isValid_damaged (fun data h => (hsound data h).1) (fun data h => (hsound data h).2.2)
      hk hp hv _
  · exact warnings_damaged (fun data h => (hsound data h).1) (fun data h => (hsound data h).2.2)
      hk hp hv hstorable

theorem corruption_located_checksum_byte :
    let blocks : List Block := [⟨0, [0xFF, 0x01, 0xFE]⟩, ⟨1, [0x13, 0x13]⟩]
    let image := Image.ofBytes [0x03, 0x00, 0xFF, 0x01, 0xFE, 0x02, 0x00, 0x13, 0x12]
    (∀ b ∈ blocks, 2 ≤ b.data.length ∧ b.data.length ≤ 65535 ∧ b.isValid = true) ∧
    image.blocks.map Block.data = [[0xFF, 0x01, 0xFE], [0x13, 0x12]] ∧
    ∃ stored computed, image.warnings = [.checksumMismatch 1 stored computed] := by
  intro blocks image
  have hblocks : ∀ b ∈ blocks, 2 ≤ b.data.length ∧ b.data.length ≤ 65535 ∧ b.isValid = true := by
    decide
  obtain ⟨hdata, -, -, hwarnings⟩ :=
    corruption_located.1 blocks hblocks 1 1 0x12 (by decide) (by decide) (by decide)
  exact ⟨hblocks, hdata, hwarnings⟩

end SpectrumListing.Tape
