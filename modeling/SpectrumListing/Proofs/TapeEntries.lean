import Mathlib
import SpectrumListing.Tape.Entry

/-!
# Entries cover the blocks of a tape

`Grouped` pairs each header with the block after it and leaves every other block on its own. The
entries of a tape group its blocks in this way, so going through them meets every block once and in
order, and a header stands alone only where nothing follows it. The number by which an entry is
known is counted on the way; it is the index that the block at this place carries.
-/
namespace SpectrumListing.Tape

/-- The entries that blocks form, of which the first has the number `start`. -/
inductive Grouped : ℕ → List Block → List Entry → Prop
  | nil {start : ℕ} : Grouped start [] []
  | paired {start : ℕ} {block data : Block} {h : Header} {blocks : List Block}
      {entries : List Entry} (parses : Header.ofBytes? block.data = some h)
      (tail : Grouped (start + 2) blocks entries) :
      Grouped start (block :: data :: blocks) (⟨start, some h, data⟩ :: entries)
  | alone {start : ℕ} {block : Block} {blocks : List Block} {entries : List Entry}
      (unpaired : Header.ofBytes? block.data = none ∨ blocks = [])
      (tail : Grouped (start + 1) blocks entries) :
      Grouped start (block :: blocks) (⟨start, none, block⟩ :: entries)

namespace Entry

/-- The indices of the blocks that belong to an entry. -/
def indices (e : Entry) : List ℕ :=
  if e.header.isSome then [e.index, e.index + 1] else [e.index]

theorem read?_eq_some {start next : ℕ} {blocks rest : List Block} {e : Entry}
    (hr : read? (start, blocks) = some (e, next, rest)) :
    (∃ block data h, Header.ofBytes? block.data = some h ∧ blocks = block :: data :: rest ∧
      e = ⟨start, some h, data⟩ ∧ next = start + 2) ∨
    ∃ block, (Header.ofBytes? block.data = none ∨ rest = []) ∧ blocks = block :: rest ∧
      e = ⟨start, none, block⟩ ∧ next = start + 1 := by
  rcases blocks with _ | ⟨block, blocks⟩
  · cases hr
  cases hh : Header.ofBytes? block.data with
  | none =>
    simp only [read?, hh, Option.some.injEq, Prod.mk.injEq] at hr
    obtain ⟨rfl, rfl, rfl⟩ := hr
    exact .inr ⟨block, .inl hh, rfl, rfl, rfl⟩
  | some h =>
    rcases blocks with _ | ⟨data, blocks⟩
    · simp only [read?, hh, Option.some.injEq, Prod.mk.injEq] at hr
      obtain ⟨rfl, rfl, rfl⟩ := hr
      exact .inr ⟨block, .inr rfl, rfl, rfl, rfl⟩
    · simp only [read?, hh, Option.some.injEq, Prod.mk.injEq] at hr
      obtain ⟨rfl, rfl, rfl⟩ := hr
      exact .inl ⟨block, data, h, hh, rfl, rfl, rfl⟩

theorem read?_eq_none {start : ℕ} {blocks : List Block} (hr : read? (start, blocks) = none) :
    blocks = [] := by
  rcases blocks with _ | ⟨block, blocks⟩
  · rfl
  · simp only [read?] at hr
    split at hr <;> cases hr

end Entry

theorem grouped_source (start : ℕ) (blocks : List Block) :
    Grouped start blocks (Entry.source.toList (start, blocks)) := by
  -- On the number of blocks, since one step takes one or two of them.
  induction hn : blocks.length using Nat.strongRecOn generalizing start blocks with
  | _ n ih =>
    subst hn
    cases hr : Entry.read? (start, blocks) with
    | none =>
      rw [Entry.read?_eq_none hr, Unfold.toList_of_none rfl]
      exact .nil
    | some r =>
      obtain ⟨e, next, rest⟩ := r
      have tail := ih _ (Entry.length_lt_of_read? hr) next rest rfl
      have hs : Entry.source.step (start, blocks) = some (e, next, rest) := hr
      rw [Unfold.toList_of_some hs]
      obtain ⟨block, data, h, parses, rfl, rfl, rfl⟩ | ⟨block, unpaired, rfl, rfl, rfl⟩ :=
        Entry.read?_eq_some hr
      · exact .paired parses tail
      · exact .alone unpaired tail

theorem Image.grouped_entries (image : Image) : Grouped 0 image.blocks image.entries :=
  grouped_source 0 image.blocks

namespace Grouped

variable {start : ℕ} {blocks : List Block} {entries : List Entry}

/-- Going through the entries counts all the blocks, one after the other. -/
theorem flatMap_indices (h : Grouped start blocks entries) :
    entries.flatMap Entry.indices = List.range' start blocks.length := by
  induction h with
  | nil => rfl
  | paired _ _ ih =>
    rw [List.flatMap_cons, ih]
    rfl
  | alone _ _ ih =>
    rw [List.flatMap_cons, ih]
    rfl

/-- An entry is a header and the block after it, or a block that is no header or comes last. Its
number counts the blocks in front of it. -/
theorem of_mem (h : Grouped start blocks entries) {e : Entry} (he : e ∈ entries) :
    ∃ front back, blocks = front ++ back ∧ e.index = start + front.length ∧
      ((∃ block header rest, back = block :: e.data :: rest ∧
          Header.ofBytes? block.data = some header ∧ e.header = some header) ∨
        ∃ rest, back = e.data :: rest ∧ (Header.ofBytes? e.data.data = none ∨ rest = []) ∧
          e.header = none) := by
  induction h with
  | nil => cases he
  | @paired start block data header _ _ parses _ ih =>
    rcases List.mem_cons.mp he with rfl | he
    · exact ⟨[], _, rfl, rfl, .inl ⟨block, header, _, rfl, parses, rfl⟩⟩
    · obtain ⟨front, back, rfl, hindex, hentry⟩ := ih he
      refine ⟨block :: data :: front, back, rfl, ?_, hentry⟩
      rw [hindex, List.length_cons, List.length_cons]
      omega
  | @alone start block _ _ unpaired _ ih =>
    rcases List.mem_cons.mp he with rfl | he
    · exact ⟨[], _, rfl, rfl, .inr ⟨_, rfl, unpaired, rfl⟩⟩
    · obtain ⟨front, back, rfl, hindex, hentry⟩ := ih he
      refine ⟨block :: front, back, rfl, ?_, hentry⟩
      rw [hindex, List.length_cons]
      omega

end Grouped

namespace Image

variable {image : Image}

/-- Every block carries the number of its place. -/
theorem index_of_getElem? {k : ℕ} {block : Block} (h : image.blocks[k]? = some block) :
    block.index = k := by
  rw [blocks, List.getElem?_mapIdx, Option.map_eq_some_iff] at h
  obtain ⟨c, -, rfl⟩ := h
  rfl

theorem flatMap_indices_entries (image : Image) :
    image.entries.flatMap Entry.indices = List.range image.blocks.length := by
  rw [List.range_eq_range']
  exact image.grouped_entries.flatMap_indices

theorem of_mem_entries_of_some {e : Entry} (he : e ∈ image.entries) {h : Header}
    (hh : e.header = some h) :
    (∃ block, image.blocks[e.index]? = some block ∧ Header.ofBytes? block.data = some h) ∧
      image.blocks[e.index + 1]? = some e.data ∧ e.data.index = e.index + 1 := by
  obtain ⟨front, _, hb, hindex, hentry⟩ := image.grouped_entries.of_mem he
  rw [Nat.zero_add] at hindex
  obtain ⟨block, header, rest, rfl, parses, hheader⟩ | ⟨_, _, _, hnone⟩ := hentry
  · have hfirst : image.blocks[e.index]? = some block := by simp [hb, hindex]
    have hsecond : image.blocks[e.index + 1]? = some e.data := by simp [hb, hindex]
    rw [hh] at hheader
    cases hheader
    exact ⟨⟨block, hfirst, parses⟩, hsecond, index_of_getElem? hsecond⟩
  · rw [hnone] at hh
    cases hh

theorem of_mem_entries_of_none {e : Entry} (he : e ∈ image.entries) (hh : e.header = none) :
    image.blocks[e.index]? = some e.data ∧ e.data.index = e.index ∧
      (Header.ofBytes? e.data.data = none ∨ e.index + 1 = image.blocks.length) := by
  obtain ⟨front, _, hb, hindex, hentry⟩ := image.grouped_entries.of_mem he
  rw [Nat.zero_add] at hindex
  obtain ⟨_, _, _, _, _, hsome⟩ | ⟨rest, rfl, unpaired, -⟩ := hentry
  · rw [hsome] at hh
    cases hh
  · have hdata : image.blocks[e.index]? = some e.data := by simp [hb, hindex]
    refine ⟨hdata, index_of_getElem? hdata, unpaired.imp_right ?_⟩
    rintro rfl
    simp [hb, hindex]

end Image

/-- The entries of a tape go through its blocks once and in order. A header always describes the
block after it, unless there is none: a block that reads as a header is an entry of its own only at
the end of the tape, and it is data only where the block before it reads as a header and describes
it. -/
theorem entries_cover_blocks (bytes : List UInt8) :
    let image := Image.ofBytes bytes
    image.entries.flatMap Entry.indices = List.range image.blocks.length ∧
    (∀ e ∈ image.entries, e.header = none →
      image.blocks[e.index]? = some e.data ∧ e.data.index = e.index) ∧
    (∀ e ∈ image.entries, ∀ h, e.header = some h →
      (∃ block, image.blocks[e.index]? = some block ∧ Header.ofBytes? block.data = some h) ∧
        image.blocks[e.index + 1]? = some e.data ∧ e.data.index = e.index + 1) ∧
    (∀ e ∈ image.entries, ∀ block, image.blocks[e.index]? = some block →
      (Header.ofBytes? block.data).isSome → e.index + 1 < image.blocks.length →
        e.header.isSome) ∧
    ∀ e ∈ image.entries, (Header.ofBytes? e.data.data).isSome →
      e.header = none ∧ e.data.index + 1 = image.blocks.length ∨
      ∃ before, image.blocks[e.index]? = some before ∧ e.data.index = e.index + 1 ∧
        e.header.isSome ∧ Header.ofBytes? before.data = e.header := by
  intro image
  refine ⟨image.flatMap_indices_entries, fun e he hh => ?_,
    fun e he h hh => Image.of_mem_entries_of_some he hh, fun e he block hb hp hlt => ?_,
    fun e he hp => ?_⟩
  · obtain ⟨hblock, hindex, -⟩ := Image.of_mem_entries_of_none he hh
    exact ⟨hblock, hindex⟩
  · rw [Option.isSome_iff_ne_none]
    intro hh
    obtain ⟨hblock, -, hnone | hlast⟩ := Image.of_mem_entries_of_none he hh
    · rw [hblock] at hb
      cases hb
      rw [hnone] at hp
      cases hp
    · omega
  · cases hh : e.header with
    | none =>
      obtain ⟨-, hindex, hnone | hlast⟩ := Image.of_mem_entries_of_none he hh
      · rw [hnone] at hp
        cases hp
      · exact .inl ⟨rfl, by omega⟩
    | some h =>
      obtain ⟨⟨before, hbefore, parses⟩, -, hindex⟩ := Image.of_mem_entries_of_some he hh
      exact .inr ⟨before, hbefore, hindex, rfl, parses⟩

end SpectrumListing.Tape
