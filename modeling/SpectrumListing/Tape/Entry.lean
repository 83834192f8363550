import SpectrumListing.Tape.Header
import SpectrumListing.Tape.Image

/-! Entries: a header with the data block after it, or a block on its own. A header at the end of
the tape has no data block and is an entry like any other block. An entry is known by the number of
its first block, counted while the blocks are gone through. -/
namespace SpectrumListing.Tape

structure Entry where
  index : Nat
  header : Option Header
  data : Block
deriving DecidableEq, Repr

namespace Entry

/-- The entry at the front of the blocks, of which the first has the given number, and what comes
after it. -/
def read? : Nat × List Block → Option (Entry × Nat × List Block)
  | (_, []) => none
  | (index, block :: rest) =>
    match Header.ofBytes? block.data, rest with
    | some header, data :: rest => some (⟨index, some header, data⟩, index + 2, rest)
    | _, rest => some (⟨index, none, block⟩, index + 1, rest)

theorem length_lt_of_read? {s t : Nat × List Block} {e : Entry} (h : read? s = some (e, t)) :
    t.2.length < s.2.length := by
  obtain ⟨index, _ | ⟨block, blocks⟩⟩ := s
  · simp [read?] at h
  · simp only [read?] at h
    split at h <;> cases h <;> simp only [List.length_cons] <;> omega

def source : Unfold (Nat × List Block) Entry where
  step := read?
  size s := s.2.length
  size_lt := length_lt_of_read?

def ofBlocks (blocks : List Block) : List Entry := source.toList (0, blocks)

end Entry

def Image.entries (image : Image) : List Entry := Entry.ofBlocks image.blocks

end SpectrumListing.Tape
