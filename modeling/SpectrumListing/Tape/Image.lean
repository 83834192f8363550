import SpectrumListing.Notice
import SpectrumListing.Tape.Block
import SpectrumListing.Unfold
import SpectrumListing.Word

/-! Tape images: blocks one after the other, each behind a little-endian length. Any sequence of
bytes can be read as an image. Where it ends too early the last block is kept as far as it goes, and
a single byte left over is set aside. -/
namespace SpectrumListing.Tape

/-- The length that the image states for a block, and the bytes found there. -/
structure Chunk where
  declared : UInt16
  data : List UInt8
deriving DecidableEq, Repr

namespace Chunk

def toBytes (c : Chunk) : List UInt8 := lowByte c.declared :: highByte c.declared :: c.data

/-- The chunk at the front of the bytes, and the bytes after it. -/
def read? : List UInt8 → Option (Chunk × List UInt8)
  | low :: high :: rest =>
    let declared := wordOfBytes low high
    some (⟨declared, rest.take declared.toNat⟩, rest.drop declared.toNat)
  | _ => none

theorem length_lt_of_read? {bytes rest : List UInt8} {c : Chunk}
    (h : read? bytes = some (c, rest)) : rest.length < bytes.length := by
  rcases bytes with _ | ⟨low, _ | ⟨high, bytes⟩⟩ <;> simp only [read?, reduceCtorEq] at h
  cases h
  simp only [List.length_drop, List.length_cons]
  omega

def source : Unfold (List UInt8) Chunk where
  step := read?
  size := List.length
  size_lt := length_lt_of_read?

/-- What is reported on a chunk in place `index`. -/
def notices (index : Nat) (c : Chunk) : List Notice :=
  let block : Block := ⟨index, c.data⟩
  let short :=
    if c.data.length < c.declared.toNat then
      [.shortBlock index c.declared.toNat c.data.length]
    else []
  let checksum :=
    match block.mismatch? with
    | some (stored, computed) => [.checksumMismatch index stored computed]
    | none => []
  short ++ [.blockFound index block.flag c.data.length] ++ checksum

end Chunk

/-- The chunks of an image and the bytes after the last of them. -/
structure Image where
  chunks : List Chunk
  trailing : List UInt8
deriving DecidableEq, Repr

namespace Image

def ofBytes (bytes : List UInt8) : Image :=
  let (chunks, trailing) := Chunk.source.drain #[] bytes
  ⟨chunks.toList, trailing⟩

def toBytes (image : Image) : List UInt8 := image.chunks.flatMap Chunk.toBytes ++ image.trailing

def blocks (image : Image) : List Block := image.chunks.mapIdx fun index c => ⟨index, c.data⟩

/-- What is reported on reading the image. -/
def notices (image : Image) : List Notice :=
  let trailing :=
    if image.trailing.isEmpty then [] else [.trailingBytes image.trailing.length]
  (image.chunks.mapIdx Chunk.notices).flatten ++ trailing

end Image

end SpectrumListing.Tape
