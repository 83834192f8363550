import SpectrumListing.Listing.Tape
import SpectrumListing.Path

/-! What a run of the program is asked to do, and the listing it makes of its input. Plain machine
code is loaded at the origin. Of a tape all entries are listed, or only the one that starts at a
block, and data that is not disassembled is dumped on demand. Input and output are named by Unicode
texts, as `Path` has them, and paths that are not valid UTF-8 lie outside. -/
namespace SpectrumListing

structure Settings where
  input : Path
  output : Option Path
  origin : UInt16
  raw : Bool
  block : Option Nat
  hex : Bool
deriving DecidableEq, Repr

namespace Settings

def outputPath (s : Settings) : Path := s.output.getD s.input.listingPath

def tapeExtension : String := "tap"

/-- Whether the input is read as a tape: its extension says so, in whatever case. -/
def isTape (s : Settings) : Bool :=
  !s.raw && s.input.extension?.any fun e =>
    String.ofList (e.toList.map Char.toLower) == tapeExtension

def options (s : Settings) : Listing.Options := ⟨s.hex, s.block⟩

def listing (s : Settings) (content : List UInt8) : List Listing.Line :=
  if s.isTape then Listing.tape s.input.displayName (Tape.Image.ofBytes content) s.options
  else Listing.raw s.input.displayName content s.origin

/-- What is reported before the input is read. -/
def openingNotices (s : Settings) : List Notice :=
  if s.isTape then [.tapeInput s.input.text]
  else
    [.rawInput s.input.text s.origin] ++ if s.block.isSome then [.selectionIgnored] else []

/-- What is reported while the listing of the input's content is made. -/
def listingNotices (s : Settings) (content : List UInt8) : List Notice :=
  if s.isTape then
    let image := Tape.Image.ofBytes content
    [.fileRead content.length s.input.text] ++ image.notices ++
      [.blocksRead image.chunks.length] ++ (s.block.map Notice.entrySelected).toList ++
      Listing.tapeNotices s.input.displayName image s.options
  else (s.listing content).flatMap Listing.Line.notices

end Settings

end SpectrumListing
