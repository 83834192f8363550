import SpectrumListing.Listing.Line
import SpectrumListing.Tape.Entry

/-! Listings of tapes. Each entry has a section of its own: code is disassembled, other data is
described and, on demand, dumped. -/
namespace SpectrumListing.Listing

open SpectrumListing.Tape

/-- Whether data that is not disassembled is dumped, and the block whose entry alone is listed. -/
structure Options where
  hex : Bool
  block : Option Nat
deriving DecidableEq, Repr

def screenSize : Nat := 6912

def screenAddress : UInt16 := 0x4000

/-- The number of bytes of a screen that are dumped. -/
def screenPreview : Nat := 128

def checksumLines (b : Block) : List Line :=
  match b.mismatch? with
  | some (stored, computed) =>
    [.comment ("Checksum mismatch: stored 0x" ++ Hex.byte stored ++ ", computed 0x" ++
      Hex.byte computed)]
  | none => []

def optionalDump (hex : Bool) (bytes : List UInt8) : List Line :=
  if hex then dumpLines bytes 0 ++ [.blank] else []

/-- The lines on the data that a header describes. -/
def describedData (hex : Bool) (h : Header) (payload : List UInt8) : List Line :=
  match h.kind with
  | .program =>
    [.comment ("Auto-start line: " ++ toString h.start.toNat),
      .comment ("Data length: " ++ toString h.dataLength.toNat ++ " bytes"),
      .comment "(BASIC program - not disassembled)", .blank] ++ optionalDump hex payload
  | .code =>
    [.comment ("Load address: 0x" ++ Hex.word h.start),
      .comment ("Length: " ++ toString h.dataLength.toNat ++ " bytes"), .blank] ++
      codeLines payload h.start ++ [.blank]
  | .numberArray | .characterArray | .unknown _ =>
    [.comment ("Data length: " ++ toString h.dataLength.toNat ++ " bytes"),
      .comment "(Data block - not disassembled)", .blank] ++ optionalDump hex payload

/-- The lines on a payload that no header describes. -/
def undescribedData (hex : Bool) (payload : List UInt8) : List Line :=
  if payload.length = screenSize then
    [.comment "Likely ZX Spectrum screen data (6144 pixels + 768 attributes)", .blank] ++
      if hex then
        [.comment ("First " ++ toString screenPreview ++ " bytes:")] ++
          dumpLines (payload.take screenPreview) screenAddress ++ [.comment "...", .blank]
      else []
  else
    [.comment "(Headerless block - load address unknown, disassembling from 0x0000)",
      .comment "Use --org to specify the correct base address for raw blocks.", .blank] ++
      codeLines payload 0 ++ [.blank]

def entryLines (hex : Bool) (e : Entry) : List Line :=
  match e.header with
  | some h =>
    [.comment ("=== Block " ++ toString e.index ++ "/" ++ toString (e.index + 1) ++ ": " ++
      h.kind.title ++ " \"" ++ h.name ++ "\" ===")] ++
      checksumLines e.data ++ describedData hex h e.data.payload
  | none =>
    [.comment ("=== Block " ++ toString e.index ++ ": Headerless data block ==="),
      .comment ("Flag: 0x" ++ Hex.byte e.data.flag),
      .comment ("Payload length: " ++ toString e.data.payload.length ++ " bytes")] ++
      checksumLines e.data ++ undescribedData hex e.data.payload

def selectedEntries (options : Options) (image : Image) : List Entry :=
  image.entries.filter fun e => options.block.all (· == e.index)

def tape (fileName : String) (image : Image) (options : Options) : List Line :=
  banner fileName ++
  [.comment ("Total blocks: " ++ toString image.chunks.length), .blank] ++
  (selectedEntries options image).flatMap (entryLines options.hex) ++ [closing]

/-- The remark on a block that was asked for and starts no entry. -/
def missingEntry (image : Image) (options : Options) : List Notice :=
  match options.block with
  | some block => if (selectedEntries options image).isEmpty then [.noEntry block] else []
  | none => []

/-- What is reported while the listing of a tape is made. -/
def tapeNotices (fileName : String) (image : Image) (options : Options) : List Notice :=
  (tape fileName image options).flatMap Line.notices ++ missingEntry image options

end SpectrumListing.Listing
