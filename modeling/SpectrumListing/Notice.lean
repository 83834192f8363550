import SpectrumListing.Text.Hex

/-! What the program reports beside its listing: remarks on the code, on the tape and on the run
itself, each with a level of importance and a message. -/
namespace SpectrumListing

inductive Level
  | trace | debug | info | warn
deriving DecidableEq, Repr

namespace Level

def rank : Level → Nat
  | trace => 0 | debug => 1 | info => 2 | warn => 3

/-- Whether notices of this level pass a filter that admits `least` and above. -/
def passes (least level : Level) : Bool := least.rank ≤ level.rank

end Level

inductive Notice
  | decoded (address : UInt16) (bytes : List UInt8) (mnemonic : String)
  | truncated (address : UInt16) (size : Nat)
  | undefinedOpcode (opcode : UInt8)
  | fileRead (size : Nat) (path : String)
  | trailingBytes (count : Nat)
  | shortBlock (index declared kept : Nat)
  | blockFound (index : Nat) (flag : UInt8) (size : Nat)
  | checksumMismatch (index : Nat) (stored computed : UInt8)
  | noEntry (block : Nat)
  | tapeInput (path : String)
  | rawInput (path : String) (origin : UInt16)
  | blocksRead (count : Nat)
  | entrySelected (block : Nat)
  | selectionIgnored
  | listingWritten (path : String) (lines : Nat)
deriving DecidableEq, Repr

namespace Notice

def level : Notice → Level
  | decoded .. => .trace
  | truncated .. | undefinedOpcode .. | fileRead .. | blockFound .. => .debug
  | tapeInput .. | rawInput .. | blocksRead .. | entrySelected .. | listingWritten .. => .info
  | trailingBytes .. | shortBlock .. | checksumMismatch .. | noEntry .. | selectionIgnored => .warn

def message : Notice → String
  | decoded address bytes mnemonic =>
    Hex.word address ++ ": [" ++ ", ".intercalate (bytes.map Hex.byte) ++ "] " ++ mnemonic
  | truncated address size =>
    "Instruction at " ++ Hex.word address ++ " truncated after " ++ toString size ++ " byte(s)"
  | undefinedOpcode opcode => "Undefined ED-prefixed opcode " ++ Hex.byte opcode
  | fileRead size path => "Read " ++ toString size ++ " bytes from '" ++ path ++ "'"
  | trailingBytes count => "Ignoring " ++ toString count ++ " trailing byte(s) at end of TAP data"
  | shortBlock index declared kept =>
    "TAP block " ++ toString index ++ " declares " ++ toString declared ++ " bytes but only " ++
      toString kept ++ " remain"
  | blockFound index flag size =>
    "TAP block " ++ toString index ++ ": flag=" ++ Hex.byte flag ++ ", length=" ++ toString size
  | checksumMismatch index stored computed =>
    "TAP block " ++ toString index ++ " checksum mismatch: stored " ++ Hex.byte stored ++
      ", computed " ++ Hex.byte computed
  | noEntry block => "No TAP entry starts at block " ++ toString block
  | tapeInput path => "Parsing '" ++ path ++ "' as a TAP file"
  | rawInput path origin =>
    "Disassembling '" ++ path ++ "' as a raw binary at 0x" ++ Hex.word origin
  | blocksRead count => "Read " ++ toString count ++ " TAP blocks"
  | entrySelected block => "Listing only the entry at block " ++ toString block
  | selectionIgnored => "--block has no effect on raw binaries"
  | listingWritten path lines =>
    "Disassembly written to " ++ path ++ " (" ++ toString lines ++ " lines)"

end Notice

end SpectrumListing
