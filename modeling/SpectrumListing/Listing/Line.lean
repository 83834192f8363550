import SpectrumListing.Listing.HexDump
import SpectrumListing.Z80.Sweep

/-! The lines of a listing and their text, and the listings of plain machine code. Whatever is not
an instruction is blank or a comment. -/
namespace SpectrumListing.Listing

inductive Line
  | blank
  | comment (words : String)
  | dump (row : HexDump.Row)
  | code (i : Z80.Instruction)
deriving DecidableEq, Repr

namespace Line

def text : Line → String
  | blank => ""
  | comment words => "; " ++ words
  | dump row => "; " ++ row.text
  | code i => i.line

/-- What is reported when the line is made. -/
def notices : Line → List Notice
  | code i => i.notices
  | blank | comment _ | dump _ => []

end Line

/-- The lines that disassemble bytes loaded at `base`. -/
def codeLines (bytes : List UInt8) (base : UInt16) : List Line :=
  (Z80.decodeBlock bytes base).map Line.code

/-- The lines that dump bytes as a comment. -/
def dumpLines (bytes : List UInt8) (base : UInt16) : List Line :=
  (HexDump.rows bytes base).map Line.dump

/-- The text of a file with the given lines; a line break ends each of them. -/
def joinLines (lines : List String) : String := "\n".intercalate lines ++ "\n"

def render (lines : List Line) : String := joinLines (lines.map Line.text)

def rule : Line := .comment (String.ofList (List.replicate 60 '='))

def banner (fileName : String) : List Line :=
  [rule, .comment ("Z80 Disassembly of " ++ fileName), rule]

def closing : Line := .comment "=== End of Disassembly ==="

/-- The listing of code that is loaded at `origin`. -/
def raw (fileName : String) (code : List UInt8) (origin : UInt16) : List Line :=
  banner fileName ++
  [.comment ("ORG: 0x" ++ Hex.word origin),
    .comment ("Length: " ++ toString code.length ++ " bytes (0x" ++ Hex.number 4 code.length ++
      ")"),
    .blank] ++
  codeLines code origin ++ [.blank, closing]

end SpectrumListing.Listing
