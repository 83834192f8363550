/-! Control characters and the sequences that they open, as a terminal reads them, and what is left
of a text without them. Letters and the marks around them end most sequences, and one that is not
ended goes on to the end of the text. A layout character, such as a line feed, in the middle of a
sequence is shown, and so is the text after it; whether the sequence has then ended is for the
reader to decide. -/
namespace SpectrumListing.Control

inductive Kind
  | escape | cancel | layout | control | intermediate | parameter | final | delete | wide
deriving DecidableEq, Repr

def Kind.ofChar (c : Char) : Kind :=
  let code := c.toNat
  if code = 0x1B then escape
  else if code = 0x18 ∨ code = 0x1A then cancel
  else if c = '\t' ∨ c = '\n' ∨ code = 0x0C ∨ c = '\r' then layout
  else if code < 0x20 then control
  else if code < 0x30 then intermediate
  else if code < 0x40 then parameter
  else if code < 0x7F then final
  else if code = 0x7F then delete
  else wide

/-- The sequences that text can interrupt, by what has been read of them. -/
inductive Sequence
  | escape | intermediate | control
deriving DecidableEq, Repr

/-- What becomes of a sequence that text interrupts. One that is suspended goes on at the next
character that is not shown, unless a character beyond ASCII comes first. -/
inductive Interruption
  | ends | suspends
deriving DecidableEq, Repr

def Interruption.waiting : Interruption → Sequence → Option Sequence
  | ends, _ => none
  | suspends, q => some q

/-- What is being read: text, while a sequence may be waiting, or a sequence. -/
inductive State
  | text (waiting : Option Sequence)
  | sequence (q : Sequence)
  | device
  | deviceParameter
  | deviceIntermediate
  | string
  | command
deriving DecidableEq, Repr

/-- Whether the character contains, in UTF-8, the byte that ends a string. -/
def endsString (c : Char) : Bool := (String.utf8EncodeChar c).contains 0x9C

namespace State

def ground : State := text none

/-- What an escape character opens together with the final character after it. -/
def opened : Char → State
  | '[' => sequence .control
  | ']' => command
  | 'P' => device
  | 'X' | '^' | '_' => string
  | _ => ground

def shows (s : State) (c : Char) : Bool :=
  match s, Kind.ofChar c with
  | text _, .layout | text _, .intermediate | text _, .parameter | text _, .final
  | text _, .wide => true
  | sequence _, .layout => true
  | _, _ => false

def next (i : Interruption) (s : State) (c : Char) : State :=
  match s, Kind.ofChar c with
  | _, .escape => sequence .escape
  | _, .cancel => ground
  | text _, .wide => ground
  | text (some q), .control | text (some q), .delete => sequence q
  | sequence q, .layout => text (i.waiting q)
  | sequence .escape, .intermediate => sequence .intermediate
  | sequence .escape, .final => opened c
  | sequence .escape, .parameter | sequence .intermediate, .parameter
  | sequence .intermediate, .final | sequence .control, .final => ground
  | device, .intermediate | deviceParameter, .intermediate => deviceIntermediate
  | device, .parameter => deviceParameter
  | deviceParameter, .parameter => if c < '<' then deviceParameter else string
  | deviceIntermediate, .parameter => string
  | device, .final | deviceParameter, .final | deviceIntermediate, .final => string
  | string, .wide => if endsString c then ground else string
  | command, .control => if c.toNat = 0x07 then ground else command
  | s, _ => s

end State

/-- What is shown of a text that goes on from a state. -/
def shown (i : Interruption) (s : State) : List Char → List Char
  | [] => []
  | c :: cs => if s.shows c then c :: shown i (s.next i c) cs else shown i (s.next i c) cs

def strip (i : Interruption) (text : String) : String :=
  String.ofList (shown i .ground text.toList)

end SpectrumListing.Control
