import SpectrumListing.Run
import SpectrumListing.Text.Control
import SpectrumListing.Text.Pieces

/-! What a run shows on the console: its notices above a level of importance, and then the report of
its failure. A notice is shown without control characters and with its further lines set in, so that
the names of files in it cannot pass for other notices. -/
namespace SpectrumListing

namespace Console

/-- A line, with the notice that it begins. -/
structure Line where
  notice : Option Notice
  text : String
deriving DecidableEq, Repr

/-- A text that is written at one time. -/
structure Entry where
  notice : Option Notice
  text : String
deriving DecidableEq, Repr

def setIn (text : String) : String :=
  "\n    ".intercalate ((Pieces.split '\n' text.toList).map String.ofList)

namespace Entry

/-- Control sequences take effect in the entry as a whole: one that is not ended by the message
hides the end of the line. -/
def ofNotice (n : Notice) : Entry := ⟨some n, Control.strip .suspends (setIn n.message ++ "\n")⟩

def ofFailure (f : RunFailure) : Entry := ⟨none, String.join (f.report.map (· ++ "\n"))⟩

/-- Whether the next entry starts on a new line. -/
def isEnded (e : Entry) : Bool := e.text.toList.getLast? == some '\n'

def lines (e : Entry) : List Line :=
  match Pieces.lines e.text with
  | [] => []
  | first :: rest => ⟨e.notice, first⟩ :: rest.map (Line.mk none)

end Entry

/-- Joins the entries that share a line. -/
def joined : List Entry → List Entry
  | [] => []
  | e :: es =>
    if e.isEnded then e :: joined es
    else
      match joined es with
      | [] => [e]
      | following :: es => ⟨e.notice, e.text ++ following.text⟩ :: es

end Console

/-- The lines on the console, when notices from a level on are shown. -/
def Outcome.console (o : Outcome) (least : Level) : List Console.Line :=
  let notices := o.notices.filter fun n => least.passes n.level
  let entries := notices.map Console.Entry.ofNotice ++
    (o.failure.map Console.Entry.ofFailure).toList
  (Console.joined entries).flatMap Console.Entry.lines

end SpectrumListing
