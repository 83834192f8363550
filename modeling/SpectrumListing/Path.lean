import SpectrumListing.Text.Pieces

/-! File paths: texts that slashes divide into segments. Empty segments and single dots say nothing,
except that an empty first segment stands for the root and a first dot for the current directory. A
path is a Unicode text throughout. A path in a file system may consist of any bytes but zero; where
they are not valid UTF-8 it has no text of this kind and lies outside of what is said here. -/
namespace SpectrumListing

/-- The segments of a path, of which there is at least one. -/
structure Path where
  segments : List String
deriving DecidableEq, Repr

namespace Path

def ofString (text : String) : Path :=
  ⟨(Pieces.split '/' text.toList).map String.ofList⟩

def text (p : Path) : String := "/".intercalate p.segments

def isAbsolute (p : Path) : Bool :=
  match p.segments with
  | first :: _ :: _ => first.isEmpty
  | _ => false

def isEmpty (p : Path) : Bool := p.segments == [""]

/-- The longest path that can be followed, in bytes. -/
def sizeLimit : Nat := 4095

def isTooLong (p : Path) : Bool := sizeLimit < p.text.utf8ByteSize

def isSilent (segment : String) : Bool := segment == "" || segment == "."

inductive Component
  | root
  | current
  | parent
  | name (text : String)
deriving DecidableEq, Repr

def components (p : Path) : List Component :=
  let start :=
    if p.isAbsolute then [.root]
    else if p.segments.head? = some "." then [.current]
    else []
  let rest := (p.segments.filter (!isSilent ·)).map fun segment =>
    if segment = ".." then .parent else .name segment
  start ++ rest

/-- Drops the segments at the end that say nothing. -/
def dropSilent (segments : List String) : List String :=
  (segments.reverse.dropWhile isSilent).reverse

/-- The last component, if it is a name. -/
def fileName? (p : Path) : Option String :=
  match (dropSilent p.segments).getLast? with
  | some last => if last = ".." then none else some last
  | none => none

def directory (p : Path) : Path :=
  match dropSilent (dropSilent p.segments).dropLast with
  | [] =>
    if p.isAbsolute then ⟨["", ""]⟩
    else if p.segments.head? = some "." then ⟨["."]⟩
    else ⟨[""]⟩
  | segments => ⟨segments⟩

/-- Continues a path with another; one that starts at the root stands alone. -/
def join (p q : Path) : Path :=
  if q.isAbsolute then q
  else if p.segments.getLast? = some "" then ⟨p.segments.dropLast ++ q.segments⟩
  else ⟨p.segments ++ q.segments⟩

/-- Puts another name in the place of the last component, or after it if it is no name. -/
def withFileName (p : Path) (name : String) : Path :=
  if p.fileName?.isSome then p.directory.join (ofString name) else p.join (ofString name)

/-- The parts of a name before and after its last dot. A dot in front of the whole name divides
nothing. -/
def splitName (name : String) : String × Option String :=
  let reversed := name.toList.reverse
  let stem := ((reversed.dropWhile (· ≠ '.')).drop 1).reverse
  if stem.isEmpty then (name, none)
  else (String.ofList stem, some (String.ofList (reversed.takeWhile (· ≠ '.')).reverse))

def fileStem? (p : Path) : Option String := p.fileName?.map fun name => (splitName name).1

def extension? (p : Path) : Option String := p.fileName?.bind fun name => (splitName name).2

/-- The name under which a file is presented: the last component, or else the whole path. -/
def displayName (p : Path) : String := p.fileName?.getD p.text

/-- Where the listing of a file goes by default: beside the file. -/
def listingPath (p : Path) : Path := p.withFileName (p.fileStem?.getD p.text ++ "_disasm.txt")

end Path

end SpectrumListing
