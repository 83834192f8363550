import SpectrumListing.Path

/-! Trees of files and directories, and how paths are followed in them. -/
namespace SpectrumListing

/-- Why a file cannot be read or written. -/
inductive FileFailure
  | notFound
  | notDirectory
  | isDirectory
  | tooLong
  | other (text : String)
deriving DecidableEq, Repr

def FileFailure.message : FileFailure → String
  | notFound => "No such file or directory (os error 2)"
  | notDirectory => "Not a directory (os error 20)"
  | isDirectory => "Is a directory (os error 21)"
  | tooLong => "File name too long (os error 36)"
  | other text => text

inductive Node
  | file (content : List UInt8)
  | directory
deriving DecidableEq, Repr

/-- The names that lead from the root to a node. -/
abbrev Location := List String

/-- The nodes by their location, the first of equal locations counting, and the directory where
relative paths start. The root is always there. -/
structure FileSystem where
  workingDirectory : Location
  nodes : List (Location × Node)
deriving DecidableEq, Repr

namespace FileSystem

def node? (fs : FileSystem) (place : Location) : Option Node :=
  if place.isEmpty then some .directory else fs.nodes.lookup place

def put (fs : FileSystem) (place : Location) (node : Node) : FileSystem :=
  { fs with nodes := (place, node) :: fs.nodes.filter (·.1 ≠ place) }

/-- The longest name that a directory can hold, in bytes. -/
def nameLimit : Nat := 255

/-- Names can only be looked up in a directory. -/
def requireDirectory (fs : FileSystem) (place : Location) : Except FileFailure Unit :=
  match fs.node? place with
  | none => .error .notFound
  | some (.file _) => .error .notDirectory
  | some .directory => .ok ()

/-- Follows one segment from a place, which has to be a directory. -/
def follow (fs : FileSystem) (place : Location) (segment : String) :
    Except FileFailure Location := do
  fs.requireDirectory place
  if Path.isSilent segment then return place
  else if segment = ".." then return place.dropLast
  else if nameLimit < segment.utf8ByteSize then throw .tooLong
  else return place ++ [segment]

def start (fs : FileSystem) (path : Path) : Location :=
  if path.isAbsolute then [] else fs.workingDirectory

/-- The place a path leads to; nothing need be there. -/
def locate (fs : FileSystem) (path : Path) : Except FileFailure Location :=
  if path.isEmpty then .error .notFound
  else if path.isTooLong then .error .tooLong
  else path.segments.foldlM fs.follow (fs.start path)

def read (fs : FileSystem) (path : Path) : Except FileFailure (List UInt8) := do
  match fs.node? (← fs.locate path) with
  | none => throw .notFound
  | some .directory => throw .isDirectory
  | some (.file content) => return content

/-- The place of a file that is to be written. A name with a slash after it can only be that of a
directory. -/
def locateOutput (fs : FileSystem) (path : Path) : Except FileFailure Location :=
  if path.isEmpty then .error .notFound
  else if path.isTooLong then .error .tooLong
  else do
    let segments := (path.segments.reverse.dropWhile String.isEmpty).reverse
    match segments.getLast? with
    | none => throw .isDirectory
    | some last =>
      let parent ← segments.dropLast.foldlM fs.follow (fs.start path)
      fs.requireDirectory parent
      if segments.length < path.segments.length then throw .isDirectory
      let place ← fs.follow parent last
      if fs.node? place = some .directory then throw .isDirectory
      return place

def write (fs : FileSystem) (path : Path) (content : List UInt8) :
    Except FileFailure FileSystem := do
  return fs.put (← fs.locateOutput path) (.file content)

/-- The place a path names when its segments are taken literally. -/
def place (fs : FileSystem) (path : Path) : Location :=
  path.segments.foldl (fun place segment =>
    if Path.isSilent segment then place
    else if segment = ".." then place.dropLast
    else place ++ [segment]) (fs.start path)

/-- Makes a directory, and those above it, where there is nothing yet. -/
def makeDirectory (fs : FileSystem) (place : Location) : FileSystem :=
  (List.range (place.length + 1)).foldl (fun fs count =>
    let above := place.take count
    if (fs.node? above).isSome then fs else fs.put above .directory) fs

/-- Puts a file in its place, together with the directories above it. -/
def makeFile (fs : FileSystem) (place : Location) (content : List UInt8) : FileSystem :=
  (fs.makeDirectory place.dropLast).put place (.file content)

/-- A tree with nothing but a working directory. -/
def empty (workingDirectory : Location) : FileSystem :=
  makeDirectory ⟨workingDirectory, []⟩ workingDirectory

/-- The files below the working directory that another state of the tree has not, or has with other
content; each with its path from the working directory. -/
def filesSince (old fs : FileSystem) : List (Path × List UInt8) :=
  fs.nodes.filterMap fun (place, node) =>
    match node with
    | .directory => none
    | .file content =>
      if fs.workingDirectory.isPrefixOf place ∧ old.node? place ≠ some (.file content) then
        some (⟨place.drop fs.workingDirectory.length⟩, content)
      else none

end FileSystem

end SpectrumListing
