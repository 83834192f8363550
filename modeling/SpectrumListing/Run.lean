import SpectrumListing.FileSystem
import SpectrumListing.Settings

/-! A run of the program: the input is read as a whole, its listing is made, and the output is
written as a whole. Files are reached through `FileAccess`, so that a run can be had on a tree of
files as well as on the machine. -/
namespace SpectrumListing

structure FileAccess (m : Type → Type) where
  read : Path → m (Except FileFailure (List UInt8))
  write : Path → String → m (Except FileFailure Unit)

/-- The files of a tree that is passed along. -/
def FileSystem.access : FileAccess (StateM FileSystem) where
  read path := do return (← get).read path
  write path text := do
    match (← get).write path text.toUTF8.toList with
    | .ok fs => do
      set fs
      return .ok ()
    | .error failure => return .error failure

/-- Why a run fails. -/
inductive RunFailure
  | input (path : Path) (cause : FileFailure)
  | tape (path : Path) (cause : FileFailure)
  | output (path : Path) (cause : FileFailure)
deriving DecidableEq, Repr

namespace RunFailure

def cause : RunFailure → FileFailure
  | input _ cause | tape _ cause | output _ cause => cause

def message : RunFailure → String
  | input path _ => "Failed to read input file '" ++ path.text ++ "'"
  | tape path cause => "Error opening TAP file '" ++ path.text ++ "': " ++ cause.message
  | output path _ => "Failed to write output file '" ++ path.text ++ "'"

/-- The lines that tell the user. -/
def report (f : RunFailure) : List String :=
  ["Error: " ++ f.message, "", "Caused by:", "    " ++ f.cause.message]

end RunFailure

/-- How a run ended, and what it reported on the way. -/
structure Outcome where
  notices : List Notice
  failure : Option RunFailure
deriving DecidableEq, Repr

def Outcome.exitCode (o : Outcome) : Nat := if o.failure.isSome then 1 else 0

/-- Makes the listing that the settings ask for. -/
def run {m : Type → Type} [Monad m] (files : FileAccess m) (s : Settings) : m Outcome := do
  match ← files.read s.input with
  | .error cause =>
    let failure := if s.isTape then RunFailure.tape s.input cause else .input s.input cause
    return ⟨s.openingNotices, some failure⟩
  | .ok content =>
    let lines := s.listing content
    let notices := s.openingNotices ++ s.listingNotices content
    match ← files.write s.outputPath (Listing.render lines) with
    | .error cause => return ⟨notices, some (.output s.outputPath cause)⟩
    | .ok () =>
      return ⟨notices ++ [.listingWritten s.outputPath.text lines.length], none⟩

end SpectrumListing
