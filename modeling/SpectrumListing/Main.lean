import SpectrumListing.CommandLine
import SpectrumListing.Console

/-! The program on the command line. -/
namespace SpectrumListing

/-- Whether the machine's code for a failure is the given one; it may come with either sign. -/
def isCode (code expected : UInt32) : Bool := code = expected ∨ code = 0 - expected

/-- The cause behind a failure that the machine reports. -/
def FileFailure.ofError : IO.Error → FileFailure
  | .noFileOrDirectory .. => .notFound
  | .inappropriateType _ code _ => if isCode code 21 then .isDirectory else .notDirectory
  | e@(.invalidArgument _ code _) => if isCode code 36 then .tooLong else .other (toString e)
  | e => .other (toString e)

/-- The files of the machine. -/
def machineFiles : FileAccess IO where
  read path := do
    try
      return .ok (← IO.FS.readBinFile path.text).toList
    catch e => return .error (FileFailure.ofError e)
  write path text := do
    try
      IO.FS.writeFile path.text text
      return .ok ()
    catch e => return .error (FileFailure.ofError e)

end SpectrumListing

open SpectrumListing in
def main (words : List String) : IO UInt32 := do
  match CommandLine.parse words with
  | .error rejection =>
    IO.eprintln rejection.headline
    return UInt32.ofNat rejection.exitCode
  | .ok settings =>
    let outcome ← run machineFiles settings
    for line in outcome.console .info do IO.eprintln line.text
    return UInt32.ofNat outcome.exitCode
