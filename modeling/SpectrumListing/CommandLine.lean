import SpectrumListing.Settings
import SpectrumListing.Text.Address
import SpectrumListing.Text.Control

/-! The command line: one input path and options in any order. After a word of two dashes there are
no more options. A value that has been given is looked at only when the next option, the input or
the end of the line makes clear that it is complete. So a word that has no meaning at all is
reported before a fault in the value in front of it. -/
namespace SpectrumListing.CommandLine

inductive Switch
  | raw | hex
deriving DecidableEq, Repr

inductive Parameter
  | output | origin | block
deriving DecidableEq, Repr

/-- The option together with a name for its value, as it is quoted. -/
def Parameter.usage : Parameter → String
  | output => "--output <OUTPUT>"
  | origin => "--org <ORG>"
  | block => "--block <BLOCK>"

/-- Why a command line leads to no run. -/
inductive Rejection
  | help
  | unknownWord
  | missingValue
  | emptyPath
  | invalidValue (parameter : Parameter) (value reason : String)
  | repeated
  | unexpectedValue
  | missingInput
deriving DecidableEq, Repr

def emphasized (text : String) : String := "\x1b[1m" ++ text ++ "\x1b[0m"

/-- The message about a value that cannot be read, as it is composed for a terminal. -/
def invalidValueMessage (parameter : Parameter) (value reason : String) : String :=
  emphasized "error:" ++ " invalid value '" ++ emphasized value ++ "' for '" ++
    emphasized parameter.usage ++ "': " ++ reason ++ "\n\nFor more information, try '" ++
    emphasized "--help" ++ "'.\n"

/-- The first line of the message, without emphasis. Control characters in a value are not shown. -/
def Rejection.headline : Rejection → String
  | help => "usage: [--output <OUTPUT>] [--org <ORG>] [--raw] [--block <BLOCK>] [--hex] <INPUT>"
  | unknownWord => "error: unexpected argument"
  | missingValue => "error: a value is required"
  | emptyPath => "error: a path is required"
  | invalidValue parameter value reason =>
    Pieces.firstLine (Control.strip .ends (invalidValueMessage parameter value reason))
  | repeated => "error: an option cannot be used multiple times"
  | unexpectedValue => "error: unexpected value"
  | missingInput => "error: the input is missing"

def Rejection.exitCode : Rejection → Nat
  | help => 0
  | _ => 2

/-- What a word of the command line is, by its form alone. It is overfull if it gives a value to an
option that takes none. -/
inductive Word
  | separator
  | switch (option : Switch)
  | parameter (option : Parameter) (value : Option String)
  | help
  | overfull
  | unknown
  | plain (text : String)
deriving DecidableEq, Repr

namespace Word

def bare (word : Word) : Option String → Word
  | none => word
  | some _ => overfull

/-- A word that starts with two dashes: the name after them, and the value after an equals sign. -/
def long (name : String) (value : Option String) : Word :=
  match name with
  | "output" => parameter .output value
  | "org" => parameter .origin value
  | "block" => parameter .block value
  | "raw" => bare (switch .raw) value
  | "hex" => bare (switch .hex) value
  | "help" => bare help value
  | _ => unknown

/-- A word that starts with one dash, by the characters after it. -/
def short : List Char → Word
  | [] => plain "-"
  | ['o'] => parameter .output none
  | 'o' :: '=' :: value => parameter .output (some (String.ofList value))
  | 'o' :: value => parameter .output (some (String.ofList value))
  | 'h' :: _ => help
  | _ => unknown

def ofString (text : String) : Word :=
  match text.toList with
  | ['-', '-'] => separator
  | '-' :: '-' :: rest =>
    let value? := match rest.dropWhile (· ≠ '=') with
      | [] => none
      | _ :: value => some (String.ofList value)
    long (String.ofList (rest.takeWhile (· ≠ '='))) value?
  | '-' :: rest => short rest
  | _ => plain text

end Word

/-- A value that is still to be looked at, or still to come. -/
inductive Pending
  | input (text : String)
  | parameter (option : Parameter) (text : Option String)
deriving DecidableEq, Repr

/-- What the words so far have settled. The input counts as given also while it is pending. -/
structure Draft where
  input : Option Path := none
  output : Option Path := none
  origin : Option UInt16 := none
  raw : Bool := false
  block : Option Nat := none
  hex : Bool := false
  pending : Option Pending := none
  inputGiven : Bool := false
  optionsEnded : Bool := false
deriving DecidableEq, Repr

namespace Draft

def blockLimit : Nat := 0xFFFFFFFFFFFFFFFF

def path (text : String) : Except Rejection Path :=
  if text.isEmpty then .error .emptyPath else .ok (Path.ofString text)

def assign (d : Draft) (option : Parameter) (text : String) : Except Rejection Draft :=
  match option with
  | .output =>
    if d.output.isSome then .error .repeated
    else return { d with output := some (← path text) }
  | .origin =>
    if d.origin.isSome then .error .repeated
    else
      match Address.parse text with
      | .ok origin => .ok { d with origin := some origin }
      | .error failure => .error (.invalidValue option text failure.message)
  | .block =>
    if d.block.isSome then .error .repeated
    else
      match Numeral.read 10 blockLimit text.toList with
      | .ok block => .ok { d with block := some block }
      | .error failure => .error (.invalidValue option text failure.message)

def settle (d : Draft) : Except Rejection Draft :=
  let settled := { d with pending := none }
  match d.pending with
  | none => .ok d
  | some (.input text) => return { settled with input := some (← path text) }
  | some (.parameter option (some text)) => settled.assign option text
  | some (.parameter _ none) => .error .missingValue

def turnOn (d : Draft) : Switch → Except Rejection Draft
  | .raw => if d.raw then .error .repeated else .ok { d with raw := true }
  | .hex => if d.hex then .error .repeated else .ok { d with hex := true }

def takeInput (d : Draft) (text : String) : Except Rejection Draft :=
  if d.inputGiven then .error .unknownWord
  else return { (← d.settle) with pending := some (.input text), inputGiven := true }

def take (d : Draft) (text : String) : Except Rejection Draft :=
  if d.optionsEnded then d.takeInput text
  else
    match Word.ofString text with
    | .separator => .ok { d with optionsEnded := true }
    | .unknown => .error .unknownWord
    | .overfull => .error .unexpectedValue
    | .help => do
      let _ ← d.settle
      throw .help
    | .switch option => do (← d.settle).turnOn option
    | .parameter option none => do
      return { (← d.settle) with pending := some (.parameter option none) }
    | .parameter option (some value) => do (← d.settle).assign option value
    | .plain text =>
      match d.pending with
      | some (.parameter option none) =>
        .ok { d with pending := some (.parameter option (some text)) }
      | _ => d.takeInput text

def finish (d : Draft) : Except Rejection Settings := do
  let d ← d.settle
  match d.input with
  | none => throw .missingInput
  | some input =>
    return { input, output := d.output, origin := d.origin.getD 0, raw := d.raw, block := d.block,
             hex := d.hex }

end Draft

def parse (words : List String) : Except Rejection Settings := do
  (← words.foldlM Draft.take {}).finish

end SpectrumListing.CommandLine
