import SpectrumListing.Text.Pieces

/-! Unsigned numerals in a radix up to 36, with an upper limit, and addresses as users write them:
decimal, or hexadecimal, octal or binary behind `0x`, `0o` or `0b`, with underscores anywhere among
the digits and blanks around the whole. Digits are read from left to right, and the first that is
wrong or goes beyond the limit decides what is reported. -/
namespace SpectrumListing

namespace Numeral

inductive Failure
  | empty
  | invalidDigit
  | tooLarge
deriving DecidableEq, Repr

def Failure.message : Failure → String
  | empty => "cannot parse integer from empty string"
  | invalidDigit => "invalid digit found in string"
  | tooLarge => "number too large to fit in target type"

/-- The value of a digit; letters in either case follow the ten figures. -/
def digit? (radix : Nat) (c : Char) : Option Nat :=
  let value? :=
    if '0' ≤ c ∧ c ≤ '9' then some (c.toNat - '0'.toNat)
    else if 'a' ≤ c ∧ c ≤ 'z' then some (c.toNat - 'a'.toNat + 10)
    else if 'A' ≤ c ∧ c ≤ 'Z' then some (c.toNat - 'A'.toNat + 10)
    else none
  value?.filter (· < radix)

/-- Reads the remaining digits of a numeral of which `value` has been read. -/
def readDigits (radix limit : Nat) : Nat → List Char → Except Failure Nat
  | value, [] => .ok value
  | value, c :: cs =>
    match digit? radix c with
    | none => .error .invalidDigit
    | some d =>
      if limit < value * radix + d then .error .tooLarge
      else readDigits radix limit (value * radix + d) cs

/-- Reads a numeral; a plus sign may stand before the digits. -/
def read (radix limit : Nat) : List Char → Except Failure Nat
  | [] => .error .empty
  | '+' :: cs => if cs.isEmpty then .error .invalidDigit else readDigits radix limit 0 cs
  | cs => readDigits radix limit 0 cs

end Numeral

namespace Address

/-- A text that is no address, without the blanks around it, and the reason. -/
structure Failure where
  text : String
  cause : Numeral.Failure
deriving DecidableEq, Repr

def Failure.message (f : Failure) : String :=
  "invalid address '" ++ f.text ++ "' (must be 0-65535): " ++ f.cause.message

/-- The radix that a text announces, and the text after the announcement. -/
def radix (text : List Char) : Nat × List Char :=
  match text with
  | '0' :: mark :: rest =>
    if mark = 'x' ∨ mark = 'X' then (16, rest)
    else if mark = 'o' ∨ mark = 'O' then (8, rest)
    else if mark = 'b' ∨ mark = 'B' then (2, rest)
    else (10, text)
  | _ => (10, text)

def parse (text : String) : Except Failure UInt16 :=
  let trimmed := trim text.toList
  let (radix, body) := radix trimmed
  match Numeral.read radix 65535 (body.filter (· ≠ '_')) with
  | .ok n => .ok (UInt16.ofNat n)
  | .error cause => .error ⟨String.ofList trimmed, cause⟩

end Address

end SpectrumListing
