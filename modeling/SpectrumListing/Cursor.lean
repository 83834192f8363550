import SpectrumListing.Word

/-! A position in a buffer of bytes. Reading moves it forward; a read for which too few bytes are
left changes nothing. The position may also lie beyond the end, where nothing can be read. -/
namespace SpectrumListing

structure Cursor where
  buffer : List UInt8
  position : Nat
deriving DecidableEq, Repr

namespace Cursor

/-- The bytes that are still to be read. -/
def rest (c : Cursor) : List UInt8 := c.buffer.drop c.position

def remaining (c : Cursor) : Nat := c.buffer.length - c.position

def isExhausted (c : Cursor) : Bool := c.remaining == 0

def advance (c : Cursor) (count : Nat) : Cursor := { c with position := c.position + count }

def readByte? (c : Cursor) : Option (UInt8 × Cursor) :=
  match c.rest with
  | b :: _ => some (b, c.advance 1)
  | [] => none

def readSigned? (c : Cursor) : Option (Int × Cursor) :=
  c.readByte?.map fun (b, next) => (signedByte b, next)

/-- A little-endian word. -/
def readWord? (c : Cursor) : Option (UInt16 × Cursor) :=
  match c.rest with
  | low :: high :: _ => some (wordOfBytes low high, c.advance 2)
  | _ => none

/-- The bytes from `start` up to the position. -/
def consumedSince (c : Cursor) (start : Nat) : List UInt8 := (c.buffer.take c.position).drop start

theorem length_rest (c : Cursor) : c.rest.length = c.remaining := by
  simp [rest, remaining]

inductive Request
  | byte
  | signed
  | word
  | consumedSince (start : Nat)
deriving DecidableEq, Repr

inductive Answer
  | byte (value : UInt8)
  | signed (value : Int)
  | word (value : UInt16)
  | bytes (value : List UInt8)
  | exhausted
deriving DecidableEq, Repr

/-- The answer to a request, and the cursor after it. -/
def perform (c : Cursor) : Request → Answer × Cursor
  | .byte =>
    match c.readByte? with
    | some (b, next) => (.byte b, next)
    | none => (.exhausted, c)
  | .signed =>
    match c.readSigned? with
    | some (n, next) => (.signed n, next)
    | none => (.exhausted, c)
  | .word =>
    match c.readWord? with
    | some (w, next) => (.word w, next)
    | none => (.exhausted, c)
  | .consumedSince start => (.bytes (c.consumedSince start), c)

/-- Performs requests in turn, keeping the cursor after each. -/
def run (c : Cursor) : List Request → List (Answer × Cursor)
  | [] => []
  | request :: requests =>
    let result := c.perform request
    result :: result.2.run requests

end Cursor

end SpectrumListing
