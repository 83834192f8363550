import SpectrumListing.Unfold
import SpectrumListing.Z80.Decode

/-! Linear sweeps: decoding a buffer from its start to its end, one instruction after the other. -/
namespace SpectrumListing.Z80

/-- The bytes that are still to be decoded, and the address of the first of them. -/
structure Sweep where
  address : UInt16
  bytes : List UInt8
deriving DecidableEq, Repr

namespace Sweep

def next? (s : Sweep) : Option (Instruction × Sweep) :=
  if s.bytes.isEmpty then none
  else
    let i := decode s.address s.bytes
    some (i, ⟨s.address + UInt16.ofNat i.size, s.bytes.drop i.size⟩)

theorem length_lt_of_next? {s t : Sweep} {i : Instruction} (h : s.next? = some (i, t)) :
    t.bytes.length < s.bytes.length := by
  obtain ⟨address, _ | ⟨b, rest⟩⟩ := s
  · simp [next?] at h
  · have pos := size_decode_pos address b rest
    simp only [next?, List.isEmpty_cons, Bool.false_eq_true, ↓reduceIte, Option.some.injEq,
      Prod.mk.injEq] at h
    obtain ⟨rfl, rfl⟩ := h
    simp only [List.length_drop, List.length_cons]
    omega

def source : Unfold Sweep Instruction where
  step := next?
  size s := s.bytes.length
  size_lt := length_lt_of_next?

/-- Every instruction from here to the end. -/
def toList (s : Sweep) : List Instruction := source.toList s

/-- The sweep after its last instruction. -/
def atEnd (s : Sweep) : Sweep := source.last s

/-- Skips `n` instructions and takes the next one, if there are so many. -/
def nth? : Nat → Sweep → Option Instruction × Sweep
  | 0, s =>
    match s.next? with
    | none => (none, s)
    | some (i, t) => (some i, t)
  | n + 1, s =>
    match s.next? with
    | none => (none, s)
    | some (_, t) => t.nth? n

/-- Bounds on the number of instructions left, by the number of bytes left: an instruction has from
one to four. -/
def bounds (s : Sweep) : Nat × Nat := ((s.bytes.length + 3) / 4, s.bytes.length)

inductive Request
  | next
  | nth (n : Nat)
  | collect
  | count
  | last
  | bounds
deriving DecidableEq, Repr

inductive Answer
  | instruction (i : Option Instruction)
  | instructions (is : List Instruction)
  | number (n : Nat)
  | bounds (least most : Nat)
deriving DecidableEq, Repr

/-- The answer to a request, and the sweep after it. Counting and looking at the last instruction
leave the sweep where it is. -/
def perform (s : Sweep) : Request → Answer × Sweep
  | .next =>
    match s.next? with
    | none => (.instruction none, s)
    | some (i, t) => (.instruction (some i), t)
  | .nth n =>
    let result := s.nth? n
    (.instruction result.1, result.2)
  | .collect => (.instructions s.toList, s.atEnd)
  | .count => (.number s.toList.length, s)
  | .last => (.instruction s.toList.getLast?, s)
  | .bounds => (.bounds s.bounds.1 s.bounds.2, s)

/-- The instructions that a request decodes on the way to its answer. -/
def visited (s : Sweep) : Request → List Instruction
  | .next => (s.next?.map Prod.fst).toList
  | .nth n => s.toList.take (n + 1)
  | .collect | .count | .last => s.toList
  | .bounds => []

/-- The answers to requests made in turn, with the notices that arise. -/
def run (s : Sweep) : List Request → List Answer × List Notice
  | [] => ([], [])
  | request :: requests =>
    let result := s.perform request
    let later := result.2.run requests
    (result.1 :: later.1, (s.visited request).flatMap Instruction.notices ++ later.2)

end Sweep

/-- Every instruction of a buffer that is loaded at `base`. -/
def decodeBlock (buffer : List UInt8) (base : UInt16) : List Instruction :=
  (Sweep.mk base buffer).toList

end SpectrumListing.Z80
