import SpectrumListing.Cursor
import SpectrumListing.Z80.Instruction
import SpectrumListing.Z80.Opcode

/-! Decoding the instruction at the front of the input. The opcode bytes select a pattern, and the
pattern reads its operands from the bytes after them. -/
namespace SpectrumListing.Z80

/-- What the bytes at the front of the input select, with the number of opcode bytes. They may be ED
and an opcode without meaning, or the input may end among them. -/
inductive Selection
  | pattern (width : Nat) (p : Pattern)
  | undefined (opcode : UInt8)
  | incomplete (width : Nat)
deriving DecidableEq, Repr

namespace Selection

def behindBits : List UInt8 → Selection
  | [] => incomplete 1
  | opcode :: _ => pattern 2 (Pattern.ofStatement (Statement.bits opcode))

def behindExtended : List UInt8 → Selection
  | [] => incomplete 1
  | opcode :: _ =>
    match Pattern.extended? opcode with
    | some p => pattern 2 p
    | none => undefined opcode

/-- Behind an index prefix and CB the displacement comes before the opcode. -/
def behindIndexBits (i : IndexRegister) : List UInt8 → Selection
  | [] => incomplete 2
  | [_] => incomplete 3
  | d :: opcode :: _ => pattern 4 (Pattern.ofStatement (Statement.indexedBits i d opcode))

def behindIndex (i : IndexRegister) : List UInt8 → Selection
  | [] => incomplete 1
  | opcode :: rest =>
    if opcode = Prefix.bits.byte then behindIndexBits i rest
    else pattern 2 ((Pattern.plain opcode).indexed i)

def ofBytes : List UInt8 → Selection
  | [] => incomplete 0
  | opcode :: rest =>
    match Prefix.ofByte? opcode with
    | none => pattern 1 (Pattern.plain opcode)
    | some .bits => behindBits rest
    | some .extended => behindExtended rest
    | some (.index i) => behindIndex i rest

def width : Selection → Nat
  | pattern width _ => width
  | undefined _ => 2
  | incomplete width => width

theorem width_ofBytes_pos (b : UInt8) (rest : List UInt8) : 0 < (ofBytes (b :: rest)).width := by
  unfold ofBytes
  split <;> rename_i e <;> cases e
  split
  · simp [width]
  · cases rest <;> simp [behindBits, width]
  · cases rest with
    | nil => simp [behindExtended, width]
    | cons opcode rest =>
      simp only [behindExtended]
      split <;> simp [width]
  · rcases rest with _ | ⟨opcode, rest⟩
    · simp [behindIndex, width]
    · simp only [behindIndex]
      split
      · rcases rest with _ | ⟨d, _ | ⟨last, rest⟩⟩ <;> simp [behindIndexBits, width]
      · simp [width]

end Selection

/-- The instruction at the front of the input, whose first byte stands at `address`. -/
def decode (address : UInt16) (input : List UInt8) : Instruction :=
  if input.isEmpty then ⟨address, [], .finished⟩
  else
    match Selection.ofBytes input with
    | .incomplete width => ⟨address, input.take width, .truncated⟩
    | .undefined opcode => ⟨address, input.take 2, .undefined opcode⟩
    | .pattern width p =>
      match p.read (address + UInt16.ofNat width) (input.drop width) with
      | .ok (s, taken) => ⟨address, input.take (width + taken), .statement s⟩
      | .error taken => ⟨address, input.take (width + taken), .truncated⟩

/-- The instruction at an offset of a buffer that is loaded at `base`, and the offset after it. -/
def decodeAt (buffer : List UInt8) (offset : Nat) (base : UInt16) : Instruction × Nat :=
  let i := decode (base + UInt16.ofNat offset) (Cursor.mk buffer offset).rest
  (i, offset + i.size)

theorem decode_nil (address : UInt16) : decode address [] = ⟨address, [], .finished⟩ := rfl

/-- Something is taken from an input that is not empty. -/
theorem size_decode_pos (address : UInt16) (b : UInt8) (rest : List UInt8) :
    0 < (decode address (b :: rest)).size := by
  have h := Selection.width_ofBytes_pos b rest
  unfold decode
  cases hs : Selection.ofBytes (b :: rest) with
  | incomplete width =>
    simp only [hs, Selection.width] at h
    simp only [Instruction.size, List.isEmpty_cons, Bool.false_eq_true, ↓reduceIte,
      List.length_take, List.length_cons]
    omega
  | undefined opcode => simp [Instruction.size]
  | pattern width p =>
    simp only [hs, Selection.width] at h
    simp only [List.isEmpty_cons, Bool.false_eq_true, ↓reduceIte]
    cases p.read (address + UInt16.ofNat width) ((b :: rest).drop width) <;>
      simp only [Instruction.size, List.length_take, List.length_cons] <;> omega

end SpectrumListing.Z80
