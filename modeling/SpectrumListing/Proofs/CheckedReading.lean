import Mathlib
import SpectrumListing.Proofs.CursorRun
import SpectrumListing.Proofs.OperandReading

/-!
# Reading on machine words

`Cursor` and `Slot` count in natural numbers, where every step has a result. A `Reader` has a 64-bit
position instead, and a step that has no result on words is a `Fault`. Reading from a buffer of
fewer than 2^63 bytes never faults, wherever the reader stands, and does what the unbounded reading
does.
-/
namespace SpectrumListing

/-- What can go wrong in computing with words: a result outside the range of its word, an index
beyond the end of a table, the bounds of a slice, or a value that no case is made for. -/
inductive Fault
  | overflow
  | index
  | slice
  | unreachable
deriving DecidableEq, Repr

namespace Checked

def add (a b : UInt64) : Except Fault UInt64 :=
  if a.toNat + b.toNat < 2 ^ 64 then .ok (a + b) else .error .overflow

def slice (bytes : List UInt8) (first last : UInt64) : Except Fault (List UInt8) :=
  if first.toNat ≤ last.toNat ∧ last.toNat ≤ bytes.length then
    .ok (bytes.extract first.toNat last.toNat)
  else .error .slice

/-- A 64-bit position in a buffer, or beyond its end. -/
structure Reader where
  buffer : List UInt8
  position : UInt64
  length_lt : buffer.length < 2 ^ 63

namespace Reader

def cursor (r : Reader) : Cursor := ⟨r.buffer, r.position.toNat⟩

def length (r : Reader) : UInt64 := UInt64.ofNat r.buffer.length

/-- The number of bytes left, which is zero beyond the end. -/
def remaining (r : Reader) : UInt64 := if r.position ≤ r.length then r.length - r.position else 0

def consumedSince (r : Reader) (start : UInt64) : Except Fault (List UInt8) :=
  let stop := min r.position r.length
  slice r.buffer (min start stop) stop

/-- The address of the next byte, in a buffer that is loaded at `base`. -/
def address (r : Reader) (base : UInt16) : UInt16 := base + r.position.toUInt16

def advance (r : Reader) (n : ℕ) : Reader := { r with position := r.position + UInt64.ofNat n }

theorem toNat_length (r : Reader) : r.length.toNat = r.buffer.length := by
  have hlt := r.length_lt
  rw [length, UInt64.toNat_ofNat', Nat.mod_eq_of_lt (by omega)]

theorem toNat_remaining (r : Reader) : r.remaining.toNat = r.cursor.rest.length := by
  have hlength := r.toNat_length
  have hle : r.position ≤ r.length ↔ r.position.toNat ≤ r.length.toNat := UInt64.le_iff_toNat_le
  rw [Cursor.length_rest, remaining]
  change _ = r.buffer.length - r.position.toNat
  split_ifs with h
  · rw [UInt64.toNat_sub_of_le _ _ h, hlength]
  · rw [hle] at h
    simp only [UInt64.toNat_zero]
    omega

theorem toNat_min (a b : UInt64) : (min a b).toNat = min a.toNat b.toNat := by
  change (if a ≤ b then a else b).toNat = min a.toNat b.toNat
  split_ifs with h
  · rw [UInt64.le_iff_toNat_le] at h
    omega
  · rw [UInt64.le_iff_toNat_le] at h
    omega

theorem consumedSince_eq (r : Reader) (start : UInt64) :
    r.consumedSince start = .ok (r.cursor.consumedSince start.toNat) := by
  obtain ⟨hfirst, hlast, hslice⟩ := r.cursor.consumedSince_eq_extract start.toNat
  have hstop : (min r.position r.length).toNat = min r.position.toNat r.buffer.length := by
    rw [toNat_min, r.toNat_length]
  rw [consumedSince, slice, toNat_min, hstop, hslice]
  exact if_pos ⟨hfirst, hlast⟩

@[simp] theorem advance_zero (r : Reader) : r.advance 0 = r := by
  simp [advance]

@[simp] theorem advance_advance (r : Reader) (m n : ℕ) :
    (r.advance m).advance n = r.advance (m + n) := by
  simp [advance, UInt64.add_assoc]

/-- As far as there are bytes, advancing stays within 64 bits. -/
theorem toNat_position_advance {r : Reader} {n : ℕ} (h : n ≤ r.cursor.rest.length) :
    (r.advance n).position.toNat = r.position.toNat + n := by
  have hlt := r.length_lt
  have hposition := r.position.toNat_lt
  rw [Cursor.length_rest] at h
  change n ≤ r.buffer.length - r.position.toNat at h
  change (r.position + UInt64.ofNat n).toNat = r.position.toNat + n
  rw [UInt64.toNat_add, UInt64.toNat_ofNat']
  -- Within the buffer the sum stays below 2^63, and beyond its end `n` is zero.
  omega

theorem cursor_advance {r : Reader} {n : ℕ} (h : n ≤ r.cursor.rest.length) :
    (r.advance n).cursor = r.cursor.advance n := by
  rw [cursor, toNat_position_advance h]
  rfl

theorem rest_advance {r : Reader} {n : ℕ} (h : n ≤ r.cursor.rest.length) :
    (r.advance n).cursor.rest = r.cursor.rest.drop n := by
  rw [cursor_advance h, Cursor.rest_advance]

theorem rest_advance_one {r : Reader} {b : UInt8} {rest : List UInt8}
    (h : r.cursor.rest = b :: rest) : (r.advance 1).cursor.rest = rest := by
  rw [rest_advance (by simp [h]), h, List.drop_one, List.tail_cons]

theorem address_advance (r : Reader) (base : UInt16) (n : ℕ) :
    (r.advance n).address base = r.address base + UInt16.ofNat n := by
  simp [address, advance, UInt16.add_assoc]

theorem address_eq (r : Reader) (base : UInt16) :
    r.address base = base + UInt16.ofNat r.position.toNat := by
  simp [address]

end Reader

/-- A computation that moves a reader. It may find the input exhausted, which leaves the reader
where it got to, and it may fault. -/
abbrev Step (α : Type) := OptionT (StateT Reader (Except Fault)) α

namespace Step

variable {α β : Type}

/-- The computation with a given result for each reader. -/
def of (f : Reader → Except Fault (Option α × Reader)) : Step α := OptionT.mk f

def exec (m : Step α) (r : Reader) : Except Fault (Option α × Reader) := (OptionT.run m).run r

@[simp] theorem exec_of (f : Reader → Except Fault (Option α × Reader)) (r : Reader) :
    (of f).exec r = f r := rfl

@[simp] theorem exec_pure (a : α) (r : Reader) : exec (pure a) r = .ok (some a, r) := rfl

theorem exec_bind (m : Step α) (f : α → Step β) (r : Reader) :
    exec (m >>= f) r = (m.exec r).bind fun
      | (some a, next) => (f a).exec next
      | (none, next) => .ok (none, next) := by
  refine congrArg (Except.bind (m.exec r)) (funext fun result => ?_)
  obtain ⟨_ | a, next⟩ := result <;> rfl

theorem exec_bind_some {m : Step α} {a : α} {r next : Reader} (h : m.exec r = .ok (some a, next))
    (f : α → Step β) : exec (m >>= f) r = (f a).exec next := by
  rw [exec_bind, h]
  rfl

theorem exec_bind_none {m : Step α} {r next : Reader} (h : m.exec r = .ok (none, next))
    (f : α → Step β) : exec (m >>= f) r = .ok (none, next) := by
  rw [exec_bind, h]
  rfl

theorem exec_lift_bind {x : Except Fault α} {a : α} (h : x = .ok a) (f : α → Step β) (r : Reader) :
    exec (liftM x >>= f) r = (f a).exec r := by
  subst h
  rfl

end Step

/-- The next byte. -/
def readByte : Step UInt8 := .of fun r =>
  match r.buffer[r.position.toNat]? with
  | none => .ok (none, r)
  | some b => do
    let next ← add r.position 1
    return (some b, { r with position := next })

/-- Both bytes of a word, or none of them. -/
def readWord : Step UInt16 := .of fun r =>
  if r.remaining < 2 then .ok (none, r)
  else Step.exec (return wordOfBytes (← readByte) (← readByte)) r

theorem getElem?_position (r : Reader) : r.buffer[r.position.toNat]? = r.cursor.rest.head? := by
  rw [Cursor.rest, List.head?_drop]
  rfl

theorem exec_readByte_of_nil {r : Reader} (h : r.cursor.rest = []) :
    readByte.exec r = .ok (none, r) := by
  have hget : r.buffer[r.position.toNat]? = none := by rw [getElem?_position, h, List.head?_nil]
  simp only [readByte, Step.exec_of, hget]

theorem exec_readByte_of_cons {r : Reader} {b : UInt8} {rest : List UInt8}
    (h : r.cursor.rest = b :: rest) : readByte.exec r = .ok (some b, r.advance 1) := by
  have hget : r.buffer[r.position.toNat]? = some b := by rw [getElem?_position, h, List.head?_cons]
  have hnext : (r.advance 1).position.toNat = r.position.toNat + 1 :=
    Reader.toNat_position_advance (by simp [h])
  have hlt : r.position.toNat + (1 : UInt64).toNat < 2 ^ 64 := by
    rw [UInt64.toNat_one, ← hnext]
    exact (r.advance 1).position.toNat_lt
  simp only [readByte, Step.exec_of, hget, add, if_pos hlt]
  rfl

theorem exec_readWord_of_cons {r : Reader} {low high : UInt8} {rest : List UInt8}
    (h : r.cursor.rest = low :: high :: rest) :
    readWord.exec r = .ok (some (wordOfBytes low high), r.advance 2) := by
  have hlength : ¬ r.remaining < 2 := by
    rw [UInt64.lt_iff_toNat_lt, r.toNat_remaining, h]
    simp
  have hrest := Reader.rest_advance_one h
  rw [readWord, Step.exec_of, if_neg hlength, Step.exec_bind_some (exec_readByte_of_cons h),
    Step.exec_bind_some (exec_readByte_of_cons hrest), Step.exec_pure, Reader.advance_advance]

theorem exec_readWord_of_lt {r : Reader} (h : r.cursor.rest.length < 2) :
    readWord.exec r = .ok (none, r) := by
  have hlength : r.remaining < 2 := by
    rw [UInt64.lt_iff_toNat_lt, r.toNat_remaining]
    exact h
  rw [readWord, Step.exec_of, if_pos hlength]

open Z80

/-- The operand of a slot, in a buffer that is loaded at `base`. -/
def readSlot (base : UInt16) : Slot → Step Operand
  | .fixed o => return o
  | .byte => return .byte (← readByte)
  | .device => return .device (← readByte)
  | .displaced i => return .displaced i (← readByte)
  | .relative => do
    let d ← readByte
    .of fun r => .ok (some (.word (r.address base + signExtend d)), r)
  | .word => return .word (← readWord)
  | .address => return .address (← readWord)

def readSlots (base : UInt16) : List Slot → Step (List Operand)
  | [] => return []
  | s :: slots => do
    let o ← readSlot base s
    return o :: (← readSlots base slots)

theorem exec_readSlot_some {base : UInt16} {s : Slot} {r : Reader} {o : Operand}
    (h : s.read? (r.address base) r.cursor.rest = some o) :
    (readSlot base s).exec r = .ok (some o, r.advance s.width) := by
  cases s with
  | fixed o =>
    cases h
    rw [readSlot, Step.exec_pure, Slot.width, Reader.advance_zero]
  | word | address =>
    rcases hrest : r.cursor.rest with _ | ⟨low, _ | ⟨high, rest⟩⟩ <;> rw [hrest] at h <;> cases h
    exact Step.exec_bind_some (exec_readWord_of_cons hrest) _
  | byte | device | displaced i =>
    rcases hrest : r.cursor.rest with _ | ⟨b, rest⟩ <;> rw [hrest] at h <;> cases h
    exact Step.exec_bind_some (exec_readByte_of_cons hrest) _
  | relative =>
    rcases hrest : r.cursor.rest with _ | ⟨d, rest⟩ <;> rw [hrest] at h <;> cases h
    rw [readSlot, Step.exec_bind_some (exec_readByte_of_cons hrest), Step.exec_of,
      Reader.address_advance]
    rfl

theorem exec_readSlot_none {base : UInt16} {s : Slot} {r : Reader}
    (h : s.read? (r.address base) r.cursor.rest = none) :
    (readSlot base s).exec r = .ok (none, r) := by
  have hlt := Slot.read?_eq_none_iff.mp h
  cases s with
  | fixed o => cases h
  | word | address => exact Step.exec_bind_none (exec_readWord_of_lt hlt) _
  | byte | device | relative | displaced _ =>
    have hnil : r.cursor.rest = [] := List.length_eq_zero_iff.mp (Nat.lt_one_iff.mp hlt)
    exact Step.exec_bind_none (exec_readByte_of_nil hnil) _

/-- What a reading that takes so many bytes leaves of a reader. -/
def Reader.after {α : Type} (r : Reader) : Except ℕ (α × ℕ) → Option α × Reader
  | .ok (a, taken) => (some a, r.advance taken)
  | .error taken => (none, r.advance taken)

theorem exec_readSlots (base : UInt16) (slots : List Slot) (r : Reader) :
    (readSlots base slots).exec r =
      .ok (r.after (Slot.readAll (r.address base) slots r.cursor.rest)) := by
  induction slots generalizing r with
  | nil => simp [readSlots, Slot.readAll, Reader.after]
  | cons s slots ih =>
    rw [Slot.readAll, readSlots]
    cases ho : s.read? (r.address base) r.cursor.rest with
    | none =>
      rw [Step.exec_bind_none (exec_readSlot_none ho), Reader.after, Reader.advance_zero]
    | some o =>
      have hrest := Reader.rest_advance (Slot.width_le_of_read? ho)
      have tail := ih (r.advance s.width)
      rw [hrest, Reader.address_advance] at tail
      rw [Step.exec_bind_some (exec_readSlot_some ho)]
      cases hr : Slot.readAll (r.address base + UInt16.ofNat s.width) slots
          (r.cursor.rest.drop s.width) with
      | error taken =>
        rw [hr, Reader.after, Reader.advance_advance] at tail
        exact Step.exec_bind_none tail _
      | ok result =>
        obtain ⟨operands, taken⟩ := result
        rw [hr, Reader.after, Reader.advance_advance] at tail
        exact Step.exec_bind_some tail _

def readPattern (base : UInt16) (p : Pattern) : Step Statement :=
  return ⟨p.operation, ← readSlots base p.slots⟩

/-- A pattern is read without a fault, as it is read from the list of bytes. -/
theorem exec_readPattern (base : UInt16) (p : Pattern) (r : Reader) :
    (readPattern base p).exec r = .ok (r.after (p.read (r.address base) r.cursor.rest)) := by
  have hslots := exec_readSlots base p.slots r
  rw [Pattern.read]
  cases hr : Slot.readAll (r.address base) p.slots r.cursor.rest with
  | error taken =>
    rw [hr] at hslots
    exact Step.exec_bind_none hslots _
  | ok result =>
    rw [hr] at hslots
    exact Step.exec_bind_some hslots _

end Checked

end SpectrumListing
