import Mathlib
import SpectrumListing.Z80.Pattern

/-!
# Reading operands

How many bytes a pattern takes from its input, and on which of them the outcome depends. A pattern
that is read completely takes exactly its width and looks at nothing after it; one that runs out
leaves at most one byte, the first half of a word.
-/
namespace SpectrumListing.Z80

namespace Slot

theorem read?_eq_none_iff {here : UInt16} {s : Slot} {input : List UInt8} :
    s.read? here input = none ↔ input.length < s.width := by
  cases s <;> rcases input with _ | ⟨a, _ | ⟨b, rest⟩⟩ <;> simp [read?, width]

theorem width_le_of_read? {here : UInt16} {s : Slot} {input : List UInt8} {o : Operand}
    (h : s.read? here input = some o) : s.width ≤ input.length := by
  by_contra hlt
  rw [read?_eq_none_iff.mpr (by omega)] at h
  cases h

theorem read?_append {here : UInt16} {s : Slot} {input : List UInt8} {o : Operand}
    (h : s.read? here input = some o) (more : List UInt8) :
    s.read? here (input ++ more) = some o := by
  cases s <;> rcases input with _ | ⟨a, _ | ⟨b, rest⟩⟩ <;> simp_all [read?]

theorem width_le_two (s : Slot) : s.width ≤ 2 := by
  cases s <;> simp [width]

theorem readAll_cons_ok {here : UInt16} {s : Slot} {slots : List Slot} {input : List UInt8}
    {operands : List Operand} {taken : ℕ}
    (h : readAll here (s :: slots) input = .ok (operands, taken)) :
    ∃ o os n, s.read? here input = some o ∧
      readAll (here + UInt16.ofNat s.width) slots (input.drop s.width) = .ok (os, n) ∧
      operands = o :: os ∧ taken = s.width + n := by
  rw [readAll] at h
  split at h
  · cases h
  · next o ho =>
    split at h
    · cases h
    · next os n hr =>
      cases h
      exact ⟨o, os, n, ho, hr, rfl, rfl⟩

theorem readAll_cons_error {here : UInt16} {s : Slot} {slots : List Slot} {input : List UInt8}
    {taken : ℕ} (h : readAll here (s :: slots) input = .error taken) :
    (s.read? here input = none ∧ taken = 0) ∨
      ∃ o n, s.read? here input = some o ∧
        readAll (here + UInt16.ofNat s.width) slots (input.drop s.width) = .error n ∧
        taken = s.width + n := by
  rw [readAll] at h
  split at h
  · next ho =>
    cases h
    exact .inl ⟨ho, rfl⟩
  · next o ho =>
    split at h
    · next n hr =>
      cases h
      exact .inr ⟨o, n, ho, hr, rfl⟩
    · cases h

theorem readAll_ok_taken {here : UInt16} {slots : List Slot} {input : List UInt8}
    {operands : List Operand} {taken : ℕ}
    (h : readAll here slots input = .ok (operands, taken)) :
    taken = (slots.map width).sum ∧ taken ≤ input.length := by
  induction slots generalizing here input operands taken with
  | nil =>
    cases h
    simp
  | cons s slots ih =>
    obtain ⟨o, os, n, ho, hr, rfl, rfl⟩ := readAll_cons_ok h
    have hw := width_le_of_read? ho
    obtain ⟨hn, hle⟩ := ih hr
    rw [List.length_drop] at hle
    simp only [List.map_cons, List.sum_cons]
    omega

theorem readAll_append {here : UInt16} {slots : List Slot} {input : List UInt8}
    {r : List Operand × ℕ} (h : readAll here slots input = .ok r) (more : List UInt8) :
    readAll here slots (input ++ more) = .ok r := by
  induction slots generalizing here input r with
  | nil => exact h
  | cons s slots ih =>
    obtain ⟨operands, taken⟩ := r
    obtain ⟨o, os, n, ho, hr, rfl, rfl⟩ := readAll_cons_ok h
    have hdrop : (input ++ more).drop s.width = input.drop s.width ++ more :=
      List.drop_append_of_le_length (width_le_of_read? ho)
    simp only [readAll, read?_append ho, hdrop, ih hr]

/-- A read that fails has looked at every byte but, possibly, the last. -/
theorem readAll_error_taken {here : UInt16} {slots : List Slot} {input : List UInt8}
    {taken : ℕ} (h : readAll here slots input = .error taken) :
    taken < (slots.map width).sum ∧ taken ≤ input.length ∧ input.length ≤ taken + 1 := by
  induction slots generalizing here input taken with
  | nil => cases h
  | cons s slots ih =>
    simp only [List.map_cons, List.sum_cons]
    obtain ⟨ho, rfl⟩ | ⟨o, n, ho, hr, rfl⟩ := readAll_cons_error h
    · have hlt := read?_eq_none_iff.mp ho
      have hw := width_le_two s
      omega
    · have hw := width_le_of_read? ho
      have hn := ih hr
      rw [List.length_drop] at hn
      omega

end Slot

namespace Pattern

/-- The number of bytes the operands occupy in the input. -/
def width (p : Pattern) : ℕ := (p.slots.map Slot.width).sum

theorem readAll_of_read_ok {here : UInt16} {p : Pattern} {input : List UInt8} {s : Statement}
    {taken : ℕ} (h : p.read here input = .ok (s, taken)) :
    ∃ os, Slot.readAll here p.slots input = .ok (os, taken) ∧ s = ⟨p.operation, os⟩ := by
  unfold read at h
  cases hr : Slot.readAll here p.slots input with
  | error n => simp [hr, Except.map] at h
  | ok r =>
    obtain ⟨os, n⟩ := r
    simp only [hr, Except.map, Except.ok.injEq, Prod.mk.injEq] at h
    obtain ⟨rfl, rfl⟩ := h
    exact ⟨os, rfl, rfl⟩

theorem read_of_readAll {here : UInt16} {p : Pattern} {input : List UInt8}
    {operands : List Operand} {taken : ℕ}
    (h : Slot.readAll here p.slots input = .ok (operands, taken)) :
    p.read here input = .ok (⟨p.operation, operands⟩, taken) := by
  rw [read, h]
  rfl

theorem readAll_of_read_error {here : UInt16} {p : Pattern} {input : List UInt8} {taken : ℕ}
    (h : p.read here input = .error taken) :
    Slot.readAll here p.slots input = .error taken := by
  unfold read at h
  cases hr : Slot.readAll here p.slots input with
  | error n => simpa [hr, Except.map] using h
  | ok r => simp [hr, Except.map] at h

theorem read_ok_taken {here : UInt16} {p : Pattern} {input : List UInt8} {s : Statement}
    {taken : ℕ} (h : p.read here input = .ok (s, taken)) :
    taken = p.width ∧ taken ≤ input.length := by
  obtain ⟨os, hr, -⟩ := readAll_of_read_ok h
  exact Slot.readAll_ok_taken hr

theorem read_error_taken {here : UInt16} {p : Pattern} {input : List UInt8} {taken : ℕ}
    (h : p.read here input = .error taken) :
    taken < p.width ∧ taken ≤ input.length ∧ input.length ≤ taken + 1 :=
  Slot.readAll_error_taken (readAll_of_read_error h)

theorem read_append {here : UInt16} {p : Pattern} {input : List UInt8} {r : Statement × ℕ}
    (h : p.read here input = .ok r) (more : List UInt8) :
    p.read here (input ++ more) = .ok r := by
  obtain ⟨os, hr, he⟩ := readAll_of_read_ok h
  unfold read
  rw [Slot.readAll_append hr]
  simp [Except.map, ← he]

theorem readAll_fixed (here : UInt16) (os : List Operand) (input : List UInt8) :
    Slot.readAll here (os.map Slot.fixed) input = .ok (os, 0) := by
  induction os generalizing here with
  | nil => rfl
  | cons o os ih => simp [Slot.readAll, Slot.read?, Slot.width, ih]

/-- A pattern without open operands takes nothing. -/
theorem read_ofStatement (here : UInt16) (s : Statement) (input : List UInt8) :
    (ofStatement s).read here input = .ok (s, 0) := by
  simp [read, ofStatement, readAll_fixed, Except.map]

@[simp] theorem width_ofStatement (s : Statement) : (ofStatement s).width = 0 := by
  simp [width, ofStatement, Slot.width, Function.comp_def]

end Pattern

end SpectrumListing.Z80
