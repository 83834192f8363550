import Mathlib
import SpectrumListing.Proofs.OperandReading
import SpectrumListing.Z80.Decode

/-!
# Opcode selection

The relation `Selects` says which opcode bytes stand for which pattern, one rule for each table, and
`Unfinished` lists the inputs that end among the opcode bytes. Together with the undefined pairs
they describe the front of every input.
-/
namespace SpectrumListing.Z80

theorem IndexRegister.ofPrefixByte?_eq_some {b : UInt8} {i : IndexRegister}
    (h : ofPrefixByte? b = some i) : b = i.prefixByte := by
  unfold ofPrefixByte? at h
  split_ifs at h with hx hy <;> cases h
  · exact hx
  · exact hy

theorem Prefix.ofByte?_eq_some {b : UInt8} {p : Prefix} (h : ofByte? b = some p) :
    b = p.byte := by
  unfold ofByte? at h
  split_ifs at h with hb he
  · cases h
    exact hb
  · cases h
    exact he
  · obtain ⟨i, hi, rfl⟩ := Option.map_eq_some_iff.mp h
    exact IndexRegister.ofPrefixByte?_eq_some hi

/-- The opcode bytes that select a pattern. -/
inductive Selects : List UInt8 → Pattern → Prop
  | plain {op : UInt8} (h : Prefix.ofByte? op = none) : Selects [op] (Pattern.plain op)
  | bits (op : UInt8) : Selects [Prefix.bits.byte, op] (Pattern.ofStatement (Statement.bits op))
  | extended {op : UInt8} {p : Pattern} (h : Pattern.extended? op = some p) :
      Selects [Prefix.extended.byte, op] p
  | index (i : IndexRegister) {op : UInt8} (h : op ≠ Prefix.bits.byte) :
      Selects [i.prefixByte, op] ((Pattern.plain op).indexed i)
  | indexBits (i : IndexRegister) (d op : UInt8) :
      Selects [i.prefixByte, Prefix.bits.byte, d, op]
        (Pattern.ofStatement (Statement.indexedBits i d op))

/-- The inputs that end before they select anything. -/
inductive Unfinished : List UInt8 → Prop
  | nil : Unfinished []
  | lead (p : Prefix) : Unfinished [p.byte]
  | bits (i : IndexRegister) : Unfinished [i.prefixByte, Prefix.bits.byte]
  | displacement (i : IndexRegister) (d : UInt8) :
      Unfinished [i.prefixByte, Prefix.bits.byte, d]

namespace Selection

theorem ofBytes_none {op : UInt8} (h : Prefix.ofByte? op = none) (rest : List UInt8) :
    ofBytes (op :: rest) = pattern 1 (Pattern.plain op) := by
  simp only [ofBytes, h]

theorem ofBytes_bits (rest : List UInt8) :
    ofBytes (Prefix.bits.byte :: rest) = behindBits rest := by
  simp only [ofBytes, Prefix.ofByte?_byte]

theorem ofBytes_extended (rest : List UInt8) :
    ofBytes (Prefix.extended.byte :: rest) = behindExtended rest := by
  simp only [ofBytes, Prefix.ofByte?_byte]

theorem ofBytes_index (i : IndexRegister) (rest : List UInt8) :
    ofBytes (i.prefixByte :: rest) = behindIndex i rest := by
  change ofBytes ((Prefix.index i).byte :: rest) = behindIndex i rest
  simp only [ofBytes, Prefix.ofByte?_byte]

theorem ofBytes_of_selects {opcode : List UInt8} {p : Pattern} (h : Selects opcode p)
    (rest : List UInt8) : ofBytes (opcode ++ rest) = pattern opcode.length p := by
  cases h with
  | plain h => exact ofBytes_none h rest
  | bits op => exact ofBytes_bits (op :: rest)
  | extended h =>
    refine (ofBytes_extended (_ :: rest)).trans ?_
    simp [behindExtended, h]
  | index i h =>
    refine (ofBytes_index i (_ :: rest)).trans ?_
    simp [behindIndex, h]
  | indexBits i d op =>
    refine (ofBytes_index i (Prefix.bits.byte :: d :: op :: rest)).trans ?_
    simp [behindIndex, behindIndexBits]

theorem ofBytes_undefined {op : UInt8} (h : Pattern.extended? op = none) (rest : List UInt8) :
    ofBytes (Prefix.extended.byte :: op :: rest) = undefined op := by
  rw [ofBytes_extended, behindExtended, h]

theorem ofBytes_of_unfinished {input : List UInt8} (h : Unfinished input) :
    ofBytes input = incomplete input.length := by
  cases h with
  | nil => rfl
  | lead p =>
    cases p with
    | bits => exact ofBytes_bits []
    | extended => exact ofBytes_extended []
    | index i => exact ofBytes_index i []
  | bits i =>
    rw [ofBytes_index, behindIndex, if_pos rfl]
    rfl
  | displacement i d =>
    rw [ofBytes_index, behindIndex, if_pos rfl]
    rfl

end Selection

/-- Every input starts with a selecting opcode or an undefined pair, or ends too early. -/
theorem selects_or_undefined_or_unfinished (input : List UInt8) :
    (∃ opcode p rest, Selects opcode p ∧ input = opcode ++ rest) ∨
      (∃ op rest, Pattern.extended? op = none ∧ input = Prefix.extended.byte :: op :: rest) ∨
      Unfinished input := by
  rcases input with _ | ⟨b, rest⟩
  · exact .inr (.inr .nil)
  cases hb : Prefix.ofByte? b with
  | none => exact .inl ⟨[b], _, rest, .plain hb, rfl⟩
  | some lead =>
    rw [Prefix.ofByte?_eq_some hb]
    rcases rest with _ | ⟨op, rest⟩
    · exact .inr (.inr (.lead lead))
    cases lead with
    | bits => exact .inl ⟨_, _, rest, .bits op, rfl⟩
    | extended =>
      cases hp : Pattern.extended? op with
      | some p => exact .inl ⟨_, p, rest, .extended hp, rfl⟩
      | none => exact .inr (.inl ⟨op, rest, hp, rfl⟩)
    | index i =>
      by_cases ho : op = Prefix.bits.byte
      · subst ho
        rcases rest with _ | ⟨d, _ | ⟨op, rest⟩⟩
        · exact .inr (.inr (.bits i))
        · exact .inr (.inr (.displacement i d))
        · exact .inl ⟨_, _, rest, .indexBits i d op, rfl⟩
      · exact .inl ⟨_, _, rest, .index i ho, rfl⟩

instance : Fintype IndexRegister := ⟨{.ix, .iy}, fun i => by cases i <;> simp⟩

theorem Pattern.width_le (op : UInt8) :
    (plain op).width ≤ 2 ∧ (∀ i, ((plain op).indexed i).width ≤ 2) ∧
      ∀ p ∈ extended? op, p.width ≤ 2 := by
  revert op
  decide +kernel

/-- Opcode bytes and operands make at most four bytes. -/
theorem Selects.length_add_width_le {opcode : List UInt8} {p : Pattern} (h : Selects opcode p) :
    opcode.length + p.width ≤ 4 := by
  cases h with
  | @plain op _ =>
    have := (Pattern.width_le op).1
    simp only [List.length_cons, List.length_nil]
    omega
  | bits op => simp
  | @extended op p h =>
    have := (Pattern.width_le op).2.2 p h
    simp only [List.length_cons, List.length_nil]
    omega
  | @index i op _ =>
    have := (Pattern.width_le op).2.1 i
    simp only [List.length_cons, List.length_nil]
    omega
  | indexBits i d op => simp

theorem Selects.length_pos {opcode : List UInt8} {p : Pattern} (h : Selects opcode p) :
    0 < opcode.length := by
  cases h <;> simp

theorem Unfinished.length_le {input : List UInt8} (h : Unfinished input) : input.length ≤ 3 := by
  cases h <;> simp

end SpectrumListing.Z80
