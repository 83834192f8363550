import Mathlib
import SpectrumListing.Proofs.Partition

/-!
# Decoding a buffer in parts

Instructions that are not cut off by the end of a buffer stay the same when more bytes follow, and
decoding resumes behind them as at the start of a buffer. An instruction that is cut off leaves at
most one byte behind it, so there are at most two of them, at the very end.
-/
namespace SpectrumListing.Z80

namespace Swept

variable {base : UInt16} {buffer : List UInt8} {i : Instruction}

theorem append_of_front {front back : List Instruction} (h : Swept base buffer (front ++ back))
    (hf : ∀ i ∈ front, i.isTruncated = false) (more : List UInt8) :
    decodeBlock (buffer ++ more) base =
      front ++ decodeBlock ((buffer ++ more).drop (front.flatMap Instruction.bytes).length)
        (base + UInt16.ofNat (front.flatMap Instruction.bytes).length) := by
  induction front generalizing base buffer with
  | nil =>
    change _ = decodeBlock (buffer ++ more) (base + 0)
    rw [UInt16.add_zero]
  | cons i front ih =>
    rw [List.cons_append] at h
    cases h with
    | @cons _ rest _ _ head ne tail =>
      have hr : i.reading ≠ .truncated := by
        intro he
        have := head.isTruncated_iff.mpr he
        rw [hf i (by simp)] at this
        cases this
      have hd : Decoded base (i.bytes ++ (rest ++ more)) i := by
        rw [← List.append_assoc]
        exact head.append hr (by simp [ne]) more
      have hrest := ih tail (fun j hj => hf j (by simp [hj]))
      rw [List.append_assoc, decodeBlock_of_ne_nil (by simp [ne]), hd.decode_eq, Instruction.size,
        List.drop_left, ← Instruction.size, hrest]
      simp only [List.flatMap_cons, List.length_append, UInt16.ofNat_add, Instruction.size,
        List.drop_length_add_append, List.cons_append, UInt16.add_assoc]

theorem of_length_le_one {is : List Instruction} (h : Swept base buffer is)
    (hlen : buffer.length ≤ 1) : is.length ≤ 1 ∧ ∀ j ∈ is, j.size = 1 := by
  cases h with
  | nil _ => simp
  | @cons _ rest i is head ne tail =>
    have hpos := List.length_pos_iff.mpr ne
    rw [List.length_append] at hlen
    have hrest : rest = [] := List.length_eq_zero_iff.mp (by omega)
    subst hrest
    rw [tail.eq_decodeBlock, decodeBlock_nil]
    simp only [List.length_cons, List.length_nil, List.mem_singleton, forall_eq, Instruction.size]
    omega

/-- Behind an instruction that is cut off comes at most one more, of one byte. -/
theorem of_isTruncated {front back : List Instruction} (h : Swept base buffer (front ++ i :: back))
    (ht : i.isTruncated = true) : back.length ≤ 1 ∧ ∀ j ∈ back, j.size = 1 := by
  induction front generalizing base buffer with
  | nil =>
    cases h with
    | cons head _ tail =>
      have hlen := head.length_le_of_truncated (head.isTruncated_iff.mp ht)
      rw [List.length_append, Instruction.size] at hlen
      exact tail.of_length_le_one (by omega)
  | cons _ _ ih =>
    cases h with
    | cons _ _ tail => exact ih tail

theorem isTruncated_of_mem_take {is : List Instruction} (h : Swept base buffer is)
    (hi : i ∈ is.take (is.length - 2)) : i.isTruncated = false := by
  by_contra ht
  rw [Bool.not_eq_false] at ht
  obtain ⟨front, back, hsplit⟩ := List.append_of_mem hi
  have his : is = front ++ i :: (back ++ is.drop (is.length - 2)) := by
    rw [← List.cons_append, ← List.append_assoc, ← hsplit, List.take_append_drop]
  have hlen := congrArg List.length hsplit
  rw [his] at h
  have hback := (h.of_isTruncated ht).1
  simp only [List.length_take, List.length_append, List.length_cons, List.length_drop] at hlen hback
  omega

theorem countP_isTruncated_le {is : List Instruction} (h : Swept base buffer is) :
    is.countP Instruction.isTruncated ≤ 2 := by
  have hfront : (is.take (is.length - 2)).countP Instruction.isTruncated = 0 := by
    rw [List.countP_eq_zero]
    intro i hi
    rw [h.isTruncated_of_mem_take hi]
    exact Bool.false_ne_true
  have hback : (is.drop (is.length - 2)).countP Instruction.isTruncated ≤ 2 := by
    refine List.countP_le_length.trans ?_
    rw [List.length_drop]
    omega
  rw [← List.take_append_drop (is.length - 2) is, List.countP_append, hfront]
  omega

end Swept

/-- The instructions of a buffer before the first that is cut off. -/
def intactPart (buffer : List UInt8) (base : UInt16) : List Instruction :=
  (decodeBlock buffer base).takeWhile fun i => !i.isTruncated

/-- The number of bytes they consist of. -/
def intactLength (buffer : List UInt8) (base : UInt16) : ℕ :=
  ((intactPart buffer base).flatMap Instruction.bytes).length

theorem swept_intactPart (buffer : List UInt8) (base : UInt16) :
    Swept base buffer (intactPart buffer base ++
      (decodeBlock buffer base).dropWhile fun i => !i.isTruncated) := by
  rw [intactPart, List.takeWhile_append_dropWhile]
  exact swept_decodeBlock buffer base

theorem flatMap_bytes_intactPart (buffer : List UInt8) (base : UInt16) :
    (intactPart buffer base).flatMap Instruction.bytes =
      buffer.take (intactLength buffer base) := by
  have hbytes := (swept_intactPart buffer base).flatMap_bytes
  rw [List.flatMap_append] at hbytes
  exact List.prefix_iff_eq_take.mp ⟨_, hbytes⟩

/-- The instructions of a buffer before the first that is cut off also start any longer buffer, and
behind them the longer buffer decodes as a buffer of its own. -/
theorem decodeBlock_append (a b : List UInt8) (base : UInt16) :
    (intactPart a base).flatMap Instruction.bytes = a.take (intactLength a base) ∧
    decodeBlock (a ++ b) base = intactPart a base ++
      decodeBlock ((a ++ b).drop (intactLength a base))
        (base + UInt16.ofNat (intactLength a base)) ∧
    ((∀ i ∈ decodeBlock a base, i.isTruncated = false) →
      decodeBlock (a ++ b) base =
        decodeBlock a base ++ decodeBlock b (base + UInt16.ofNat a.length)) ∧
    (decodeBlock a base).countP Instruction.isTruncated ≤ 2 ∧
    (∀ i ∈ (decodeBlock a base).take ((decodeBlock a base).length - 2), i.isTruncated = false) ∧
    ∀ front i j, decodeBlock a base = front ++ [i, j] → i.isTruncated = true → j.size = 1 := by
  have swept := swept_decodeBlock a base
  refine ⟨flatMap_bytes_intactPart a base, ?_, fun hall => ?_, swept.countP_isTruncated_le,
    fun i hi => swept.isTruncated_of_mem_take hi, fun front i j he ht => ?_⟩
  · refine (swept_intactPart a base).append_of_front (fun i hi => ?_) b
    simpa using List.mem_takeWhile_imp hi
  · have hwhole : Swept base a (decodeBlock a base ++ []) := by rwa [List.append_nil]
    have happend := hwhole.append_of_front hall b
    rwa [swept.flatMap_bytes, List.drop_left] at happend
  · rw [he] at swept
    exact (swept.of_isTruncated ht).2 j (by simp)

end SpectrumListing.Z80
