import Mathlib
import SpectrumListing.Cursor

/-!
# Runs of a cursor

A request takes its whole width from the bytes that are left, or it fails and takes nothing. So over
any requests in any order the position only moves forward, stops at the end of the buffer, and has
moved over exactly the bytes that the answers account for.
-/
namespace SpectrumListing

/-- The byte that stands for a number in two's complement. -/
def storedByte (n : ℤ) : UInt8 := UInt8.ofNat (n % 256).toNat

theorem storedByte_signedByte (b : UInt8) : storedByte (signedByte b) = b := by
  have hlt := b.toNat_lt
  have hmod : signedByte b % 256 = b.toNat := by
    refine Int.bmod_emod.trans ?_
    omega
  rw [storedByte, hmod, Int.toNat_natCast, UInt8.ofNat_toNat]

namespace Cursor

/-- The number of bytes that a request takes when it succeeds. -/
def Request.width : Request → ℕ
  | byte | signed => 1
  | word => 2
  | consumedSince _ => 0

/-- The bytes that a read took, told from its value; a request that read nothing took none. -/
def Answer.taken : Answer → List UInt8
  | byte b => [b]
  | signed n => [storedByte n]
  | word w => [lowByte w, highByte w]
  | bytes _ | exhausted => []

/-- The cursor that requests leave behind. -/
def after (c : Cursor) (requests : List Request) : Cursor :=
  requests.foldl (fun c request => (c.perform request).2) c

theorem rest_advance (c : Cursor) (n : ℕ) : (c.advance n).rest = c.rest.drop n := by
  simp [rest, advance]

theorem advance_advance (c : Cursor) (m n : ℕ) : (c.advance m).advance n = c.advance (m + n) := by
  simp [advance, Nat.add_assoc]

/-- What one request can do. -/
theorem perform_cases (c : Cursor) (request : Request) :
    (c.remaining < request.width ∧ c.perform request = (.exhausted, c)) ∨
      (request.width ≤ c.remaining ∧ ∃ answer, answer ≠ .exhausted ∧
        answer.taken = c.rest.take request.width ∧
        c.perform request = (answer, c.advance request.width)) := by
  rw [← c.length_rest]
  cases request with
  | byte =>
    rcases hrest : c.rest with _ | ⟨b, rest⟩
    · exact .inl ⟨Nat.one_pos, by simp only [perform, readByte?, hrest]⟩
    · refine .inr ⟨Nat.le_add_left 1 _, .byte b, by simp, rfl, ?_⟩
      simp only [perform, readByte?, hrest, Request.width]
  | signed =>
    rcases hrest : c.rest with _ | ⟨b, rest⟩
    · refine .inl ⟨Nat.one_pos, ?_⟩
      simp only [perform, readSigned?, readByte?, hrest, Option.map_none]
    · refine .inr ⟨Nat.le_add_left 1 _, .signed (signedByte b), by simp, ?_, ?_⟩
      · rw [Answer.taken, storedByte_signedByte]
        rfl
      · simp only [perform, readSigned?, readByte?, hrest, Option.map_some, Request.width]
  | word =>
    rcases hrest : c.rest with _ | ⟨low, _ | ⟨high, rest⟩⟩
    · exact .inl ⟨Nat.two_pos, by simp only [perform, readWord?, hrest]⟩
    · exact .inl ⟨Nat.one_lt_two, by simp only [perform, readWord?, hrest]⟩
    · refine .inr ⟨Nat.le_add_left 2 _, .word (wordOfBytes low high), by simp, ?_, ?_⟩
      · rw [Answer.taken, lowByte_wordOfBytes, highByte_wordOfBytes]
        rfl
      · simp only [perform, readWord?, hrest, Request.width]
  | consumedSince start =>
    exact .inr ⟨Nat.zero_le _, .bytes (c.consumedSince start), by simp, rfl, rfl⟩

theorem perform_exhausted_iff (c : Cursor) (request : Request) :
    (c.perform request).1 = .exhausted ↔ c.remaining < request.width := by
  obtain ⟨hlt, hp⟩ | ⟨hle, answer, hne, -, hp⟩ := c.perform_cases request
  · simp [hp, hlt]
  · simp [hp, hne, hle]

theorem perform_of_exhausted {c : Cursor} {request : Request}
    (h : (c.perform request).1 = .exhausted) : (c.perform request).2 = c := by
  obtain ⟨-, hp⟩ | ⟨-, answer, hne, -, hp⟩ := c.perform_cases request
  · rw [hp]
  · rw [hp] at h
    exact absurd h hne

/-- A request moves the cursor over the bytes that its answer accounts for. -/
theorem perform_spec (c : Cursor) (request : Request) :
    (c.perform request).1.taken <+: c.rest ∧
      (c.perform request).2 = c.advance (c.perform request).1.taken.length := by
  obtain ⟨-, hp⟩ | ⟨hle, answer, -, htaken, hp⟩ := c.perform_cases request
  · rw [hp]
    exact ⟨List.nil_prefix, rfl⟩
  · rw [← c.length_rest] at hle
    rw [hp, htaken, List.length_take, Nat.min_eq_left hle]
    exact ⟨List.take_prefix _ _, rfl⟩

/-- The bytes that the answers of a run account for. -/
def takenBy (c : Cursor) (requests : List Request) : List UInt8 :=
  (c.run requests).flatMap fun result => result.1.taken

theorem takenBy_cons (c : Cursor) (request : Request) (requests : List Request) :
    c.takenBy (request :: requests) =
      (c.perform request).1.taken ++ (c.perform request).2.takenBy requests := rfl

theorem run_spec (c : Cursor) (requests : List Request) :
    c.takenBy requests <+: c.rest ∧ c.after requests = c.advance (c.takenBy requests).length := by
  induction requests generalizing c with
  | nil => exact ⟨List.nil_prefix, rfl⟩
  | cons request requests ih =>
    obtain ⟨hfront, hnext⟩ := c.perform_spec request
    obtain ⟨hlater, hafter⟩ := ih (c.perform request).2
    obtain ⟨rest, hrest⟩ := hfront
    constructor
    -- The later answers account for the front of what the first one leaves.
    · rw [hnext, rest_advance, ← hrest, List.drop_left] at hlater
      rw [takenBy_cons, ← hrest, hnext]
      exact (List.prefix_append_right_inj _).mpr hlater
    · change (c.perform request).2.after requests = _
      rw [hafter, takenBy_cons, List.length_append, ← advance_advance, ← hnext]

theorem run_append (c : Cursor) (before later : List Request) :
    c.run (before ++ later) = c.run before ++ (c.after before).run later := by
  induction before generalizing c with
  | nil => rfl
  | cons request before ih =>
    rw [List.cons_append, run, run, ih]
    rfl

/-- The cursors of a run are those that its parts leave behind. -/
theorem exists_after_of_mem_run {c : Cursor} {requests : List Request} {result : Answer × Cursor}
    (h : result ∈ c.run requests) : ∃ before, result.2 = c.after before := by
  induction requests generalizing c with
  | nil => cases h
  | cons request requests ih =>
    rcases List.mem_cons.mp h with rfl | h
    · exact ⟨[request], rfl⟩
    · obtain ⟨before, hbefore⟩ := ih h
      exact ⟨request :: before, hbefore⟩

theorem position_le_after (c : Cursor) (requests : List Request) :
    c.position ≤ (c.after requests).position := by
  rw [(c.run_spec requests).2]
  exact Nat.le_add_right _ _

theorem position_after_le (c : Cursor) (requests : List Request) :
    (c.after requests).position ≤ max c.position c.buffer.length := by
  obtain ⟨hfront, hafter⟩ := c.run_spec requests
  have hle := hfront.length_le
  rw [length_rest, remaining] at hle
  rw [hafter]
  change c.position + (c.takenBy requests).length ≤ max c.position c.buffer.length
  omega

theorem buffer_after (c : Cursor) (requests : List Request) :
    (c.after requests).buffer = c.buffer := by
  rw [(c.run_spec requests).2]
  rfl

theorem positions_pairwise (c : Cursor) (requests : List Request) :
    List.Pairwise (· ≤ ·) (c.position :: (c.run requests).map fun result => result.2.position) := by
  induction requests generalizing c with
  | nil => simp [run]
  | cons request requests ih =>
    refine List.pairwise_cons.mpr ⟨fun position hmem => ?_, ih (c.perform request).2⟩
    obtain ⟨result, hresult, rfl⟩ := List.mem_map.mp hmem
    obtain ⟨before, hbefore⟩ := exists_after_of_mem_run hresult
    rw [hbefore]
    exact c.position_le_after before

theorem consumedSince_advance {c : Cursor} {bytes : List UInt8} (h : bytes <+: c.rest) :
    (c.advance bytes.length).consumedSince c.position = bytes := by
  rw [consumedSince, advance, List.drop_take, Nat.add_sub_cancel_left]
  exact (List.prefix_iff_eq_take.mp h).symm

theorem consumedSince_after (c : Cursor) (requests : List Request) :
    (c.after requests).consumedSince c.position = c.takenBy requests := by
  obtain ⟨hfront, hafter⟩ := c.run_spec requests
  rw [hafter, consumedSince_advance hfront]

/-- The bytes from any place up to the position are a slice of the buffer whose bounds are in order
and within it. -/
theorem consumedSince_eq_extract (c : Cursor) (start : ℕ) :
    let stop := min c.position c.buffer.length
    min start stop ≤ stop ∧ stop ≤ c.buffer.length ∧
      c.consumedSince start = c.buffer.extract (min start stop) stop := by
  intro stop
  refine ⟨Nat.min_le_right _ _, Nat.min_le_right _ _, ?_⟩
  have htake : c.buffer.take c.position = c.buffer.take stop := by
    rw [← List.take_take, List.take_length]
  rw [consumedSince, htake, List.drop_take, List.extract_eq_take_drop]
  rcases Nat.le_total start stop with hle | hle
  · rw [Nat.min_eq_left hle]
  · simp [Nat.min_eq_right hle, Nat.sub_eq_zero_of_le hle]

/-- From any start, also one beyond the end, and for any requests: the position never decreases and
never passes both the start and the end of the buffer; a read fails exactly when too few bytes are
left for it, and then changes nothing; the bytes from the start to the position are those of the
values read, in order; and the bytes from any other place are a slice within the buffer. -/
theorem cursor_run_law (buffer : List UInt8) (start : ℕ) (requests : List Request) :
    let first : Cursor := ⟨buffer, start⟩
    let last := first.after requests
    (∀ later, first.run (requests ++ later) = first.run requests ++ last.run later) ∧
    List.Pairwise (· ≤ ·) (start :: (first.run requests).map fun result => result.2.position) ∧
    (∀ result ∈ first.run requests,
      result.2.buffer = buffer ∧ result.2.position ≤ max start buffer.length) ∧
    (∀ request, ((last.perform request).1 = .exhausted ↔ last.remaining < request.width) ∧
      ((last.perform request).1 = .exhausted → (last.perform request).2 = last)) ∧
    last.consumedSince start = (first.run requests).flatMap (fun result => result.1.taken) ∧
    ∀ place, let stop := min last.position buffer.length
      min place stop ≤ stop ∧ stop ≤ buffer.length ∧
        last.consumedSince place = buffer.extract (min place stop) stop := by
  intro first last
  have hbuffer : last.buffer = buffer := first.buffer_after requests
  refine ⟨first.run_append requests, first.positions_pairwise requests, fun result hresult => ?_,
    fun request => ⟨last.perform_exhausted_iff request, perform_of_exhausted⟩,
    first.consumedSince_after requests, fun place => ?_⟩
  · obtain ⟨before, hbefore⟩ := exists_after_of_mem_run hresult
    rw [hbefore]
    exact ⟨first.buffer_after before, first.position_after_le before⟩
  · have hslice := last.consumedSince_eq_extract place
    rwa [hbuffer] at hslice

theorem cursor_run_law_half_word :
    let first : Cursor := ⟨[0x12, 0xFE, 0x34], 1⟩
    let requests : List Request := [.signed, .word, .byte]
    (first.run requests).map Prod.fst = [.signed (-2), .exhausted, .byte 0x34] ∧
      (first.after requests).consumedSince 1 = [0xFE, 0x34] := by
  have law := cursor_run_law [0x12, 0xFE, 0x34] 1 [.signed, .word, .byte]
  exact ⟨by decide, law.2.2.2.2.1.trans (by decide)⟩

end Cursor

end SpectrumListing
