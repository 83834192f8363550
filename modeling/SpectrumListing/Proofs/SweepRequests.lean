import Mathlib
import SpectrumListing.Proofs.Partition

/-!
# A sweep answers like the list of its instructions

`Follows` says how an iterator over a list answers requests: it stands at some place of the list,
and each answer is read off the part of the list behind that place. Whatever is asked of a sweep,
and in whatever order, it answers as such an iterator over the instructions of its buffer. Only the
bounds on the number of instructions left are not fixed by the list; they enclose that number
because every instruction has one to four bytes.
-/
namespace SpectrumListing.Z80

namespace Swept

variable {base : UInt16} {buffer : List UInt8} {is : List Instruction}

theorem length_le (h : Swept base buffer is) : is.length ≤ buffer.length := by
  induction h with
  | nil _ => exact Nat.le_refl 0
  | cons _ ne _ ih =>
    have hpos := List.length_pos_iff.mpr ne
    rw [List.length_cons, List.length_append]
    omega

theorem length_buffer_le (h : Swept base buffer is) : buffer.length ≤ 4 * is.length := by
  induction h with
  | nil _ => exact Nat.le_refl 0
  | @cons _ _ i _ head _ _ ih =>
    have hsize : i.bytes.length ≤ 4 := head.size_le_four
    rw [List.length_cons, List.length_append]
    omega

end Swept

namespace Sweep

/-- The answers to requests by an iterator that stands at place `k` of a list. Asking for the next
instruction or a later one moves it behind that instruction, and asking for all that is left moves
it to the end. -/
inductive Follows (all : List Instruction) : ℕ → List Request → List Answer → Prop
  | nil (k : ℕ) : Follows all k [] []
  | next {k : ℕ} {requests : List Request} {answers : List Answer}
      (later : Follows all (k + 1) requests answers) :
      Follows all k (.next :: requests) (.instruction (all.drop k).head? :: answers)
  | nth {k n : ℕ} {requests : List Request} {answers : List Answer}
      (later : Follows all (k + n + 1) requests answers) :
      Follows all k (.nth n :: requests) (.instruction (all.drop k)[n]? :: answers)
  | collect {k : ℕ} {requests : List Request} {answers : List Answer}
      (later : Follows all all.length requests answers) :
      Follows all k (.collect :: requests) (.instructions (all.drop k) :: answers)
  | count {k : ℕ} {requests : List Request} {answers : List Answer}
      (later : Follows all k requests answers) :
      Follows all k (.count :: requests) (.number (all.drop k).length :: answers)
  | last {k : ℕ} {requests : List Request} {answers : List Answer}
      (later : Follows all k requests answers) :
      Follows all k (.last :: requests) (.instruction (all.drop k).getLast? :: answers)
  | bounds {k least most : ℕ} {requests : List Request} {answers : List Answer}
      (least_le : least ≤ (all.drop k).length) (le_most : (all.drop k).length ≤ most)
      (later : Follows all k requests answers) :
      Follows all k (.bounds :: requests) (.bounds least most :: answers)

/-- At the end of the list there is nothing more to be had. -/
theorem Follows.instruction_notMem {all : List Instruction} {k : ℕ} {requests : List Request}
    {answers : List Answer} (h : Follows all k requests answers) (hk : all.length ≤ k)
    (i : Instruction) : .instruction (some i) ∉ answers := by
  have hdrop {j : ℕ} (hj : all.length ≤ j) : all.drop j = [] := List.drop_of_length_le hj
  induction h with
  | nil _ => exact List.not_mem_nil
  | next _ ih => simpa [hdrop hk] using ih (by omega)
  | nth _ ih => simpa [hdrop hk] using ih (by omega)
  | collect _ ih => simpa using ih (Nat.le_refl _)
  | count _ ih => simpa using ih hk
  | last _ ih => simpa [hdrop hk] using ih hk
  | bounds _ _ _ ih => simpa using ih hk

/-- The sweep that requests leave behind. -/
def after (s : Sweep) (requests : List Request) : Sweep :=
  requests.foldl (fun s request => (s.perform request).2) s

theorem next?_of_toList_nil {s : Sweep} (h : s.toList = []) : s.next? = none := by
  cases hn : s.next? with
  | none => rfl
  | some r =>
    have hs : source.step s = some (r.1, r.2) := hn
    rw [toList, Unfold.toList_of_some hs] at h
    cases h

theorem next?_of_toList_cons {s : Sweep} {i : Instruction} {is : List Instruction}
    (h : s.toList = i :: is) : ∃ t, s.next? = some (i, t) ∧ t.toList = is := by
  cases hn : s.next? with
  | none =>
    have hs : source.step s = none := hn
    rw [toList, Unfold.toList_of_none hs] at h
    cases h
  | some r =>
    obtain ⟨j, t⟩ := r
    have hs : source.step s = some (j, t) := hn
    rw [toList, Unfold.toList_of_some hs, List.cons.injEq] at h
    obtain ⟨rfl, htail⟩ := h
    exact ⟨t, rfl, htail⟩

theorem nth?_eq (n : ℕ) (s : Sweep) :
    (s.nth? n).1 = s.toList[n]? ∧ (s.nth? n).2.toList = s.toList.drop (n + 1) := by
  induction n generalizing s with
  | zero =>
    rcases hl : s.toList with _ | ⟨i, is⟩
    · simp [nth?, next?_of_toList_nil hl, hl]
    · obtain ⟨t, hn, ht⟩ := next?_of_toList_cons hl
      simp [nth?, hn, ht]
  | succ n ih =>
    rcases hl : s.toList with _ | ⟨i, is⟩
    · simp [nth?, next?_of_toList_nil hl, hl]
    · obtain ⟨t, hn, ht⟩ := next?_of_toList_cons hl
      have hnth : s.nth? (n + 1) = t.nth? n := by rw [nth?, hn]
      simp [hnth, ih t, ht]

theorem bounds_enclose (s : Sweep) :
    s.bounds.1 ≤ s.toList.length ∧ s.toList.length ≤ s.bounds.2 := by
  have swept := swept_decodeBlock s.bytes s.address
  have hle : s.toList.length ≤ s.bytes.length := swept.length_le
  have hge : s.bytes.length ≤ 4 * s.toList.length := swept.length_buffer_le
  constructor
  · change (s.bytes.length + 3) / 4 ≤ s.toList.length
    omega
  · exact hle

variable {all : List Instruction}

/-- Where one request leaves a sweep that stands for the list behind place `k`, and that its answer
can precede whatever follows from there. -/
theorem perform_follows {s : Sweep} {k : ℕ} (h : s.toList = all.drop k) (request : Request) :
    ∃ k', (s.perform request).2.toList = all.drop k' ∧
      ∀ requests answers, Follows all k' requests answers →
        Follows all k (request :: requests) ((s.perform request).1 :: answers) := by
  cases request with
  | next =>
    have hzero : s.perform .next = s.perform (.nth 0) := by
      rw [perform, perform, nth?]
      cases s.next? <;> rfl
    obtain ⟨hanswer, hrest⟩ := nth?_eq 0 s
    refine ⟨k + 1, ?_, fun requests answers later => ?_⟩
    · rw [hzero, perform, hrest, h, List.drop_drop]
    · rw [hzero, perform, hanswer, h, ← List.head?_eq_getElem?]
      exact .next later
  | nth n =>
    obtain ⟨hanswer, hrest⟩ := nth?_eq n s
    refine ⟨k + n + 1, ?_, fun requests answers later => ?_⟩
    · rw [perform, hrest, h, List.drop_drop, Nat.add_assoc]
    · rw [perform, hanswer, h]
      exact .nth later
  | collect =>
    refine ⟨all.length, ?_, fun requests answers later => ?_⟩
    · rw [List.drop_length]
      exact source.toList_last s
    · rw [perform, h]
      exact .collect later
  | count =>
    refine ⟨k, h, fun requests answers later => ?_⟩
    rw [perform, h]
    exact .count later
  | last =>
    refine ⟨k, h, fun requests answers later => ?_⟩
    rw [perform, h]
    exact .last later
  | bounds =>
    obtain ⟨hleast, hmost⟩ := s.bounds_enclose
    rw [h] at hleast hmost
    exact ⟨k, h, fun requests answers later => .bounds hleast hmost later⟩

theorem run_follows {s : Sweep} {k : ℕ} (h : s.toList = all.drop k) (requests : List Request) :
    Follows all k requests (s.run requests).1 := by
  induction requests generalizing s k with
  | nil => exact .nil k
  | cons request requests ih =>
    obtain ⟨k', hstate, hfollows⟩ := perform_follows h request
    exact hfollows _ _ (ih hstate)

theorem toList_after {s : Sweep} {k : ℕ} (h : s.toList = all.drop k) (requests : List Request) :
    ∃ k', (s.after requests).toList = all.drop k' := by
  induction requests generalizing s k with
  | nil => exact ⟨k, h⟩
  | cons request requests ih =>
    obtain ⟨k', hstate, -⟩ := perform_follows h request
    exact ih hstate

theorem run_append (s : Sweep) (before later : List Request) :
    (s.run (before ++ later)).1 = (s.run before).1 ++ ((s.after before).run later).1 := by
  induction before generalizing s with
  | nil => rfl
  | cons request before ih =>
    have hrest := ih (s.perform request).2
    rw [List.cons_append, run, run, hrest]
    rfl

end Sweep

/-- All answers of a sweep are those of an iterator that starts at the front of the instructions of
its buffer. After any requests the sweep stands for the instructions behind some place, and it
answers further requests from there; once nothing is left, it yields no more instructions. -/
theorem sweep_follows_decodeBlock (buffer : List UInt8) (base : UInt16)
    (before later : List Sweep.Request) :
    let all := decodeBlock buffer base
    let start := Sweep.mk base buffer
    Sweep.Follows all 0 (before ++ later) (start.run (before ++ later)).1 ∧
    (start.run (before ++ later)).1 = (start.run before).1 ++ ((start.after before).run later).1 ∧
    ∃ k, (start.after before).toList = all.drop k ∧
      Sweep.Follows all k later ((start.after before).run later).1 ∧
      (all.drop k = [] →
        ∀ i, Sweep.Answer.instruction (some i) ∉ ((start.after before).run later).1) := by
  intro all start
  have hstart : start.toList = all.drop 0 := rfl
  obtain ⟨k, hk⟩ := Sweep.toList_after hstart before
  have hfollows := Sweep.run_follows hk later
  refine ⟨Sweep.run_follows hstart _, Sweep.run_append start before later, k, hk, hfollows, ?_⟩
  intro hend
  exact hfollows.instruction_notMem (List.drop_eq_nil_iff.mp hend)

end SpectrumListing.Z80
