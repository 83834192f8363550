import Mathlib
import SpectrumListing.Text.Pieces

/-!
# Texts without the blanks at their ends

What is dropped at the end of a list are the last elements that meet a condition, as many as there
are. A trimmed text is therefore the only one that neither starts nor ends with a blank and becomes
the whole text when blanks are put around it.
-/
namespace SpectrumListing

theorem rdropWhile_eq_iff {α : Type} {p : α → Bool} {xs kept : List α} :
    xs.rdropWhile p = kept ↔ ∃ dropped, xs = kept ++ dropped ∧ (∀ x ∈ dropped, p x = true) ∧
      ∀ x ∈ kept.getLast?, p x = false := by
  constructor
  · rintro rfl
    refine ⟨xs.rtakeWhile p, List.rdropWhile_append_rtakeWhile.symm,
      fun x hx => List.mem_rtakeWhile_imp hx, fun x hx => ?_⟩
    obtain ⟨hne, rfl⟩ := List.mem_getLast?_eq_getLast hx
    simpa using List.rdropWhile_last_not p xs hne
  · rintro ⟨dropped, rfl, hdropped, hlast⟩
    induction dropped using List.reverseRecOn with
    | nil =>
      rw [List.append_nil, List.rdropWhile_eq_self_iff]
      intro hne
      simpa using hlast _ (List.getLast_mem_getLast? hne)
    | append_singleton dropped x ih =>
      rw [← List.append_assoc, List.rdropWhile_concat_pos _ _ _ (hdropped x (by simp))]
      exact ih fun y hy => hdropped y (by simp [hy])

theorem trimEnd_eq_iff {cs text : List Char} :
    trimEnd cs = text ↔ ∃ blanks, cs = text ++ blanks ∧ (∀ c ∈ blanks, isBlank c = true) ∧
      ∀ c ∈ text.getLast?, isBlank c = false :=
  rdropWhile_eq_iff

/-- A blank stays if something that is not blank comes after it. -/
theorem mem_trimEnd_iff {cs : List Char} {c : Char} (hc : isBlank c = true) :
    c ∈ trimEnd cs ↔ ∃ front back, cs = front ++ c :: back ∧ ∃ d ∈ back, isBlank d = false := by
  obtain ⟨blanks, hsplit, hblanks, hlast⟩ := trimEnd_eq_iff.mp (rfl : trimEnd cs = trimEnd cs)
  constructor
  · intro h
    obtain ⟨front, back, hkept⟩ := List.append_of_mem h
    rcases List.eq_nil_or_concat' back with rfl | ⟨middle, d, rfl⟩
    · have hshown := hlast c (by simp [hkept])
      rw [hc] at hshown
      cases hshown
    · have hlast' : (trimEnd cs).getLast? = some d := by
        rw [hkept, ← List.cons_append, ← List.append_assoc, List.getLast?_concat]
      have hcs : cs = front ++ c :: (middle ++ [d] ++ blanks) := by
        rw [hsplit, hkept, List.append_assoc, List.cons_append]
      exact ⟨front, _, hcs, d, by simp, hlast d hlast'⟩
  · rintro ⟨front, back, rfl, d, hd, hshown⟩
    -- The blanks at the end cannot reach as far as `c`, since `d` is not among them.
    have hout : d ∉ blanks := fun hmem => by
      rw [hblanks d hmem] at hshown
      cases hshown
    obtain ⟨more, hkept, hrest⟩ | ⟨more, -, hrest⟩ := List.append_eq_append_iff.mp hsplit
    · cases more with
      | nil =>
        rw [List.nil_append] at hrest
        exact absurd (hrest ▸ List.mem_cons_of_mem c hd) hout
      | cons e more =>
        obtain ⟨rfl, -⟩ := List.cons.inj hrest
        simp [hkept]
    · exact absurd (by simp [hrest, hd]) hout

/-- A text without the blanks around it. -/
def IsTrimmed (cs text : List Char) : Prop :=
  ∃ front back, cs = front ++ (text ++ back) ∧ (∀ c ∈ front ++ back, isBlank c = true) ∧
    (∀ c ∈ text.head?, isBlank c = false) ∧ ∀ c ∈ text.getLast?, isBlank c = false

theorem isTrimmed_trim (cs : List Char) : IsTrimmed cs (trim cs) := by
  obtain ⟨back, hsplit, hback, hlast⟩ := trimEnd_eq_iff.mp (rfl : trim cs = trim cs)
  refine ⟨cs.takeWhile isBlank, back, ?_, fun c hc => ?_, fun c hc => ?_, hlast⟩
  · rw [← hsplit, List.takeWhile_append_dropWhile]
  · rcases List.mem_append.mp hc with hc | hc
    · exact List.mem_takeWhile_imp hc
    · exact hback c hc
  · -- The text starts like what is left behind the blanks in front.
    have hhead : c ∈ (cs.dropWhile isBlank).head? := by
      rw [hsplit, List.head?_append_of_ne_nil _ (List.ne_nil_of_mem (List.mem_of_mem_head? hc))]
      exact hc
    have hne := List.ne_nil_of_mem (List.mem_of_mem_head? hhead)
    rw [List.head?_eq_some_head hne, Option.mem_some_iff] at hhead
    rw [← hhead]
    simpa using List.head_dropWhile_not isBlank hne

theorem isTrimmed_iff {cs text : List Char} : IsTrimmed cs text ↔ text = trim cs := by
  constructor
  · rintro ⟨front, back, rfl, hblanks, hhead, hlast⟩
    have hfront (c : Char) (hc : c ∈ front) := hblanks c (List.mem_append_left back hc)
    have hback (c : Char) (hc : c ∈ back) := hblanks c (List.mem_append_right front hc)
    rw [trim, List.dropWhile_append_of_pos hfront]
    symm
    cases text with
    | nil =>
      have hnone : back.dropWhile isBlank = [] := List.dropWhile_eq_nil_iff.mpr hback
      rw [List.nil_append, hnone]
      rfl
    | cons c text =>
      rw [List.cons_append, List.dropWhile_cons_of_neg (by simpa using hhead c rfl)]
      exact trimEnd_eq_iff.mpr ⟨back, rfl, hback, hlast⟩
  · rintro rfl
    exact isTrimmed_trim cs

end SpectrumListing
