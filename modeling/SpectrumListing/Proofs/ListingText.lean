import Mathlib
import SpectrumListing.Listing.Line
import SpectrumListing.Proofs.OperandText

/-!
# Lines in the text of a listing

No mnemonic holds a line break, and neither does anything else in a line of code. A listing whose
lines are free of line breaks is recovered from its text by cutting it at every line break.
-/
namespace SpectrumListing

/-- Whether a text stays on one line. -/
def Unbroken (text : String) : Prop := '\n' ∉ text.toList

instance : DecidablePred Unbroken := fun text => inferInstanceAs (Decidable ('\n' ∉ text.toList))

namespace Unbroken

theorem append {a b : String} (ha : Unbroken a) (hb : Unbroken b) : Unbroken (a ++ b) := by
  rw [Unbroken, String.toList_append, List.mem_append, not_or]
  exact ⟨ha, hb⟩

theorem intercalate {separator : String} {texts : List String} (hs : Unbroken separator)
    (ht : ∀ t ∈ texts, Unbroken t) : Unbroken (separator.intercalate texts) := by
  induction texts with
  | nil => exact List.not_mem_nil
  | cons t texts ih =>
    have hhead := ht t (by simp)
    have htail := ih fun u hu => ht u (by simp [hu])
    rcases eq_or_ne texts [] with rfl | hne
    · rwa [String.intercalate_singleton]
    · rw [String.intercalate_cons_of_ne_nil hne]
      exact (hhead.append hs).append htail

theorem replicate {c : Char} (hc : c ≠ '\n') (n : ℕ) :
    Unbroken (String.ofList (List.replicate n c)) := by
  rw [Unbroken, String.toList_ofList]
  intro h
  exact hc (List.eq_of_mem_replicate h).symm

theorem padRight {text : String} (h : Unbroken text) (width : ℕ) :
    Unbroken (padRight width text) :=
  h.append (replicate (by decide) _)

theorem digits (width n : ℕ) : Unbroken (String.ofList (Hex.digits width n)) := by
  rw [Unbroken, String.toList_ofList]
  induction width generalizing n with
  | zero => exact List.not_mem_nil
  | succ width ih =>
    rw [Hex.digits, List.mem_append, List.mem_singleton, not_or]
    refine ⟨ih _, fun he => ?_⟩
    have hread := Hex.digit?_digit n
    rw [← he] at hread
    cases hread

theorem hexByte (b : UInt8) : Unbroken (Hex.byte b) := digits 2 _

theorem hexWord (w : UInt16) : Unbroken (Hex.word w) := digits 4 _

theorem hexBytes (bs : List UInt8) : Unbroken (Hex.bytes bs) := by
  refine intercalate (by decide) fun t ht => ?_
  obtain ⟨b, -, rfl⟩ := List.mem_map.mp ht
  exact hexByte b

theorem decimal (n : ℕ) : Unbroken (toString n) := by
  intro h
  cases Z80.Operand.isDigit_of_mem_number h

end Unbroken

namespace Z80

theorem Operation.unbroken_name (o : Operation) : Unbroken o.name := by
  have hall : ∀ o ∈ named, Unbroken o.name := by decide
  cases o with
  | stray p => rcases p with _ | _ | ⟨_ | _⟩ <;> decide
  | _ => exact hall _ (mem_named rfl)

theorem Operand.unbroken_text (o : Operand) : Unbroken o.text := by
  cases o with
  | register reg => cases reg <;> decide
  | high i => cases i <;> decide
  | low i => cases i <;> decide
  | pair p => cases p <;> decide
  | alternate => decide
  | index i => cases i <;> decide
  | atPair p => cases p <;> decide
  | atIndex i => cases i <;> decide
  | displaced i d =>
    have hname : Unbroken i.name := by cases i <;> decide
    have hd : Unbroken (displacementText d) := by
      unfold displacementText
      split_ifs
      · exact .append (by decide) (.hexByte _)
      · exact .append (by decide) (.hexByte _)
    exact ((Unbroken.append (by decide) hname).append hd).append (by decide)
  | byte n => exact .append (by decide) (.hexByte n)
  | word n => exact .append (by decide) (.hexWord n)
  | address a => exact (Unbroken.append (by decide) (.hexWord a)).append (by decide)
  | device n => exact (Unbroken.append (by decide) (.hexByte n)).append (by decide)
  | deviceInC => decide
  | condition test => cases test <;> decide
  | number n => exact .decimal n

theorem Statement.unbroken_text (s : Statement) : Unbroken s.text := by
  rw [text_eq, mnemonicText]
  split_ifs
  · exact s.operation.unbroken_name
  · refine (s.operation.unbroken_name.append (by decide)).append (.intercalate (by decide) ?_)
    intro t ht
    obtain ⟨o, -, rfl⟩ := List.mem_map.mp ht
    exact o.unbroken_text

theorem unbroken_dataText (bytes : List UInt8) : Unbroken (dataText bytes) := by
  refine .append (by decide) (.intercalate (by decide) fun t ht => ?_)
  obtain ⟨b, -, rfl⟩ := List.mem_map.mp ht
  exact (Operand.byte b).unbroken_text

namespace Instruction

theorem unbroken_mnemonic (i : Instruction) : Unbroken i.mnemonic := by
  unfold mnemonic
  split
  · exact Statement.unbroken_text _
  · exact unbroken_dataText _
  · exact unbroken_dataText _
  · decide

theorem unbroken_line (i : Instruction) : Unbroken i.line :=
  ((((Unbroken.hexWord _).append (by decide)).append (.padRight (.hexBytes _) 16)).append
    (by decide)).append i.unbroken_mnemonic

end Instruction

end Z80

namespace Listing

/-- Cutting at the line breaks undoes joining lines; behind the last break nothing is left. -/
theorem splitOn_joinLines {lines : List String} (hne : lines ≠ [])
    (h : ∀ line ∈ lines, Unbroken line) :
    (joinLines lines).toList.splitOn '\n' = lines.map String.toList ++ [[]] := by
  have hjoin : joinLines lines = "\n".intercalate (lines ++ [""]) := by
    rw [String.intercalate_append_of_ne_nil hne (List.cons_ne_nil _ _),
      String.intercalate_singleton, String.append_empty, joinLines]
  rw [hjoin, String.toList_intercalate, List.map_append]
  refine List.splitOn_intercalate _ (fun line hline => ?_) (by simp)
  rcases List.mem_append.mp hline with hline | hline
  · obtain ⟨text, htext, rfl⟩ := List.mem_map.mp hline
    exact h text htext
  · rw [List.map_singleton, List.mem_singleton] at hline
    rw [hline]
    exact List.not_mem_nil

end Listing

end SpectrumListing
