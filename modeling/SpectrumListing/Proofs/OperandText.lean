import Mathlib
import SpectrumListing.Proofs.Spelling

/-!
# Operands in the text of a mnemonic

A mnemonic can be taken apart into the texts of its operands, and these can be replaced. Since the
text of an operand determines the operand, replacing texts in the mnemonic of a statement amounts to
replacing operands in the statement.
-/
namespace SpectrumListing.Z80

/-- The texts of the operands in a mnemonic. -/
def operandTexts (mnemonic : String) : List String := (words mnemonic).tail.map String.ofList

/-- An operation with the texts of its operands behind it. -/
def mnemonicText (operation : String) (operands : List String) : String :=
  if operands = [] then operation else operation ++ " " ++ ", ".intercalate operands

/-- A mnemonic with the text of each operand replaced. -/
def replaceOperands (f : String → String) (mnemonic : String) : String :=
  mnemonicText (String.ofList ((words mnemonic).headD [])) ((operandTexts mnemonic).map f)

namespace Operand

/-- The text of an operand determines it; the register C is left out, since a condition has the
same text. -/
theorem eq_of_text_eq {o p : Operand} (h : o.text = p.text) (hc : p.spelled ≠ register .c) :
    o = p := by
  have hspelled : o.spelled = p.spelled := by
    apply Option.some.inj
    rw [← read?_text, ← read?_text, h]
  have hunspelled (q : Operand) (hq : q.spelled ≠ register .c) : q.spelled = q := by
    cases q with
    | condition test =>
      cases test with
      | c => exact absurd rfl hq
      | _ => rfl
    | _ => rfl
  rw [← hunspelled o (hspelled ▸ hc), hspelled, hunspelled p hc]

end Operand

theorem Statement.text_eq (s : Statement) :
    s.text = mnemonicText s.operation.name (s.operands.map Operand.text) := by
  obtain ⟨operation, _ | ⟨o, operands⟩⟩ := s
  · rfl
  · simp [text, mnemonicText]

theorem operandTexts_text {s : Statement} (h : s.operation.isNamed = true) :
    operandTexts s.text = s.operands.map Operand.text := by
  rw [operandTexts, words_text h]
  simp

theorem operandTexts_dataText {bytes : List UInt8} (hne : bytes ≠ []) :
    operandTexts (dataText bytes) = bytes.map fun b => (Operand.byte b).text := by
  rw [operandTexts, words_dataText hne]
  simp

theorem replaceOperands_text {s : Statement} (h : s.operation.isNamed = true)
    {f : String → String} {g : Operand → Operand} (hfg : ∀ o ∈ s.operands, f o.text = (g o).text) :
    replaceOperands f s.text = Statement.text ⟨s.operation, s.operands.map g⟩ := by
  have hmap : (s.operands.map Operand.text).map f = (s.operands.map g).map Operand.text := by
    rw [List.map_map, List.map_map]
    exact List.map_congr_left hfg
  rw [replaceOperands, operandTexts_text h, words_text h, hmap, Statement.text_eq]
  simp

end SpectrumListing.Z80
