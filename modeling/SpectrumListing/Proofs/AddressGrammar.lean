import Mathlib
import SpectrumListing.Text.Address
import SpectrumListing.Proofs.Spelling
import SpectrumListing.Proofs.Trimming

/-!
# The grammar of addresses

A numeral is a text of digits with a value, each digit weighted by its distance from the last. It is
read from the left, with a look at the limit after every digit. This finds the same numerals as the
value of the whole text does, and a text is too large exactly if digits at its front are.
-/
namespace SpectrumListing

namespace Numeral

/-- A digit and its value, which is below the radix. Letters count in either case. -/
def IsDigit (radix : ℕ) (c : Char) (value : ℕ) : Prop :=
  value < radix ∧ ("0123456789abcdef".toList[value]? = some c ∨
    "0123456789ABCDEF".toList[value]? = some c)

/-- A text of digits and its value. -/
def Spells (radix : ℕ) (cs : List Char) (n : ℕ) : Prop :=
  ∃ values, List.Forall₂ (IsDigit radix) cs.reverse values ∧ Nat.ofDigits radix values = n

/-- A text without the plus sign that may stand in front of it. -/
def unsigned : List Char → List Char
  | '+' :: cs => cs
  | cs => cs

/-- Where the digits stand among the characters. -/
theorem digit_codes : ∀ d < 16,
    "0123456789abcdef".toList[d]? = some (Char.ofNat (if d < 10 then 48 + d else 87 + d)) ∧
    "0123456789ABCDEF".toList[d]? = some (Char.ofNat (if d < 10 then 48 + d else 55 + d)) ∧
    digit? 16 (Char.ofNat (if d < 10 then 48 + d else 87 + d)) = some d ∧
    digit? 16 (Char.ofNat (if d < 10 then 48 + d else 55 + d)) = some d := by
  decide

theorem digit?_eq_some_iff_below {radix : ℕ} (h : radix ≤ 16) {c : Char} {d : ℕ} :
    digit? radix c = some d ↔ digit? 16 c = some d ∧ d < radix := by
  simp only [digit?, Option.filter_eq_some_iff, decide_eq_true_eq]
  constructor
  · rintro ⟨hvalue, hd⟩
    exact ⟨⟨hvalue, by omega⟩, hd⟩
  · rintro ⟨⟨hvalue, -⟩, hd⟩
    exact ⟨hvalue, hd⟩

theorem isDigit_of_digit? {c : Char} {d : ℕ} (h : digit? 16 c = some d) : IsDigit 16 c d := by
  simp only [digit?, Option.filter_eq_some_iff, decide_eq_true_eq] at h
  obtain ⟨hvalue, hd⟩ := h
  obtain ⟨hsmall, hcapital, -⟩ := digit_codes d hd
  have hcode (k : ℕ) (hk : c.toNat = k) : Char.ofNat k = c := by rw [← hk, Char.ofNat_toNat]
  rw [IsDigit, hsmall, hcapital, Option.some.injEq, Option.some.injEq]
  refine ⟨hd, ?_⟩
  split_ifs at hvalue with hfigure hletter hletter
  · have hlow : 48 ≤ c.toNat := hfigure.1
    have hhigh : c.toNat ≤ 57 := hfigure.2
    have hc : c.toNat - 48 = d := Option.some.inj hvalue
    exact .inl (hcode _ (by rw [if_pos (by omega)]; omega))
  · have hlow : 97 ≤ c.toNat := hletter.1
    have hc : c.toNat - 97 + 10 = d := Option.some.inj hvalue
    exact .inl (hcode _ (by rw [if_neg (by omega)]; omega))
  · have hlow : 65 ≤ c.toNat := hletter.1
    have hc : c.toNat - 65 + 10 = d := Option.some.inj hvalue
    exact .inr (hcode _ (by rw [if_neg (by omega)]; omega))

theorem digit?_of_isDigit {c : Char} {d : ℕ} (h : IsDigit 16 c d) : digit? 16 c = some d := by
  obtain ⟨hd, hc⟩ := h
  obtain ⟨hsmall, hcapital, hvalue, hvalue'⟩ := digit_codes d hd
  rcases hc with hc | hc
  · rwa [← Option.some.inj (hsmall.symm.trans hc)]
  · rwa [← Option.some.inj (hcapital.symm.trans hc)]

theorem digit?_eq_some_iff {radix : ℕ} (hradix : radix ≤ 16) {c : Char} {d : ℕ} :
    digit? radix c = some d ↔ IsDigit radix c d := by
  rw [digit?_eq_some_iff_below hradix]
  constructor
  · rintro ⟨h, hd⟩
    exact ⟨hd, (isDigit_of_digit? h).2⟩
  · rintro ⟨hd, hc⟩
    exact ⟨digit?_of_isDigit ⟨by omega, hc⟩, hd⟩

theorem spells_nil_iff {radix n : ℕ} : Spells radix [] n ↔ n = 0 := by
  simp [Spells, eq_comm]

theorem spells_concat_iff {radix n : ℕ} {cs : List Char} {c : Char} :
    Spells radix (cs ++ [c]) n ↔
      ∃ v d, Spells radix cs v ∧ IsDigit radix c d ∧ v * radix + d = n := by
  constructor
  · rintro ⟨values, hvalues, rfl⟩
    rw [List.reverse_append, List.reverse_singleton, List.singleton_append,
      List.forall₂_cons_left_iff] at hvalues
    obtain ⟨d, values, hd, hvalues, rfl⟩ := hvalues
    refine ⟨_, d, ⟨values, hvalues, rfl⟩, hd, ?_⟩
    rw [Nat.ofDigits_cons, Nat.mul_comm, Nat.add_comm]
  · rintro ⟨v, d, ⟨values, hvalues, rfl⟩, hd, rfl⟩
    refine ⟨d :: values, ?_, ?_⟩
    · rw [List.reverse_append]
      exact .cons hd hvalues
    · rw [Nat.ofDigits_cons, Nat.mul_comm, Nat.add_comm]

/-- Whether digits at the front of a text have a value beyond the limit. -/
def Exceeds (radix limit : ℕ) (cs : List Char) : Prop :=
  ∃ run n, run <+: cs ∧ Spells radix run n ∧ limit < n

section Reading

variable {radix limit : ℕ} (hradix : radix ≤ 16)
include hradix

/-- One more digit. -/
theorem readDigits_singleton_eq_ok_iff {value n : ℕ} {c : Char} :
    readDigits radix limit value [c] = .ok n ↔
      ∃ d, IsDigit radix c d ∧ value * radix + d = n ∧ n ≤ limit := by
  simp only [readDigits, ← digit?_eq_some_iff hradix]
  cases digit? radix c with
  | none => simp
  | some d =>
    dsimp only
    split_ifs with hlimit
    · simp
      omega
    · simp
      omega

theorem readDigits_singleton_eq_tooLarge_iff {value : ℕ} {c : Char} :
    readDigits radix limit value [c] = .error .tooLarge ↔
      ∃ d, IsDigit radix c d ∧ limit < value * radix + d := by
  simp only [readDigits, ← digit?_eq_some_iff hradix]
  cases digit? radix c with
  | none => simp
  | some d =>
    dsimp only
    split_ifs with hlimit
    · simp [hlimit]
    · simp [hlimit]

variable (hpos : 0 < radix)
include hpos

theorem readDigits_eq_ok_iff {cs : List Char} {n : ℕ} :
    readDigits radix limit 0 cs = .ok n ↔ Spells radix cs n ∧ n ≤ limit := by
  induction cs using List.reverseRecOn generalizing n with
  | nil =>
    rw [spells_nil_iff, readDigits, Except.ok.injEq]
    omega
  | append_singleton cs c ih =>
    rw [readDigits_append, spells_concat_iff]
    constructor
    · intro h
      cases hv : readDigits radix limit 0 cs with
      | error e =>
        rw [hv] at h
        cases h
      | ok v =>
        rw [hv] at h
        obtain ⟨d, hd, hn, hlimit⟩ := (readDigits_singleton_eq_ok_iff hradix).mp h
        exact ⟨⟨v, d, (ih.mp hv).1, hd, hn⟩, hlimit⟩
    · rintro ⟨⟨v, d, hv, hd, hn⟩, hlimit⟩
      -- The value of the digits before the last is no larger than that of all.
      have hle : v ≤ v * radix := Nat.le_mul_of_pos_right v hpos
      rw [ih.mpr ⟨hv, by omega⟩]
      exact (readDigits_singleton_eq_ok_iff hradix).mpr ⟨d, hd, hn, hlimit⟩

/-- The first digits that are too many decide, whatever follows them. -/
theorem readDigits_eq_tooLarge_iff {cs : List Char} :
    readDigits radix limit 0 cs = .error .tooLarge ↔ Exceeds radix limit cs := by
  induction cs using List.reverseRecOn with
  | nil =>
    constructor
    · intro h
      cases h
    · rintro ⟨run, n, hrun, hspells, hlimit⟩
      rw [List.prefix_nil.mp hrun, spells_nil_iff] at hspells
      omega
  | append_singleton cs c ih =>
    rw [readDigits_append]
    constructor
    · intro h
      cases hv : readDigits radix limit 0 cs with
      | error e =>
        rw [hv] at h
        cases h
        obtain ⟨run, n, hrun, hspells, hlimit⟩ := ih.mp hv
        exact ⟨run, n, hrun.trans (List.prefix_append cs [c]), hspells, hlimit⟩
      | ok v =>
        rw [hv] at h
        obtain ⟨d, hd, hlimit⟩ := (readDigits_singleton_eq_tooLarge_iff hradix).mp h
        have hspells := ((readDigits_eq_ok_iff hradix hpos).mp hv).1
        exact ⟨cs ++ [c], _, List.prefix_refl _,
          spells_concat_iff.mpr ⟨v, d, hspells, hd, rfl⟩, hlimit⟩
    · rintro ⟨run, n, hrun, hspells, hlimit⟩
      rcases List.prefix_concat_iff.mp hrun with rfl | hrun
      · obtain ⟨v, d, hv, hd, rfl⟩ := spells_concat_iff.mp hspells
        rcases le_or_gt v limit with hle | hgt
        · rw [(readDigits_eq_ok_iff hradix hpos).mpr ⟨hv, hle⟩]
          exact (readDigits_singleton_eq_tooLarge_iff hradix).mpr ⟨d, hd, hlimit⟩
        · rw [ih.mpr ⟨cs, v, List.prefix_refl cs, hv, hgt⟩]
          rfl
      · rw [ih.mpr ⟨run, n, hrun, hspells, hlimit⟩]
        rfl

end Reading

theorem readDigits_ne_empty (radix limit value : ℕ) (cs : List Char) :
    readDigits radix limit value cs ≠ .error .empty := by
  induction cs generalizing value with
  | nil => simp [readDigits]
  | cons c cs ih =>
    rw [readDigits]
    split
    · simp
    · split_ifs
      · simp
      · exact ih _

theorem read_eq (radix limit : ℕ) (cs : List Char) :
    read radix limit cs =
      if cs = [] then .error .empty
      else if unsigned cs = [] then .error .invalidDigit
      else readDigits radix limit 0 (unsigned cs) := by
  unfold read
  split
  · rfl
  · next cs =>
    rw [if_neg (List.cons_ne_nil _ _)]
    cases cs <;> rfl
  · next hne hsign =>
    have hunsigned : unsigned cs = cs := by
      unfold unsigned
      split
      · next rest => exact absurd rfl (hsign rest)
      · rfl
    rw [hunsigned, if_neg hne, if_neg hne]

/-- A numeral: digits, and at least one of them. -/
def IsNumeral (radix : ℕ) (cs : List Char) (n : ℕ) : Prop := cs ≠ [] ∧ Spells radix cs n

section Reading

variable {radix limit : ℕ} {cs : List Char}

theorem read_eq_empty_iff : read radix limit cs = .error .empty ↔ cs = [] := by
  rw [read_eq]
  split_ifs with hne hsign
  · simp [hne]
  · simp [hne]
  · simp [hne, readDigits_ne_empty]

variable (hradix : radix ≤ 16) (hpos : 0 < radix)
include hradix hpos

theorem read_eq_ok_iff {n : ℕ} :
    read radix limit cs = .ok n ↔ IsNumeral radix (unsigned cs) n ∧ n ≤ limit := by
  rw [read_eq, IsNumeral]
  split_ifs with hne hsign
  · simp [hne, unsigned]
  · simp [hsign]
  · rw [readDigits_eq_ok_iff hradix hpos]
    simp [hsign]

theorem read_eq_tooLarge_iff :
    read radix limit cs = .error .tooLarge ↔ Exceeds radix limit (unsigned cs) := by
  have hnil : ¬ Exceeds radix limit [] := by
    rw [← readDigits_eq_tooLarge_iff hradix hpos]
    simp [readDigits]
  rw [read_eq]
  split_ifs with hne hsign
  · simpa [hne, unsigned] using hnil
  · simpa [hsign] using hnil
  · exact readDigits_eq_tooLarge_iff hradix hpos

theorem read_eq_invalidDigit_iff :
    read radix limit cs = .error .invalidDigit ↔
      cs ≠ [] ∧ ¬ Exceeds radix limit (unsigned cs) ∧
        ¬ ∃ n, IsNumeral radix (unsigned cs) n ∧ n ≤ limit := by
  have hempty : cs = [] ↔ read radix limit cs = .error .empty := read_eq_empty_iff.symm
  rw [ne_eq, hempty, ← read_eq_tooLarge_iff hradix hpos]
  simp only [← read_eq_ok_iff hradix hpos]
  cases read radix limit cs with
  | ok n => simp
  | error cause => cases cause <;> simp

end Reading

end Numeral

namespace Address

open Numeral

/-- The bytes of a text. -/
def utf8 (cs : List Char) : List UInt8 := cs.flatMap String.utf8EncodeChar

/-- The radix that a byte announces behind a zero: an X, an O or a B in either case. -/
def markRadix? (mark : UInt8) : Option ℕ :=
  if mark = 0x78 ∨ mark = 0x58 then some 16
  else if mark = 0x6F ∨ mark = 0x4F then some 8
  else if mark = 0x62 ∨ mark = 0x42 then some 2
  else none

/-- The radix of a text and the digits in it: the first two bytes may announce a radix, and if they
do not, it is ten. -/
inductive Announces : List Char → ℕ → List Char → Prop
  | marked {text body : List Char} {mark : UInt8} {radix : ℕ}
      (bytes : utf8 text = 0x30 :: mark :: utf8 body) (announced : markRadix? mark = some radix) :
      Announces text radix body
  | unmarked {text : List Char}
      (plain : ∀ mark rest, utf8 text = 0x30 :: mark :: rest → markRadix? mark = none) :
      Announces text 10 text

theorem utf8_cons_of_ascii {c : Char} (h : c.toNat < 0x80) (cs : List Char) :
    utf8 (c :: cs) = UInt8.ofNat c.toNat :: utf8 cs := by
  have hle : c.val.toNat ≤ 127 := Nat.le_of_lt_succ h
  rw [utf8, List.flatMap_cons, String.utf8EncodeChar]
  simp only [hle, ↓reduceIte]
  rfl

/-- An ASCII byte at the front of a text is its first character. -/
theorem eq_cons_of_utf8 {cs : List Char} {b : UInt8} {rest : List UInt8} (h : utf8 cs = b :: rest)
    (hb : b < 0x80) : ∃ tail, cs = Char.ofNat b.toNat :: tail ∧ utf8 tail = rest := by
  cases cs with
  | nil => cases h
  | cons c tail =>
    rcases lt_or_ge c.toNat 0x80 with hc | hc
    · rw [utf8_cons_of_ascii hc, List.cons.injEq] at h
      obtain ⟨rfl, hrest⟩ := h
      refine ⟨tail, ?_, hrest⟩
      rw [UInt8.toNat_ofNat', Nat.mod_eq_of_lt (by omega), Char.ofNat_toNat]
    · -- Any other character starts with a byte beyond ASCII.
      have hle : ¬ c.val.toNat ≤ 127 := Nat.not_le.mpr hc
      have hlt : b.toNat < 0x80 := hb
      rw [utf8, List.flatMap_cons, String.utf8EncodeChar] at h
      simp only [hle, ↓reduceIte] at h
      split_ifs at h <;>
      · have hhead := congrArg UInt8.toNat (List.cons.inj h).1
        rw [UInt8.toNat_ofNat'] at hhead
        omega

theorem utf8_injective : Function.Injective utf8 := by
  intro cs ds h
  have hbytes : (String.ofList cs).toByteArray = (String.ofList ds).toByteArray := by
    rw [String.toByteArray_ofList, String.toByteArray_ofList]
    exact congrArg List.toByteArray h
  simpa using congrArg String.toList (String.toByteArray_inj.mp hbytes)

theorem radix_of_mark {mark : UInt8} {r : ℕ} (h : markRadix? mark = some r) (body : List Char) :
    mark < 0x80 ∧ radix ('0' :: Char.ofNat mark.toNat :: body) = (r, body) := by
  unfold markRadix? at h
  split_ifs at h with hx ho hb
  · cases h
    rcases hx with rfl | rfl <;> exact ⟨by decide, rfl⟩
  · cases h
    rcases ho with rfl | rfl <;> exact ⟨by decide, rfl⟩
  · cases h
    rcases hb with rfl | rfl <;> exact ⟨by decide, rfl⟩

/-- Two bytes that announce a radix are two characters. -/
theorem eq_of_utf8_mark {text : List Char} {mark : UInt8} {rest : List UInt8} {r : ℕ}
    (h : utf8 text = 0x30 :: mark :: rest) (hmark : markRadix? mark = some r) :
    ∃ body, text = '0' :: Char.ofNat mark.toNat :: body ∧ utf8 body = rest := by
  obtain ⟨tail, rfl, htail⟩ := eq_cons_of_utf8 h (by decide)
  obtain ⟨body, rfl, hbody⟩ := eq_cons_of_utf8 htail (radix_of_mark hmark []).1
  exact ⟨body, rfl, hbody⟩

theorem radix_of_unmarked {text : List Char}
    (h : ∀ mark rest, utf8 text = 0x30 :: mark :: rest → markRadix? mark = none) :
    radix text = (10, text) := by
  unfold radix
  split
  · next mark rest =>
    have hnone (hmark : mark.toNat < 0x80) : markRadix? (UInt8.ofNat mark.toNat) = none := by
      refine h _ (utf8 rest) ?_
      rw [utf8_cons_of_ascii (by decide), utf8_cons_of_ascii hmark]
      rfl
    split_ifs with hx ho hb
    · rcases hx with rfl | rfl <;> cases hnone (by decide)
    · rcases ho with rfl | rfl <;> cases hnone (by decide)
    · rcases hb with rfl | rfl <;> cases hnone (by decide)
    · rfl
  · rfl

theorem Announces.radix_eq {text body : List Char} {r : ℕ} (h : Announces text r body) :
    radix text = (r, body) := by
  cases h with
  | marked hbytes hmark =>
    obtain ⟨tail, rfl, htail⟩ := eq_of_utf8_mark hbytes hmark
    rw [utf8_injective htail]
    exact (radix_of_mark hmark body).2
  | unmarked hplain => exact radix_of_unmarked hplain

theorem announces_iff {text body : List Char} {r : ℕ} :
    Announces text r body ↔ radix text = (r, body) := by
  refine ⟨Announces.radix_eq, fun h => ?_⟩
  by_cases hmarked : ∃ mark rest s, utf8 text = 0x30 :: mark :: rest ∧ markRadix? mark = some s
  · obtain ⟨mark, rest, s, hbytes, hmark⟩ := hmarked
    obtain ⟨tail, rfl, rfl⟩ := eq_of_utf8_mark hbytes hmark
    have announces := Announces.marked hbytes hmark
    rw [announces.radix_eq, Prod.mk.injEq] at h
    obtain ⟨rfl, rfl⟩ := h
    exact announces
  · have announces : Announces text 10 text := .unmarked fun mark rest hbytes => by
      by_contra hne
      obtain ⟨s, hs⟩ := Option.ne_none_iff_exists'.mp hne
      exact hmarked ⟨mark, rest, s, hbytes, hs⟩
    rw [announces.radix_eq, Prod.mk.injEq] at h
    obtain ⟨rfl, rfl⟩ := h
    exact announces

theorem radix_bounds (text : List Char) : (radix text).1 ≤ 16 ∧ 0 < (radix text).1 := by
  unfold radix
  split
  · split_ifs <;> simp
  · simp

section Parsing

variable {text : String} {r : ℕ} {body : List Char} (h : radix (trim text.toList) = (r, body))
include h

theorem parse_eq_error_iff {cause : Numeral.Failure} :
    parse text = .error ⟨String.ofList (trim text.toList), cause⟩ ↔
      Numeral.read r 65535 (body.filter (· ≠ '_')) = .error cause := by
  rw [parse]
  simp only [h]
  cases Numeral.read r 65535 (body.filter (· ≠ '_')) with
  | ok n => simp
  | error cause' => simp

/-- A number that is read fits into a word, so that nothing of it is lost. -/
theorem parse_eq_ok_iff {n : ℕ} :
    (∃ a : UInt16, parse text = .ok a ∧ a.toNat = n) ↔
      Numeral.read r 65535 (body.filter (· ≠ '_')) = .ok n := by
  obtain ⟨hradix, hpos⟩ := radix_bounds (trim text.toList)
  rw [h] at hradix hpos
  rw [parse]
  simp only [h]
  cases hread : Numeral.read r 65535 (body.filter (· ≠ '_')) with
  | error cause => simp
  | ok m =>
    have hm : m ≤ 65535 := ((read_eq_ok_iff hradix hpos).mp hread).2
    simp only [Except.ok.injEq, exists_eq_left', UInt16.toNat_ofNat']
    rw [Nat.mod_eq_of_lt (by omega)]

end Parsing

/-- A text is read as an address without the blanks around it, in the radix that its first two bytes
announce, and without underscores. It is accepted exactly if it is then a numeral up to 65535, which
may have a plus sign, and its value is the address. Otherwise it is empty, or the digits at its
front are too large, or, in all other cases, something in it is no digit. -/
theorem parse_grammar (text : String) :
    ∃ (trimmed body : List Char) (radix : ℕ),
      (∀ t, IsTrimmed text.toList t ↔ t = trimmed) ∧
      (∀ r b, Announces trimmed r b ↔ r = radix ∧ b = body) ∧
      let written := body.filter (· ≠ '_')
      let digits := unsigned written
      (∀ n, (∃ a : UInt16, parse text = .ok a ∧ a.toNat = n) ↔
        IsNumeral radix digits n ∧ n ≤ 65535) ∧
      (parse text = .error ⟨String.ofList trimmed, .empty⟩ ↔ written = []) ∧
      (parse text = .error ⟨String.ofList trimmed, .tooLarge⟩ ↔ Exceeds radix 65535 digits) ∧
      (parse text = .error ⟨String.ofList trimmed, .invalidDigit⟩ ↔
        written ≠ [] ∧ ¬ Exceeds radix 65535 digits ∧
          ¬ ∃ n, IsNumeral radix digits n ∧ n ≤ 65535) := by
  rcases hr : radix (trim text.toList) with ⟨r, body⟩
  obtain ⟨hradix, hpos⟩ := radix_bounds (trim text.toList)
  rw [hr] at hradix hpos
  refine ⟨trim text.toList, body, r, fun t => isTrimmed_iff, fun r' b => ?_, fun n => ?_,
    ?_, ?_, ?_⟩
  · rw [announces_iff, hr, Prod.mk.injEq, eq_comm, @eq_comm _ body]
  · rw [parse_eq_ok_iff hr, read_eq_ok_iff hradix hpos]
  · rw [parse_eq_error_iff hr, read_eq_empty_iff]
  · rw [parse_eq_error_iff hr, read_eq_tooLarge_iff hradix hpos]
  · rw [parse_eq_error_iff hr, read_eq_invalidDigit_iff hradix hpos]

end Address

end SpectrumListing
