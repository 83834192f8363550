import Mathlib
import SpectrumListing.Text.Address
import SpectrumListing.Proofs.Mnemonic

/-!
# Reading texts back

Readers for hexadecimal digits, operands, operation names and whole mnemonics. Each of them undoes
the text it belongs to; the only two operands with the same text are the register C and the
condition C.
-/
namespace SpectrumListing

namespace Numeral

theorem readDigits_append (radix limit value : ℕ) (cs ds : List Char) :
    readDigits radix limit value (cs ++ ds) =
      (readDigits radix limit value cs).bind fun v => readDigits radix limit v ds := by
  induction cs generalizing value with
  | nil => rfl
  | cons c cs ih =>
    rw [List.cons_append, readDigits, readDigits]
    cases digit? radix c with
    | none => rfl
    | some d =>
      dsimp only
      split_ifs
      · rfl
      · exact ih _

end Numeral

namespace Hex

theorem digit?_digit (n : ℕ) : Numeral.digit? 16 (digit n) = some (n % 16) := by
  have hall : ∀ m < 16, Numeral.digit? 16
      (if m < 10 then Char.ofNat (48 + m) else Char.ofNat (55 + m)) = some m := by decide
  exact hall (n % 16) (Nat.mod_lt n (by decide))

theorem digit_ne (n : ℕ) : digit n ≠ ' ' ∧ digit n ≠ ',' := by
  have hall : ∀ m < 16, (if m < 10 then Char.ofNat (48 + m) else Char.ofNat (55 + m)) ≠ ' ' ∧
      (if m < 10 then Char.ofNat (48 + m) else Char.ofNat (55 + m)) ≠ ',' := by decide
  exact hall (n % 16) (Nat.mod_lt n (by decide))

/-- Digits of a fixed width are a numeral of the value they were made from. -/
theorem readDigits_digits (width n limit : ℕ) (h : n % 16 ^ width ≤ limit) :
    Numeral.readDigits 16 limit 0 (digits width n) = .ok (n % 16 ^ width) := by
  induction width generalizing n with
  | zero => simp [digits, Numeral.readDigits, Nat.mod_one]
  | succ width ih =>
    have hmod : n % 16 ^ (width + 1) = n / 16 % 16 ^ width * 16 + n % 16 := by
      rw [pow_succ, Nat.mul_comm, Nat.mod_mul]
      omega
    rw [digits, Numeral.readDigits_append, ih (n / 16) (by omega)]
    simp only [Except.bind, Numeral.readDigits, digit?_digit, ← hmod]
    rw [if_neg (by omega)]

def read? (cs : List Char) : Option ℕ := (Numeral.readDigits 16 65535 0 cs).toOption

theorem toList_byte (b : UInt8) : (byte b).toList = [digit (b.toNat / 16), digit b.toNat] := by
  simp [byte, digits]

theorem toList_word (w : UInt16) :
    (word w).toList = [digit (w.toNat / 16 / 16 / 16), digit (w.toNat / 16 / 16),
      digit (w.toNat / 16), digit w.toNat] := by
  simp [word, digits]

theorem read?_byte (b : UInt8) : read? (byte b).toList = some b.toNat := by
  have hlt := b.toNat_lt
  rw [read?, byte, String.toList_ofList, readDigits_digits 2 _ _ (by omega)]
  exact congrArg some (Nat.mod_eq_of_lt hlt)

theorem read?_word (w : UInt16) : read? (word w).toList = some w.toNat := by
  have hlt := w.toNat_lt
  rw [read?, word, String.toList_ofList, readDigits_digits 4 _ _ (by omega)]
  exact congrArg some (Nat.mod_eq_of_lt hlt)

/-- Four characters that are the digits of a word, in upper case. -/
def IsWord (digits : List Char) (n : ℕ) : Prop :=
  digits.length = 4 ∧ (∀ c ∈ digits, c ∈ "0123456789ABCDEF".toList) ∧ read? digits = some n

theorem digit_mem (n : ℕ) : digit n ∈ "0123456789ABCDEF".toList := by
  have hall : ∀ m < 16, (if m < 10 then Char.ofNat (48 + m) else Char.ofNat (55 + m)) ∈
      "0123456789ABCDEF".toList := by decide
  exact hall (n % 16) (Nat.mod_lt n (by decide))

theorem isWord_word (w : UInt16) : IsWord (word w).toList w.toNat := by
  refine ⟨by simp [toList_word], fun c hc => ?_, read?_word w⟩
  simp only [toList_word, List.mem_cons, List.not_mem_nil, or_false] at hc
  rcases hc with rfl | rfl | rfl | rfl <;> exact digit_mem _

end Hex

namespace Z80

/-- Whether a text is free of the separators of a mnemonic. -/
def isWord (cs : List Char) : Bool := cs.all fun c => c != ' ' && c != ','

theorem isWord_iff {cs : List Char} : isWord cs = true ↔ ∀ c ∈ cs, c ≠ ' ' ∧ c ≠ ',' := by
  simp [isWord]

/-- The words of a mnemonic, without the commas between operands. -/
def words (text : String) : List (List Char) := (text.toList.filter (· != ',')).splitOn ' '

theorem filter_eq_self_of_isWord {cs : List Char} (h : isWord cs = true) :
    cs.filter (· != ',') = cs := by
  rw [List.filter_eq_self]
  intro c hc
  simp [(isWord_iff.mp h c hc).2]

theorem filter_intercalate {ws : List (List Char)} (h : ∀ w ∈ ws, isWord w = true) :
    ([',', ' '].intercalate ws).filter (· != ',') = [' '].intercalate ws := by
  induction ws with
  | nil => rfl
  | cons w ws ih =>
    have hw := filter_eq_self_of_isWord (h w (by simp))
    have htail := ih fun v hv => h v (by simp [hv])
    rcases eq_or_ne ws [] with rfl | hne
    · simpa using hw
    · rw [List.intercalate_cons_of_ne_nil hne, List.intercalate_cons_of_ne_nil hne,
        List.filter_append, List.filter_append, hw, htail]
      rfl

theorem words_eq {text : String} {head : List Char} {ws : List (List Char)}
    (ht : text.toList = head ++ if ws = [] then [] else ' ' :: [',', ' '].intercalate ws)
    (hhead : isWord head = true) (hws : ∀ w ∈ ws, isWord w = true) : words text = head :: ws := by
  have hfilter : text.toList.filter (· != ',') = [' '].intercalate (head :: ws) := by
    rw [ht, List.filter_append, filter_eq_self_of_isWord hhead]
    split_ifs with hne
    · simp [hne]
    · rw [List.intercalate_cons_of_ne_nil hne, List.filter_cons, filter_intercalate hws]
      simp
  rw [words, hfilter]
  refine List.splitOn_intercalate _ (fun w hw he => ?_) (List.cons_ne_nil _ _)
  have hword : isWord w = true := by
    rcases List.mem_cons.mp hw with rfl | hw
    · exact hhead
    · exact hws w hw
  exact (isWord_iff.mp hword ' ' he).1 rfl

namespace Operand

/-- The operand that a text stands for: a C is the register. -/
def spelled : Operand → Operand
  | condition .c => register .c
  | o => o

def names : List Operand :=
  [.b, .c, .d, .e, .h, .l, .a, .i, .r].map register ++
  [.bc, .de, .hl, .sp, .af].flatMap (fun p => [pair p, atPair p]) ++
  [.ix, .iy].flatMap (fun i => [high i, low i, index i, atIndex i]) ++
  [.nz, .z, .nc, .po, .pe, .p, .m].map condition ++ [alternate, deviceInC]

def readName? (cs : List Char) : Option Operand := names.find? fun o => o.text.toList == cs

/-- Reads the text of an operand. The number of digits tells bytes from words. -/
def read? : List Char → Option Operand
  | '0' :: 'x' :: cs =>
    (Hex.read? cs).map fun n =>
      if cs.length = 2 then byte (UInt8.ofNat n) else word (UInt16.ofNat n)
  | '(' :: '0' :: 'x' :: cs =>
    (Hex.read? cs.dropLast).map fun n =>
      if cs.length = 3 then device (UInt8.ofNat n) else address (UInt16.ofNat n)
  | '(' :: 'I' :: x :: sign :: '0' :: 'x' :: cs =>
    (Hex.read? cs.dropLast).map fun n =>
      displaced (if x = 'X' then .ix else .iy)
        (if sign = '+' then UInt8.ofNat n else 0 - UInt8.ofNat n)
  | cs => readName? cs <|> (String.ofList cs).toNat?.map number

theorem toList_byte (n : UInt8) : (byte n).text.toList = '0' :: 'x' :: (Hex.byte n).toList := by
  change ("0x" ++ Hex.byte n).toList = _
  simp

theorem toList_word (n : UInt16) : (word n).text.toList = '0' :: 'x' :: (Hex.word n).toList := by
  change ("0x" ++ Hex.word n).toList = _
  simp

theorem toList_device (n : UInt8) :
    (device n).text.toList = '(' :: '0' :: 'x' :: (Hex.byte n).toList ++ [')'] := by
  change ("(0x" ++ Hex.byte n ++ ")").toList = _
  simp

theorem toList_address (a : UInt16) :
    (address a).text.toList = '(' :: '0' :: 'x' :: (Hex.word a).toList ++ [')'] := by
  change ("(0x" ++ Hex.word a ++ ")").toList = _
  simp

theorem toList_displaced (i : IndexRegister) (d : UInt8) :
    (displaced i d).text.toList = '(' :: i.name.toList ++
      (if d < 0x80 then '+' else '-') :: '0' :: 'x' ::
        (Hex.byte (if d < 0x80 then d else 0 - d)).toList ++ [')'] := by
  change ("(" ++ i.name ++ displacementText d ++ ")").toList = _
  by_cases hd : d < 0x80 <;> simp [displacementText, hd]

theorem read?_byte (n : UInt8) : read? (byte n).text.toList = some (byte n) := by
  have hread : read? (byte n).text.toList =
      (Hex.read? (Hex.byte n).toList).map fun m => byte (UInt8.ofNat m) := by
    rw [toList_byte, Hex.toList_byte]
    rfl
  simp [hread, Hex.read?_byte]

theorem read?_word (n : UInt16) : read? (word n).text.toList = some (word n) := by
  have hread : read? (word n).text.toList =
      (Hex.read? (Hex.word n).toList).map fun m => word (UInt16.ofNat m) := by
    rw [toList_word, Hex.toList_word]
    rfl
  simp [hread, Hex.read?_word]

theorem read?_device (n : UInt8) : read? (device n).text.toList = some (device n) := by
  have hread : read? (device n).text.toList =
      (Hex.read? (Hex.byte n).toList).map fun m => device (UInt8.ofNat m) := by
    rw [toList_device, Hex.toList_byte]
    rfl
  simp [hread, Hex.read?_byte]

theorem read?_address (a : UInt16) : read? (address a).text.toList = some (address a) := by
  have hread : read? (address a).text.toList =
      (Hex.read? (Hex.word a).toList).map fun m => address (UInt16.ofNat m) := by
    rw [toList_address, Hex.toList_word]
    rfl
  simp [hread, Hex.read?_word]

theorem read?_displaced (i : IndexRegister) (d : UInt8) :
    read? (displaced i d).text.toList = some (displaced i d) := by
  have hread (sign : Char) (n : UInt8) :
      read? ('(' :: i.name.toList ++ sign :: '0' :: 'x' :: (Hex.byte n).toList ++ [')']) =
        (Hex.read? (Hex.byte n).toList).map fun m =>
          displaced i (if sign = '+' then UInt8.ofNat m else 0 - UInt8.ofNat m) := by
    rw [Hex.toList_byte]
    cases i <;> rfl
  rw [toList_displaced, hread, Hex.read?_byte, Option.map_some, UInt8.ofNat_toNat]
  by_cases hd : d < 0x80 <;> simp [hd]

theorem isDigit_of_mem_number {n : ℕ} {c : Char} (h : c ∈ (number n).text.toList) :
    c.isDigit = true := by
  change c ∈ (Nat.repr n).toList at h
  rw [Nat.toList_repr] at h
  exact Nat.isDigit_of_mem_toDigits (by decide) (by decide) h

theorem readName?_number (n : ℕ) : readName? (number n).text.toList = none := by
  rw [readName?, List.find?_eq_none]
  have hall : ∀ o ∈ names, o.text.toList.any fun c => !c.isDigit := by decide
  intro o ho he
  obtain ⟨c, hc, hd⟩ := List.any_eq_true.mp (hall o ho)
  rw [beq_iff_eq] at he
  rw [he] at hc
  rw [isDigit_of_mem_number hc] at hd
  cases hd

theorem read?_number (n : ℕ) : read? (number n).text.toList = some (number n) := by
  have hread : (String.ofList (number n).text.toList).toNat? = some n := by
    rw [String.ofList_toList]
    exact Nat.toNat?_repr n
  have hdigit : ∀ c ∈ (number n).text.toList, c.isDigit = true := fun c => isDigit_of_mem_number
  have hname := readName?_number n
  generalize (number n).text.toList = cs at hread hdigit hname ⊢
  unfold read?
  split
  · exact absurd (hdigit 'x' (by simp)) (by decide)
  · exact absurd (hdigit 'x' (by simp)) (by decide)
  · exact absurd (hdigit 'x' (by simp)) (by decide)
  · rw [hname, hread]
    rfl

/-- The text of an operand gives it back, up to the two meanings of C. -/
theorem read?_text (o : Operand) : read? o.text.toList = some o.spelled := by
  cases o with
  | register reg => cases reg <;> rfl
  | high i => cases i <;> rfl
  | low i => cases i <;> rfl
  | pair p => cases p <;> rfl
  | alternate => rfl
  | index i => cases i <;> rfl
  | atPair p => cases p <;> rfl
  | atIndex i => cases i <;> rfl
  | displaced i d => exact read?_displaced i d
  | byte n => exact read?_byte n
  | word n => exact read?_word n
  | address a => exact read?_address a
  | device n => exact read?_device n
  | deviceInC => rfl
  | condition test => cases test <;> rfl
  | number n => exact read?_number n

theorem isWord_text (o : Operand) : isWord o.text.toList = true := by
  cases o with
  | register reg => cases reg <;> rfl
  | high i => cases i <;> rfl
  | low i => cases i <;> rfl
  | pair p => cases p <;> rfl
  | alternate => rfl
  | index i => cases i <;> rfl
  | atPair p => cases p <;> rfl
  | atIndex i => cases i <;> rfl
  | displaced i d =>
    rw [toList_displaced]
    by_cases hd : d < 0x80 <;> cases i <;>
      simp [hd, IndexRegister.name, Hex.toList_byte, isWord, Hex.digit_ne]
  | byte n => simp [toList_byte, Hex.toList_byte, isWord, Hex.digit_ne]
  | word n => simp [toList_word, Hex.toList_word, isWord, Hex.digit_ne]
  | address a => simp [toList_address, Hex.toList_word, isWord, Hex.digit_ne]
  | device n => simp [toList_device, Hex.toList_byte, isWord, Hex.digit_ne]
  | deviceInC => rfl
  | condition test => cases test <;> rfl
  | number n =>
    refine isWord_iff.mpr fun c hc => ?_
    have hd := isDigit_of_mem_number hc
    constructor <;> rintro rfl <;> cases hd

end Operand

namespace Operation

def named : List Operation :=
  [nop, halt, di, ei, im, ex, exx, neg, daa, cpl, scf, ccf, ld, push, pop, inc, dec,
    add, adc, sub, sbc, and, xor, or, cp, rlca, rrca, rla, rra, rld, rrd,
    rlc, rrc, rl, rr, sla, sra, sll, srl, bit, res, set,
    jp, jr, djnz, call, ret, reti, retn, rst, input, output,
    ldi, cpi, ini, outi, ldd, cpd, ind, outd, ldir, cpir, inir, otir, lddr, cpdr, indr, otdr]

/-- Whether the name is one word; those of stray prefixes are two. -/
def isNamed : Operation → Bool
  | stray _ => false
  | _ => true

theorem mem_named {o : Operation} (h : o.isNamed = true) : o ∈ named := by
  cases o with
  | stray p => cases h
  | _ => simp [named]

def read? (cs : List Char) : Option Operation := named.find? fun o => o.name.toList == cs

theorem read?_name {o : Operation} (h : o.isNamed = true) : read? o.name.toList = some o := by
  have hall : ∀ o ∈ named, read? o.name.toList = some o := by decide
  exact hall o (mem_named h)

theorem isWord_name {o : Operation} (h : o.isNamed = true) : isWord o.name.toList = true := by
  have hall : ∀ o ∈ named, isWord o.name.toList = true := by decide
  exact hall o (mem_named h)

end Operation

/-- The first word of a mnemonic and the operands behind it. -/
def readLine? (text : String) : Option (List Char × List Operand) :=
  match words text with
  | [] => none
  | head :: ws => (ws.mapM Operand.read?).map fun operands => (head, operands)

theorem mapM_read?_text (os : List Operand) :
    (os.map fun o => o.text.toList).mapM Operand.read? = some (os.map Operand.spelled) := by
  induction os with
  | nil => rfl
  | cons o os ih =>
    rw [List.map_cons, List.mapM_cons, Operand.read?_text, ih]
    rfl

theorem readLine?_of_words {text : String} {head : List Char} {os : List Operand}
    (h : words text = head :: os.map fun o => o.text.toList) :
    readLine? text = some (head, os.map Operand.spelled) := by
  rw [readLine?, h]
  dsimp only
  rw [mapM_read?_text]
  rfl

theorem words_text {s : Statement} (h : s.operation.isNamed = true) :
    words s.text = s.operation.name.toList :: s.operands.map fun o => o.text.toList := by
  refine words_eq ?_ (Operation.isWord_name h) ?_
  · simpa using s.toList_text
  · intro w hw
    obtain ⟨o, -, rfl⟩ := List.mem_map.mp hw
    exact o.isWord_text

theorem words_dataText {bytes : List UInt8} (hne : bytes ≠ []) :
    words (dataText bytes) =
      "DB".toList :: (bytes.map Operand.byte).map fun o => o.text.toList := by
  refine words_eq ?_ (by decide) ?_
  · simp [dataText, hne, Function.comp_def]
  · intro w hw
    obtain ⟨o, -, rfl⟩ := List.mem_map.mp hw
    exact o.isWord_text

theorem readLine?_text {s : Statement} (h : s.operation.isNamed = true) :
    readLine? s.text = some (s.operation.name.toList, s.operands.map Operand.spelled) :=
  readLine?_of_words (words_text h)

theorem readLine?_dataText {bytes : List UInt8} (hne : bytes ≠ []) :
    readLine? (dataText bytes) = some ("DB".toList, bytes.map Operand.byte) := by
  have hspelled : bytes.map Operand.byte = (bytes.map Operand.byte).map Operand.spelled := by
    simp [Operand.spelled]
  rw [hspelled]
  exact readLine?_of_words (words_dataText hne)

end Z80

end SpectrumListing
