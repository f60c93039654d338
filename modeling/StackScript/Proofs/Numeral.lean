/-
# StackScript.Proofs.Numeral — numbers read back as they were written

Two numbers have a text in JSON: an integer its decimal digits, and a finite double its
shortest digits in a layout that always shows a point or an exponent. Both are numerals
that the reader takes apart as they were put together (`Numeral.Writes.ofChars?_eq`).

* The digits of an integer add up to the integer again (`integer_text`).
* The digits of a double have a value that rounds to this double (`shortest_rounds`),
  the layout writes them with their value unchanged (`digitsText_writes`), and what a
  decimal reads as depends on its value alone. So every finite double is read back bit
  for bit (`toFloat?_readsBack`).
-/
import Mathlib
import StackScript.Json.Reader
import StackScript.Proofs.Rounding

namespace StackScript.Number

set_option autoImplicit false

/-! ## Lists of digits -/

/-- Decimal digits, at least one. -/
def Digital (cs : List Char) : Prop :=
  cs ≠ [] ∧ ∀ c ∈ cs, c.isDigit = true

theorem digital_toDigits (n : ℕ) : Digital (Nat.toDigits 10 n) :=
  ⟨Nat.toDigits_ne_nil, fun _ member => Nat.isDigit_of_mem_toDigits (by decide) (by decide) member⟩

theorem ofDigitChars_concat (cs ds : List Char) :
    Nat.ofDigitChars 10 (cs ++ ds) 0 =
      Nat.ofDigitChars 10 cs 0 * 10 ^ ds.length + Nat.ofDigitChars 10 ds 0 := by
  rw [Nat.ofDigitChars_append, Nat.ofDigitChars_eq_ofDigitChars_zero, mul_comm]

/-- No number but zero starts with a zero. -/
theorem toDigits_first {n : ℕ} (some : n ≠ 0) :
    ∃ c cs, Nat.toDigits 10 n = c :: cs ∧ c ≠ '0' := by
  induction n using Nat.strongRecOn with
  | ind n ih =>
    rw [Nat.toDigits_eq_if (by decide)]
    split_ifs with single
    · exact ⟨n.digitChar, [], rfl, mt Nat.digitChar_eq_zero.mp some⟩
    · obtain ⟨c, cs, first, nonzero⟩ := ih (n / 10) (by omega) (by omega)
      exact ⟨c, cs ++ [(n % 10).digitChar], by rw [first, List.cons_append], nonzero⟩

/-- A digit is the digit of its value. -/
theorem toDigits_digit {c : Char} (digit : c.isDigit = true) :
    c.toNat - '0'.toNat < 10 ∧ Nat.toDigits 10 (c.toNat - '0'.toNat) = [c] := by
  obtain ⟨low, high⟩ := Char.isDigit_iff_toNat.mp digit
  have below : c.toNat - '0'.toNat < 10 := by
    change c.toNat ≤ '0'.toNat + 9 at high
    omega
  have code : ∀ d < 10, d.digitChar.toNat = '0'.toNat + d := by decide
  have same : (c.toNat - '0'.toNat).digitChar.toNat = c.toNat := by
    rw [code _ below, Nat.add_sub_cancel' low]
  exact ⟨below, by rw [Nat.toDigits_of_lt_base below, Char.toNat_inj.mp same]⟩

/-- Digits are those of the number they write, behind zeros. -/
theorem Digital.eq_padded {cs : List Char} (digital : Digital cs) :
    ∃ k, cs = List.replicate k '0' ++ Nat.toDigits 10 (Nat.ofDigitChars 10 cs 0) := by
  obtain ⟨some, digits⟩ := digital
  induction cs using List.reverseRecOn with
  | nil => exact absurd rfl some
  | append_singleton cs c ih =>
    obtain ⟨below, last⟩ := toDigits_digit (digits c (by simp))
    rw [Nat.ofDigitChars_append, Nat.ofDigitChars_cons, Nat.ofDigitChars_nil]
    by_cases single : cs = []
    · exact ⟨0, by simpa [single] using last.symm⟩
    obtain ⟨k, padded⟩ := ih single fun d member => digits d (by simp [member])
    by_cases zero : Nat.ofDigitChars 10 cs 0 = 0
    · -- what stands before is only zeros, and all of it goes to the padding
      refine ⟨k + 1, ?_⟩
      rw [zero] at padded ⊢
      rw [mul_zero, zero_add, last, List.replicate_succ', padded]
      rfl
    · refine ⟨k, ?_⟩
      rw [← Nat.toDigits_append_toDigits (by decide) (Nat.pos_of_ne_zero zero) below, last,
        ← List.append_assoc, ← padded]

theorem digital_padded (k n : ℕ) : Digital (List.replicate k '0' ++ Nat.toDigits 10 n) := by
  obtain ⟨some, digits⟩ := digital_toDigits n
  refine ⟨List.append_ne_nil_of_right_ne_nil _ some, fun c member => ?_⟩
  rcases List.mem_append.mp member with zero | digit
  · rw [List.eq_of_mem_replicate zero]
    rfl
  · exact digits c digit

theorem ofDigitChars_padded (k n : ℕ) :
    Nat.ofDigitChars 10 (List.replicate k '0' ++ Nat.toDigits 10 n) 0 = n := by
  rw [ofDigitChars_concat, Nat.ofDigitChars_replicate_zero, mul_zero, zero_mul, zero_add,
    Nat.ofDigitChars_ten_toDigits]

/-! ## Words -/

theorem unsigned_digital {digits : List Char} (digital : Digital digits) (cs : List Char) :
    unsigned cs = digits ↔ ∃ sign, (sign = [] ∨ sign = ['+']) ∧ cs = sign ++ digits := by
  constructor
  · rintro rfl
    unfold unsigned
    split
    · exact ⟨['+'], .inr rfl, rfl⟩
    · exact ⟨[], .inl rfl, rfl⟩
  · rintro ⟨sign, rfl | rfl, rfl⟩
    · unfold unsigned
      split
      · -- a plus sign is no digit
        exact absurd (digital.2 '+' List.mem_cons_self) (by decide)
      · rfl
    · rfl

/-- A number of 64 bits is read from its digits, perhaps behind zeros, perhaps behind a plus
sign, and from nothing else. -/
theorem readWord?_eq_some {text : String} {n : ℕ} :
    readWord? text = some n ↔ n < 2 ^ 64 ∧ ∃ sign zeros, (sign = [] ∨ sign = ['+']) ∧
      text.toList = sign ++ (List.replicate zeros '0' ++ Nat.toDigits 10 n) := by
  have checked : readWord? text = some n ↔ Digital (unsigned text.toList) ∧
      Nat.ofDigitChars 10 (unsigned text.toList) 0 = n ∧ n < 2 ^ 64 := by
    simp only [readWord?, wordBound, Digital]
    grind
  rw [checked]
  constructor
  · rintro ⟨digital, value, bounded⟩
    obtain ⟨zeros, padded⟩ := digital.eq_padded
    obtain ⟨sign, isSign, whole⟩ := (unsigned_digital digital text.toList).mp rfl
    rw [value] at padded
    exact ⟨bounded, sign, zeros, isSign, padded ▸ whole⟩
  · rintro ⟨bounded, sign, zeros, isSign, whole⟩
    have digital := digital_padded zeros n
    rw [(unsigned_digital digital text.toList).mpr ⟨sign, isSign, whole⟩]
    exact ⟨digital, ofDigitChars_padded zeros n, bounded⟩

/-! ## Significant digits -/

/-- The number that the digits stand for. -/
def Digits.value (d : Digits) : ℚ :=
  Nat.ofDigitChars 10 d.digits 0 * 10 ^ (d.leading + 1 - d.digits.length)

structure Digits.WellFormed (d : Digits) : Prop where
  digital : ∀ c ∈ d.digits, c.isDigit = true
  first : ∃ c cs, d.digits = c :: cs ∧ c ≠ '0'

theorem exists_trailing_zeros (cs : List Char) :
    ∃ k, cs = (cs.reverse.dropWhile (· == '0')).reverse ++ List.replicate k '0' := by
  refine ⟨(cs.reverse.takeWhile (· == '0')).length, ?_⟩
  have zeros : cs.reverse.takeWhile (· == '0') =
      List.replicate (cs.reverse.takeWhile (· == '0')).length '0' := by
    refine List.eq_replicate_iff.mpr ⟨rfl, fun c member => ?_⟩
    simpa using List.mem_takeWhile_imp member
  have split := congrArg List.reverse
    (List.takeWhile_append_dropWhile (p := (· == '0')) (l := cs.reverse))
  rw [List.reverse_append, List.reverse_reverse, zeros, List.reverse_replicate] at split
  exact split.symm

theorem Digits.ofNat_value (n : ℕ) (place : ℤ) : (Digits.ofNat n place).value = n * 10 ^ place := by
  obtain ⟨k, whole⟩ := exists_trailing_zeros (Nat.toDigits 10 n)
  have number : Nat.ofDigitChars 10 (Nat.toDigits 10 n) 0 = n := Nat.ofDigitChars_ten_toDigits
  have length := congrArg List.length whole
  simp only [Digits.value, Digits.ofNat]
  generalize ((Nat.toDigits 10 n).reverse.dropWhile (· == '0')).reverse = kept at whole length ⊢
  rw [whole, ofDigitChars_concat, Nat.ofDigitChars_replicate_zero, mul_zero, List.length_replicate, add_zero] at number
  rw [List.length_append, List.length_replicate] at length
  have exponent : place + (Nat.toDigits 10 n).length - 1 + 1 - kept.length = k + place := by omega
  rw [exponent, zpow_add₀ (by norm_num), zpow_natCast, ← mul_assoc, ← number]
  push_cast
  rfl

theorem Digits.ofNat_wellFormed {n : ℕ} (some : n ≠ 0) (place : ℤ) :
    (Digits.ofNat n place).WellFormed := by
  obtain ⟨k, whole⟩ := exists_trailing_zeros (Nat.toDigits 10 n)
  have number : Nat.ofDigitChars 10 (Nat.toDigits 10 n) 0 = n := Nat.ofDigitChars_ten_toDigits
  obtain ⟨_, digital⟩ := digital_toDigits n
  obtain ⟨c, cs, first, nonzero⟩ := toDigits_first some
  generalize stripped : (Digits.ofNat n place).digits = kept
  change ((Nat.toDigits 10 n).reverse.dropWhile (· == '0')).reverse = kept at stripped
  rw [stripped] at whole
  refine ⟨fun c member => ?_, ?_⟩
  · exact digital c (by rw [whole]; exact List.mem_append_left _ (stripped ▸ member))
  cases kept with
  | nil =>
    rw [whole, List.nil_append, Nat.ofDigitChars_replicate_zero, mul_zero] at number
    exact absurd number.symm some
  | cons d ds =>
    rw [whole, List.cons_append] at first
    exact ⟨d, ds, stripped, by rw [(List.cons.inj first).1]; exact nonzero⟩

/-! ## Numerals -/

namespace Numeral

def spellFraction : Option (List Char) → List Char
  | none => []
  | some digits => '.' :: digits

/-- The exponent, with the sign that stands where it is not negative. -/
def spellExponent (plus : List Char) : Option (Bool × List Char) → List Char
  | none => []
  | some (negative, digits) => 'e' :: ((if negative then ['-'] else plus) ++ digits)

/-- The characters write the numeral. -/
structure Writes (n : Numeral) (cs : List Char) : Prop where
  whole : isWhole n.whole = true
  digital : ∀ c ∈ n.whole, c.isDigit = true
  fraction : ∀ digits, n.fraction = some digits → Digital digits
  exponent : ∀ negative digits, n.exponent = some (negative, digits) → Digital digits
  spelled : ∃ plus, (plus = [] ∨ plus = ['+']) ∧
    cs = (if n.negative then ['-'] else []) ++
      (n.whole ++ (spellFraction n.fraction ++ spellExponent plus n.exponent))

theorem isWhole_first {cs : List Char} (whole : isWhole cs = true) : ∃ c ds, cs = c :: ds := by
  cases cs with
  | nil => cases whole
  | cons c ds => exact ⟨c, ds, rfl⟩

theorem isWhole_cons {c : Char} (nonzero : c ≠ '0') (cs : List Char) : isWhole (c :: cs) = true := by
  cases cs <;> simp [isWhole, nonzero]

theorem isWhole_toDigits (n : ℕ) : isWhole (Nat.toDigits 10 n) = true := by
  by_cases zero : n = 0
  · rw [zero]
    decide
  · obtain ⟨c, cs, first, nonzero⟩ := toDigits_first zero
    rw [first]
    exact isWhole_cons nonzero cs

/-- Digits end where something else follows. -/
theorem takeWhile_digits {digits rest : List Char} (digital : ∀ c ∈ digits, c.isDigit = true)
    (ends : ∀ c ∈ rest.head?, c.isDigit = false) :
    (digits ++ rest).takeWhile Char.isDigit = digits ∧
      (digits ++ rest).dropWhile Char.isDigit = rest := by
  rw [List.takeWhile_append_of_pos digital, List.dropWhile_append_of_pos digital]
  cases rest with
  | nil => simp
  | cons c rest =>
    have other := ends c rfl
    simp [other]

theorem spellExponent_head {plus : List Char} {exponent : Option (Bool × List Char)} :
    ∀ c ∈ (spellExponent plus exponent).head?, c = 'e' := by
  cases exponent with
  | none => nofun
  | some exponent =>
    rintro c found
    cases found
    rfl

theorem readFraction_spell {fraction : Option (List Char)}
    (digital : ∀ digits, fraction = some digits → Digital digits) {rest : List Char}
    (ends : ∀ c ∈ rest.head?, c = 'e') :
    readFraction (spellFraction fraction ++ rest) = some (fraction, rest) := by
  cases fraction with
  | none =>
    cases rest with
    | nil => rfl
    | cons c rest =>
      cases ends c rfl
      rfl
  | some digits =>
    obtain ⟨nonempty, digital⟩ := digital digits rfl
    have after : ∀ c ∈ rest.head?, c.isDigit = false := by
      intro c found
      rw [ends c found]
      decide
    obtain ⟨taken, dropped⟩ := takeWhile_digits digital after
    obtain ⟨d, ds, rfl⟩ := List.exists_cons_of_ne_nil nonempty
    simp only [spellFraction, List.cons_append, readFraction]
    rw [← List.cons_append, taken, dropped]

theorem readSign_spell (negative : Bool) {plus digits : List Char} (sign : plus = [] ∨ plus = ['+'])
    (digital : Digital digits) :
    readSign ((if negative then ['-'] else plus) ++ digits) = (negative, digits) := by
  obtain ⟨nonempty, digital⟩ := digital
  obtain ⟨d, ds, rfl⟩ := List.exists_cons_of_ne_nil nonempty
  have first := digital d (by simp)
  cases negative with
  | true => rfl
  | false =>
    rcases sign with rfl | rfl
    · unfold readSign
      split
      · rename_i same
        cases same
        cases first
      · rename_i same
        cases same
        cases first
      · rfl
    · rfl

theorem readExponent_spell {exponent : Option (Bool × List Char)} {plus : List Char}
    (sign : plus = [] ∨ plus = ['+'])
    (digital : ∀ negative digits, exponent = some (negative, digits) → Digital digits) :
    readExponent (spellExponent plus exponent) = some (exponent, []) := by
  cases exponent with
  | none => rfl
  | some exponent =>
    obtain ⟨negative, digits⟩ := exponent
    have digital := digital negative digits rfl
    have ends : ∀ c ∈ ([] : List Char).head?, c.isDigit = false := nofun
    obtain ⟨taken, dropped⟩ := takeWhile_digits digital.2 ends
    rw [List.append_nil] at taken dropped
    simp only [spellExponent, readExponent, readSign_spell negative sign digital, taken, dropped]
    obtain ⟨d, ds, rfl⟩ := List.exists_cons_of_ne_nil digital.1
    simp

/-- A minus can be told from a digit. -/
theorem sign_spell (negative : Bool) {whole : List Char} (isWhole : isWhole whole = true)
    (digital : ∀ c ∈ whole, c.isDigit = true) (tail : List Char) :
    (((if negative then ['-'] else []) ++ (whole ++ tail)).head? == some '-') = negative ∧
      (if negative then ((if negative then ['-'] else []) ++ (whole ++ tail)).tail
        else (if negative then ['-'] else []) ++ (whole ++ tail)) = whole ++ tail := by
  obtain ⟨c, ds, rfl⟩ := isWhole_first isWhole
  have other : c ≠ '-' := by
    rintro rfl
    cases digital '-' (by simp)
  cases negative <;> simp [other]

namespace Writes

variable {n : Numeral} {cs : List Char}

/-- A numeral is taken apart as it was put together. -/
theorem ofChars?_eq (writes : n.Writes cs) : ofChars? cs = some n := by
  obtain ⟨isWhole, digital, fractional, exponential, plus, sign, rfl⟩ := writes
  have ends : ∀ c ∈ (spellFraction n.fraction ++ spellExponent plus n.exponent).head?,
      c.isDigit = false := by
    cases n.fraction with
    | none =>
      intro c found
      rw [spellExponent_head c found]
      decide
    | some digits =>
      intro c found
      cases found
      decide
  obtain ⟨taken, dropped⟩ := takeWhile_digits digital ends
  obtain ⟨signed, unsigned⟩ := sign_spell n.negative isWhole digital
    (spellFraction n.fraction ++ spellExponent plus n.exponent)
  simp only [ofChars?, signed, unsigned, taken, dropped, isWhole, if_true,
    readFraction_spell fractional spellExponent_head, readExponent_spell sign exponential]

theorem numeric (writes : n.Writes cs) : ∀ c ∈ cs, Json.Reader.isNumeric c = true := by
  have digit {digits : List Char} (digital : ∀ c ∈ digits, c.isDigit = true) :
      ∀ c ∈ digits, Json.Reader.isNumeric c = true := by
    intro c member
    simp [Json.Reader.isNumeric, digital c member]
  have signs {plus : List Char} (sign : plus = [] ∨ plus = ['+']) (negative : Bool) :
      ∀ c ∈ (if negative then ['-'] else plus), Json.Reader.isNumeric c = true := by
    rcases sign with rfl | rfl <;> cases negative <;> simp [Json.Reader.isNumeric]
  obtain ⟨_, digital, fractional, exponential, plus, sign, rfl⟩ := writes
  simp only [List.forall_mem_append]
  refine ⟨signs (.inl rfl) n.negative, digit digital, ?_, ?_⟩
  · cases found : n.fraction with
    | none => nofun
    | some digits =>
      exact List.forall_mem_cons.mpr ⟨by decide, digit (fractional digits found).2⟩
  · cases found : n.exponent with
    | none => nofun
    | some exponent =>
      obtain ⟨negative, digits⟩ := exponent
      refine List.forall_mem_cons.mpr ⟨by decide, List.forall_mem_append.mpr ⟨?_, ?_⟩⟩
      · exact signs sign negative
      · exact digit (exponential negative digits found).2

theorem first (writes : n.Writes cs) : ∃ c ds, cs = c :: ds ∧ (c = '-' ∨ c.isDigit = true) := by
  obtain ⟨isWhole, digital, _, _, plus, _, rfl⟩ := writes
  obtain ⟨c, ds, whole⟩ := isWhole_first isWhole
  rw [whole] at digital ⊢
  cases n.negative with
  | true => exact ⟨'-', _, rfl, .inl rfl⟩
  | false => exact ⟨c, _, rfl, .inr (digital c (by simp))⟩

end Writes

end Numeral

/-! ## Layouts -/

/-- The characters write the value, with a point or an exponent. -/
structure WritesValue (cs : List Char) (negative : Bool) (value : ℚ) (n : Numeral) : Prop where
  writes : n.Writes ((if negative then ['-'] else []) ++ cs)
  negative : n.negative = negative
  notInteger : n.isInteger = false
  value : n.toDecimal.magnitude = value

theorem pointed_writes (negative : Bool) {whole fraction : List Char} {value : ℚ}
    (isWhole : Numeral.isWhole whole = true) (digital : ∀ c ∈ whole, c.isDigit = true)
    (fractional : Digital fraction)
    (same : Nat.ofDigitChars 10 (whole ++ fraction) 0 * 10 ^ (-(fraction.length : ℤ)) = value) :
    ∃ n, WritesValue (whole ++ '.' :: fraction) negative value n := by
  refine ⟨⟨negative, whole, some fraction, none⟩, ⟨isWhole, digital, ?_, nofun, [], .inl rfl, ?_⟩,
    rfl, rfl, ?_⟩
  · intro digits found
    cases found
    exact fractional
  · simp [Numeral.spellFraction, Numeral.spellExponent]
  · rw [← same]
    simp [Numeral.toDecimal, Decimal.magnitude]

theorem digital_zeros (k : ℕ) : ∀ c ∈ List.replicate k '0', c.isDigit = true := by
  intro c member
  rw [List.eq_of_mem_replicate member]
  decide

section Layouts

variable {d : Digits} (wellFormed : d.WellFormed) (negative : Bool)

include wellFormed

theorem positionalText_writes :
    ∃ n, WritesValue (Layout.positionalText ['.', '0'] d) negative d.value n := by
  obtain ⟨digital, c, cs, first, nonzero⟩ := wellFormed
  have nonempty : d.digits ≠ [] := by
    rw [first]
    exact List.cons_ne_nil c cs
  unfold Layout.positionalText
  dsimp only
  split_ifs with small short
  · -- zeros stand between the point and the digits
    generalize padded : (-d.leading - 1).toNat = k
    have digits : Nat.ofDigitChars 10 (['0'] ++ (List.replicate k '0' ++ d.digits)) 0 = Nat.ofDigitChars 10 d.digits 0 := by
      rw [← List.append_assoc, List.singleton_append, ← List.replicate_succ, ofDigitChars_concat,
        Nat.ofDigitChars_replicate_zero, mul_zero]
      simp
    have exponent : -((List.replicate k '0' ++ d.digits).length : ℤ) =
        d.leading + 1 - d.digits.length := by
      rw [List.length_append, List.length_replicate]
      omega
    rw [← List.singleton_append]
    refine pointed_writes negative rfl (digital_zeros 1) ⟨?_, ?_⟩ ?_
    · exact List.append_ne_nil_of_right_ne_nil _ nonempty
    · exact List.forall_mem_append.mpr ⟨digital_zeros k, digital⟩
    · rw [digits, exponent, Digits.value]
  · -- the digits are filled up to a whole number
    generalize filled : d.leading.toNat + 1 - d.digits.length = k
    have digits : Nat.ofDigitChars 10 (d.digits ++ List.replicate k '0' ++ ['0']) 0 =
        Nat.ofDigitChars 10 d.digits 0 * 10 ^ (k + 1) := by
      rw [List.append_assoc, ← List.replicate_succ', ofDigitChars_concat, Nat.ofDigitChars_replicate_zero, mul_zero,
        List.length_replicate, add_zero]
    have exponent : d.leading + 1 - d.digits.length = (k + 1 : ℕ) + -(['0'].length : ℤ) := by
      rw [List.length_singleton]
      omega
    refine pointed_writes negative ?_ ?_ ⟨List.cons_ne_nil _ _, digital_zeros 1⟩ ?_
    · rw [first]
      exact Numeral.isWhole_cons nonzero _
    · exact List.forall_mem_append.mpr ⟨digital, digital_zeros k⟩
    · rw [digits, Digits.value, exponent, zpow_add₀ (by norm_num), zpow_natCast, ← mul_assoc]
      push_cast
      rfl
  · -- the point stands among the digits
    generalize wide : d.leading.toNat + 1 = width at short ⊢
    have long : (d.digits.drop width).length = d.digits.length - width := List.length_drop
    have exponent : -((d.digits.drop width).length : ℤ) = d.leading + 1 - d.digits.length := by
      rw [long]
      omega
    refine pointed_writes negative ?_ ?_ ⟨?_, ?_⟩ ?_
    · rw [first, ← wide, List.take_succ_cons]
      exact Numeral.isWhole_cons nonzero _
    · exact fun c member => digital c (List.mem_of_mem_take member)
    · intro empty
      rw [empty, List.length_nil] at long
      omega
    · exact fun c member => digital c (List.mem_of_mem_drop member)
    · rw [List.take_append_drop, exponent, Digits.value]

theorem exponentialText_writes :
    ∃ n, WritesValue (Layout.exponentialText ['+'] d) negative d.value n := by
  obtain ⟨digital, c, cs, first, nonzero⟩ := wellFormed
  rw [first] at digital
  obtain ⟨digit, digital⟩ := List.forall_mem_cons.mp digital
  have exponent : (if d.leading < 0 then -(d.leading.natAbs : ℤ) else d.leading.natAbs) = d.leading := by
    split_ifs <;> omega
  have place : d.leading - cs.length = d.leading + 1 - d.digits.length := by
    rw [first, List.length_cons]
    omega
  have value (fraction : Option (List Char)) (digits : fraction.getD [] = cs) :
      (Numeral.mk negative [c] fraction
        (some (decide (d.leading < 0), Nat.toDigits 10 d.leading.natAbs))).toDecimal.magnitude =
        d.value := by
    simp only [Numeral.toDecimal, Decimal.magnitude, digits, Nat.ofDigitChars_ten_toDigits, decide_eq_true_eq,
      exponent, place, Digits.value, List.singleton_append, ← first]
  have writes (fraction : Option (List Char)) (fractional : ∀ ds, fraction = some ds → Digital ds) :
      (Numeral.mk negative [c] fraction
        (some (decide (d.leading < 0), Nat.toDigits 10 d.leading.natAbs))).Writes
          ((if negative then ['-'] else []) ++ ([c] ++ (Numeral.spellFraction fraction ++
            'e' :: ((if d.leading < 0 then ['-'] else ['+']) ++ Nat.toDigits 10 d.leading.natAbs)))) := by
    refine ⟨Numeral.isWhole_cons nonzero [], by simpa using digit, fractional, ?_, ['+'], .inr rfl, ?_⟩
    · intro _ _ same
      cases same
      exact digital_toDigits _
    · simp [Numeral.spellExponent]
  simp only [Layout.exponentialText, first, List.drop_succ_cons, List.drop_zero, List.take_succ_cons,
    List.take_zero]
  cases cs with
  | nil =>
    have fractional : ∀ ds, none = some ds → Digital ds := by
      intro ds same
      cases same
    exact ⟨_, by simpa [Numeral.spellFraction] using writes none fractional, rfl, rfl, value none rfl⟩
  | cons next cs =>
    have fractional : ∀ ds, some (next :: cs) = some ds → Digital ds := by
      intro ds same
      cases same
      exact ⟨List.cons_ne_nil next cs, digital⟩
    exact ⟨_, by simpa [Numeral.spellFraction] using writes _ fractional, rfl, rfl, value _ rfl⟩

/-- The layout of JSON keeps the value, and shows that it is not an integer. -/
theorem digitsText_writes : ∃ n, WritesValue (Layout.json.digitsText d) negative d.value n := by
  unfold Layout.digitsText
  split_ifs
  · exact positionalText_writes wellFormed negative
  · exact exponentialText_writes wellFormed negative

end Layouts

/-! ## Shortest digits -/

/-- A decimal that reads as a double rounds to it. -/
theorem rounds_of_readsBack {magnitude n : ℕ} {place : ℤ} (finite : magnitude < infiniteMagnitude)
    (back : readsBack (ofMagnitude false magnitude) n place = true) :
    Rounds (n * 10 ^ place) magnitude := by
  let d : Decimal := { negative := false, digits := n, exponent := place }
  obtain ⟨bits, rounds⟩ := exists_rounds d.magnitude_nonneg
  unfold readsBack at back
  rw [d.toFloat?_eq rounds, ofMagnitude?] at back
  split_ifs at back with small
  have same : (ofMagnitude false bits).toBits.toNat = (ofMagnitude false magnitude).toBits.toNat := by
    rw [beq_iff_eq.mp back]
  rw [toBits_ofMagnitude false small, toBits_ofMagnitude false finite] at same
  have equal : bits = magnitude := same
  rwa [equal] at rounds

/-- The exact expansion of a double. -/
theorem exactDigits_value (mantissa : ℕ) (exponent : ℤ) :
    ((mantissa * Nat.pow 2 exponent.toNat * Nat.pow 5 (-exponent).toNat : ℕ) : ℚ) * 10 ^ min exponent 0 =
      mantissa * 2 ^ exponent := by
  rcases le_total 0 exponent with above | below
  · obtain ⟨k, rfl⟩ := Int.eq_ofNat_of_zero_le above
    have none : (-(k : ℤ)).toNat = 0 := by omega
    simp [none, above]
  · obtain ⟨k, same⟩ := Int.eq_ofNat_of_zero_le (Int.neg_nonneg_of_nonpos below)
    obtain rfl : exponent = -k := by omega
    have none : (-(k : ℤ)).toNat = 0 := by omega
    have ten : (10 : ℚ) ^ k = 2 ^ k * 5 ^ k := by
      rw [← mul_pow]
      norm_num
    simp only [none, neg_neg, Int.toNat_natCast, min_eq_left below, Nat.pow_eq, pow_zero, mul_one,
      zpow_neg, zpow_natCast, Nat.cast_mul, Nat.cast_pow, ten]
    field_simp
    norm_num

/-- The shortest digits of a double round to it. -/
theorem shortest_rounds (tie : Tie) {magnitude mantissa : ℕ} {exponent : ℤ}
    (finite : magnitude < infiniteMagnitude)
    (found : parts (ofMagnitude false magnitude) = .finite false mantissa exponent)
    (some : mantissa ≠ 0) :
    (shortest tie (ofMagnitude false magnitude) mantissa exponent).WellFormed ∧
      Rounds (shortest tie (ofMagnitude false magnitude) mantissa exponent).value magnitude := by
  suffices digits : ∃ (n : ℕ) (place : ℤ), n ≠ 0 ∧ Rounds (n * 10 ^ place) magnitude ∧
      shortest tie (ofMagnitude false magnitude) mantissa exponent = .ofNat n place by
    obtain ⟨n, place, nonzero, rounds, same⟩ := digits
    rw [same, Digits.ofNat_value]
    exact ⟨Digits.ofNat_wellFormed nonzero place, rounds⟩
  unfold shortest
  dsimp only
  generalize grid : (List.range 17).findSome? _ = hit
  cases hit with
  | none =>
    have self := rounds_self found
    rw [toBits_ofMagnitude false finite, (split_bits false finite).2] at self
    refine ⟨_, _, ?_, ?_, rfl⟩
    · have two : 0 < Nat.pow 2 exponent.toNat := Nat.pow_pos (by decide)
      have five : 0 < Nat.pow 5 (-exponent).toNat := Nat.pow_pos (by decide)
      exact Nat.mul_ne_zero (Nat.mul_ne_zero some two.ne') five.ne'
    · rwa [exactDigits_value]
  | some digits =>
    obtain ⟨k, _, onGrid⟩ := List.exists_of_findSome?_eq_some grid
    obtain ⟨n, near, rfl⟩ := Option.map_eq_some_iff.mp onGrid
    have back := List.find?_some (p := fun n => readsBack (ofMagnitude false magnitude) n _) near
    have rounds := rounds_of_readsBack finite back
    refine ⟨n, _, ?_, rounds, rfl⟩
    rintro rfl
    have zero : magnitude = 0 := rounds.unique (by simpa using rounds_zero)
    subst zero
    rw [parts_ofMagnitude false finite] at found
    cases found
    exact some rfl

end StackScript.Number

namespace StackScript.Json.Reader

open Number

/-! ## The texts of numbers -/

/-- The characters of a number: a reader takes them for one, and gives this value. -/
structure NumberText (round : Rounding) (cs : List Char) (value : Json) : Prop where
  numeric : ∀ c ∈ cs, isNumeric c = true
  first : ∃ c ds, cs = c :: ds ∧ (c = '-' ∨ c.isDigit = true)
  value : numberValue? round cs.reverse = some value

/-- Every finite double is read as the double it is, bit for bit. -/
def Rounding.ReadsBack (round : Rounding) : Prop :=
  ∀ (x : Float) (finite : isFinite x = true),
    NumberText round (Layout.json.text x).toList (.float x finite)

/-- An integer of 64 bits is read as the integer it is. -/
theorem integer_text (round : Rounding) {n : ℤ} (least : -(wordBound : ℤ) ≤ 2 * n) (most : n < wordBound) :
    NumberText round (toString n).toList (.integer n) := by
  have text : (toString n).toList =
      (if decide (n < 0) then ['-'] else []) ++ (Nat.toDigits 10 n.natAbs ++ ([] ++ [])) := by
    rw [Int.toString_eq_repr, Int.repr_eq_if]
    by_cases negative : n < 0
    · have abs : (-n).toNat = n.natAbs := by omega
      rw [if_neg (by omega), abs]
      simp [negative]
    · have abs : n.toNat = n.natAbs := by omega
      rw [if_pos (by omega), abs]
      simp [negative]
  have writes : Numeral.Writes ⟨decide (n < 0), Nat.toDigits 10 n.natAbs, none, none⟩ (toString n).toList :=
    ⟨Numeral.isWhole_toDigits _, (digital_toDigits _).2, nofun, nofun, [], .inl rfl, text⟩
  refine ⟨writes.numeric, writes.first, ?_⟩
  unfold numberValue?
  rw [List.reverse_reverse, writes.ofChars?_eq]
  simp only [Numeral.isInteger, Nat.ofDigitChars_ten_toDigits, Option.isNone_none, Bool.and_self, Bool.true_and]
  by_cases negative : n < 0
  · have nonzero : n.natAbs ≠ 0 := by omega
    have small : 2 * n.natAbs ≤ wordBound := by omega
    have abs : -(n.natAbs : ℤ) = n := by omega
    rw [abs]
    simp [negative, nonzero, small]
  · have small : n.natAbs < wordBound := by omega
    have abs : (n.natAbs : ℤ) = n := by omega
    rw [abs]
    simp [negative, small]

/-- A numeral whose value rounds to a double is read as this double. -/
theorem numberText_of_rounds {cs : List Char} {value : ℚ} {n : Numeral} {negative : Bool}
    {magnitude : ℕ} {x : Float} (finite : isFinite x = true) (written : WritesValue cs negative value n)
    (rounds : Rounds value magnitude) (small : magnitude < infiniteMagnitude)
    (same : ofMagnitude negative magnitude = x) :
    NumberText Numeral.toFloat? ((if negative then ['-'] else []) ++ cs) (.float x finite) := by
  refine ⟨written.writes.numeric, written.writes.first, ?_⟩
  have nearest : n.toFloat? = some x := by
    rw [Numeral.toFloat?, n.toDecimal.toFloat?_eq (written.value ▸ rounds), ofMagnitude?, if_pos small]
    show some (ofMagnitude n.negative magnitude) = some x
    rw [written.negative, same]
  unfold numberValue?
  rw [List.reverse_reverse, written.writes.ofChars?_eq]
  simp only [written.notInteger, nearest, finite, Bool.false_and, dif_pos]
  rfl

/-- Exact rounding reads every finite double back. -/
theorem toFloat?_readsBack : Rounding.ReadsBack Numeral.toFloat? := by
  intro x finite
  cases found : parts x with
  | nan => simp [isFinite, found] at finite
  | infinite negative => simp [isFinite, found] at finite
  | finite negative mantissa exponent =>
    have made := finiteParts found
    have text : (Layout.json.text x).toList = (if negative then ['-'] else []) ++
        Layout.json.magnitudeText (ofMagnitude false (x.toBits.toNat % signBit)) mantissa exponent := by
      cases negative <;> simp [Layout.text, found]
    have rounds := rounds_self found
    rw [text, Layout.magnitudeText]
    by_cases zero : mantissa = 0
    · rw [if_pos zero]
      obtain ⟨n, written⟩ := pointed_writes negative rfl (digital_zeros 1)
        ⟨List.cons_ne_nil '0' [], digital_zeros 1⟩ rfl
      refine numberText_of_rounds finite written ?_ made.finite made.ofMagnitude_eq
      simpa [zero, Nat.ofDigitChars_cons] using rounds
    · rw [if_neg zero]
      have unsigned : parts (ofMagnitude false (x.toBits.toNat % signBit)) =
          .finite false mantissa exponent := by
        rw [parts_ofMagnitude false made.finite]
        unfold parts partsOfMagnitude at found
        unfold partsOfMagnitude
        dsimp only at found ⊢
        split_ifs at found ⊢ <;> cases found <;> rfl
      obtain ⟨wellFormed, rounds⟩ := shortest_rounds .even made.finite unsigned zero
      obtain ⟨n, written⟩ := digitsText_writes wellFormed negative
      exact numberText_of_rounds finite written rounds made.finite made.ofMagnitude_eq

end StackScript.Json.Reader
