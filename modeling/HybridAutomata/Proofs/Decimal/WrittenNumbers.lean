import HybridAutomata.Expr.Printer
import HybridAutomata.Proofs.Decimal.Doubles
import HybridAutomata.Proofs.Expr.Scanning

/-!
# Written numbers

The program writes a finite double as digits with at most one point among them, behind a minus sign
if its sign bit is set. The digits are read without loss: as a decimal that stands for the same
number as the one that was written. The scanner takes the sign and the digits apart.
-/

namespace HybridAutomata

/-! ## Written digits -/

namespace Decimal

open Token

theorem isNumberChar_of_isDigit {c : Char} (h : c.isDigit = true) : isNumberChar c = true := by
  rw [isNumberChar, h, Bool.true_or]

theorem isNumberText_append {w w' : List Char} (h : IsNumberText w)
    (all : ∀ c ∈ w', isNumberChar c = true) : IsNumberText (w ++ w') := by
  obtain ⟨c, rest, rfl, digit⟩ := h.digit
  refine ⟨⟨c, rest ++ w', rfl, digit⟩, fun d mem => ?_⟩
  obtain front | back := List.mem_append.mp mem
  · exact h.all d front
  · exact all d back

theorem isNumberText_of_isDigit {w : List Char} (nonempty : w ≠ [])
    (all : ∀ c ∈ w, c.isDigit = true) : IsNumberText w := by
  obtain ⟨c, rest, rfl⟩ := List.exists_cons_of_ne_nil nonempty
  exact ⟨⟨c, rest, rfl, all c (by simp)⟩, fun d mem => isNumberChar_of_isDigit (all d mem)⟩

theorem isNumberText_toDigits (n : Nat) : IsNumberText (Nat.toDigits 10 n) :=
  isNumberText_of_isDigit Nat.toDigits_ne_nil
    fun _ mem => Nat.isDigit_of_mem_toDigits (by decide) (by decide) mem

theorem isNumberChar_zeros (n : Nat) : ∀ c ∈ (zeros n).toList, isNumberChar c = true := by
  intro c mem
  rw [zeros, String.toList_ofList] at mem
  rw [List.eq_of_mem_replicate mem]
  rfl

/-- Positional notation consists of digits and at most one point, with a digit in front. -/
theorem isNumberText_positional (d : Decimal) : IsNumberText d.positional.toList := by
  have digits := isNumberText_toDigits d.digits
  simp only [positional]
  split
  · rw [String.toList_append, digitText, String.toList_ofList]
    exact isNumberText_append digits (isNumberChar_zeros _)
  split
  · next places =>
      have nonempty : (Nat.toDigits 10 d.digits).take
          ((Nat.toDigits 10 d.digits).length - d.exponent.natAbs) ≠ [] := by
        rw [← List.length_pos_iff, List.length_take]
        omega
      have whole := isNumberText_of_isDigit nonempty fun c mem =>
        Nat.isDigit_of_mem_toDigits (by decide) (by decide) (List.mem_of_mem_take mem)
      have point : ∀ c ∈ ".".toList, isNumberChar c = true := List.all_eq_true.mp rfl
      simp only [String.toList_append, String.toList_ofList]
      exact isNumberText_append (isNumberText_append whole point) fun c mem =>
        digits.all c (List.mem_of_mem_drop mem)
  · have zero : IsNumberText "0.".toList := isNumberText_of_all rfl rfl
    simp only [String.toList_append, digitText, String.toList_ofList]
    exact isNumberText_append (isNumberText_append zero (isNumberChar_zeros _)) digits.all

end Decimal

/-! ## Written numbers -/

namespace Numeral

open Token

theorem toLower_of_isDigit {c : Char} (h : c.isDigit = true) : c.toLower = c := by
  refine dif_neg fun upper => ?_
  simp only [Char.isDigit] at h
  grind

theorem ofList?_eq {w : List Char} (isNumber : IsNumberText w) :
    ofList? w = decimalOf? false w ∧ ofList? ('-' :: w) = decimalOf? true w := by
  obtain ⟨c, rest, rfl, digit⟩ := isNumber.digit
  have noWord (negative : Bool) :
      unsignedOf? negative (c :: rest) = decimalOf? negative (c :: rest) := by
    have lower := toLower_of_isDigit digit
    have other (letter : Char) (notDigit : letter.isDigit = false) : c ≠ letter := by
      rintro rfl
      rw [digit] at notDigit
      cases notDigit
    have noI := other 'i' rfl
    have noN := other 'n' rfl
    simp [unsignedOf?, lower, noI, noN]
  constructor
  · unfold ofList?
    split
    · next minus =>
        cases minus
        cases digit
    · next plus =>
        cases plus
        cases digit
    · exact noWord false
  · exact noWord true

/-! ## Written decimals are read -/

section

variable {whole fraction : List Char} (negative : Bool)

theorem takeWhile_isDigit (all : ∀ c ∈ whole, c.isDigit = true) (rest : List Char) :
    (whole ++ '.' :: rest).takeWhile Char.isDigit = whole ∧
      (whole ++ '.' :: rest).dropWhile Char.isDigit = '.' :: rest := by
  rw [List.takeWhile_append_of_pos all, List.dropWhile_append_of_pos all]
  exact ⟨List.append_nil whole, rfl⟩

/-- Digits are a whole number. -/
theorem decimalOf?_digits (nonempty : whole ≠ []) (all : ∀ c ∈ whole, c.isDigit = true) :
    decimalOf? negative whole = some (.decimal negative (digitsValue 0 whole) 0) := by
  have front : whole.takeWhile Char.isDigit = whole := List.takeWhile_eq_self_iff.mpr all
  have back : whole.dropWhile Char.isDigit = [] := List.dropWhile_eq_nil_iff.mpr all
  have filled : whole.isEmpty = false := by simpa using nonempty
  simp [decimalOf?, front, back, filled, suffixOf?, digitsValue]

/-- The digits behind a point are counted. -/
theorem decimalOf?_point (nonempty : whole ≠ []) (all : ∀ c ∈ whole, c.isDigit = true)
    (behind : ∀ c ∈ fraction, c.isDigit = true) :
    decimalOf? negative (whole ++ '.' :: fraction) =
      some (.decimal negative (digitsValue 0 (whole ++ fraction)) (-fraction.length)) := by
  obtain ⟨front, back⟩ := takeWhile_isDigit all fraction
  have places : fraction.takeWhile Char.isDigit = fraction := List.takeWhile_eq_self_iff.mpr behind
  have nothing : fraction.dropWhile Char.isDigit = [] := List.dropWhile_eq_nil_iff.mpr behind
  have filled : whole.isEmpty = false := by simpa using nonempty
  simp [decimalOf?, front, back, places, nothing, filled, suffixOf?, digitsValue,
    List.foldl_append]

end

theorem digitsValue_eq (acc : Nat) (digits : List Char) :
    digitsValue acc digits = Nat.ofDigitChars 10 digits acc :=
  Nat.ofDigitChars_eq_foldl.symm

/-- A decimal as it is read: the zeros behind its digits are digits themselves then. -/
def ofDecimal (negative : Bool) (d : Decimal) : Numeral :=
  .decimal negative (d.digits * Binary64.tenTo d.exponent.toNat) (-(-d.exponent).toNat)

/-- Positional notation is read without loss. -/
theorem decimalOf?_positional (negative : Bool) (d : Decimal) :
    decimalOf? negative d.positional.toList = some (ofDecimal negative d) := by
  have digits : ∀ c ∈ Nat.toDigits 10 d.digits, c.isDigit = true :=
    fun _ mem => Nat.isDigit_of_mem_toDigits (by decide) (by decide) mem
  have zeros (n : Nat) : ∀ c ∈ List.replicate n '0', c.isDigit = true := by
    intro c mem
    rw [List.eq_of_mem_replicate mem]
    rfl
  simp only [Decimal.positional, Decimal.digitText, Decimal.zeros, ofDecimal]
  split
  · next whole =>
      have places : d.exponent.natAbs = d.exponent.toNat := by omega
      have none : (-d.exponent).toNat = 0 := by omega
      simp only [String.toList_append, String.toList_ofList]
      rw [decimalOf?_digits negative (by simp [Nat.toDigits_ne_nil])
        (List.forall_mem_append.mpr ⟨digits, zeros _⟩), digitsValue_eq, Nat.ofDigitChars_append,
        Nat.ofDigitChars_ten_toDigits, Nat.ofDigitChars_replicate_zero, places, none, Nat.mul_comm]
      rfl
  next negative =>
  have none : d.exponent.toNat = 0 := by omega
  have below : -((-d.exponent).toNat : Int) = d.exponent := by omega
  rw [none, below, show Binary64.tenTo 0 = 1 from rfl, Nat.mul_one]
  split
  · next places =>
      have point : ".".toList = ['.'] := rfl
      have length : (-(d.exponent.natAbs : Int)) = d.exponent := by omega
      simp only [String.toList_append, String.toList_ofList, point, List.append_assoc,
        List.singleton_append]
      rw [decimalOf?_point _ ?_ (fun c mem => digits c (List.mem_of_mem_take mem))
        fun c mem => digits c (List.mem_of_mem_drop mem), List.take_append_drop, digitsValue_eq,
        Nat.ofDigitChars_ten_toDigits, List.length_drop, Nat.sub_sub_self places.le, length]
      rw [← List.length_pos_iff, List.length_take]
      omega
  · next places =>
      have front : "0.".toList = ['0', '.'] := rfl
      simp only [String.toList_append, String.toList_ofList, front, List.append_assoc]
      change decimalOf? _ (['0'] ++ '.' :: (List.replicate _ '0' ++ _)) = _
      have zero : Nat.ofDigitChars 10 ['0'] 0 = 0 := rfl
      have length : -((d.exponent.natAbs - (Nat.toDigits 10 d.digits).length +
          (Nat.toDigits 10 d.digits).length : Nat) : Int) = d.exponent := by omega
      rw [decimalOf?_point _ (by simp) (by simp) (List.forall_mem_append.mpr ⟨zeros _, digits⟩),
        digitsValue_eq, Nat.ofDigitChars_append, Nat.ofDigitChars_append,
        Nat.ofDigitChars_replicate_zero, zero, Nat.mul_zero, Nat.ofDigitChars_ten_toDigits,
        List.length_append, List.length_replicate, length]

/-- A sign in front of positional notation is the sign of the decimal. -/
theorem ofList?_positional (d : Decimal) :
    ofList? d.positional.toList = some (ofDecimal false d) ∧
      ofList? ('-' :: d.positional.toList) = some (ofDecimal true d) := by
  obtain ⟨plain, opposite⟩ := ofList?_eq (Decimal.isNumberText_positional d)
  rw [plain, opposite, decimalOf?_positional, decimalOf?_positional]
  exact ⟨rfl, rfl⟩

end Numeral

namespace Double

/-- A finite number is written in digits, behind a minus sign if its sign bit is set. -/
theorem text_of_isFinite {x : Float} (finite : Scalar.isFinite x = true) :
    text x = signed x (if magnitudeBits x = 0 then "0"
      else (Binary64.shortest (magnitudeBits x)).positional) := by
  obtain ⟨_, notNaN, notInf⟩ := ne_of_isFinite finite
  rw [text, textWith, if_neg (Bool.not_eq_true _ ▸ notNaN), if_neg (Bool.not_eq_true _ ▸ notInf)]
  split <;> rfl

/-- A number that is not finite is written as a word, perhaps behind a minus sign. -/
theorem formatNumber_of_not_isFinite {x : Float} (h : ¬Scalar.isFinite x = true) :
    formatNumber x = "NaN" ∨ formatNumber x = "inf" ∨ formatNumber x = "-inf" := by
  rw [isFinite_iff] at h
  have nonzero : ¬(x == Float.ofBits 0) = true := by
    intro zero
    rw [beq_iff, parts_zero] at zero
    obtain same | ⟨⟨s, same⟩, _⟩ := eq_or_zero_of_compare zero <;> exact h (same ▸ rfl)
  have same : formatNumber x = text x := if_neg nonzero
  rw [same, text, textWith]
  by_cases undefined : x.isNaN = true
  · exact .inl (if_pos undefined)
  have infinite : x.isInf = true := by
    change ¬(parts x).isNaN = true at undefined
    change (parts x).isInf = true
    cases unpacked : parts x with
    | infinity s => rfl
    | notANumber => exact absurd (by rw [unpacked]; rfl) undefined
    | zero | finite => exact absurd (by rw [unpacked]; rfl) h
  rw [if_neg undefined, if_pos infinite, signed]
  split
  · exact .inr (.inr rfl)
  · exact .inr (.inl rfl)

end Double

end HybridAutomata
