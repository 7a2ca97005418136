import ProtoSchema.Json.Token
import ProtoSchema.Proofs.RoundTrip.Decimal

/-
  The decimal text of a 64-bit integer is a number of JSON
  that denotes the integer.

  Key definitions include:
    * `NumberLiteral.ofInt`
    * `Json.InRange`

  Main theorems:
    * `NumberLiteral.read?_writeInt`
    * `NumberLiteral.overflows_ofInt`
    * `Json.ofBare?_writeInt`
-/

namespace ProtoSchema

namespace NumberLiteral

open Numeral

------------------------------------------------------------
-- The Form
------------------------------------------------------------

/- An integer as a literal. -/
def ofInt (value : Int) : NumberLiteral :=
  ⟨value < 0, Nat.toDigits 10 value.natAbs, none, none⟩

theorem takeWhile_toDigits (magnitude : Nat) :
    (Nat.toDigits 10 magnitude).takeWhile Char.isDigit =
        Nat.toDigits 10 magnitude ∧
      (Nat.toDigits 10 magnitude).dropWhile Char.isDigit =
        [] := by
  have hDigits :
      ∀ c ∈ Nat.toDigits 10 magnitude,
        c.isDigit = true :=
    fun _ => isDigit_of_mem_toDigits
  constructor
  · rw [← List.append_nil (Nat.toDigits 10 magnitude),
      List.takeWhile_append_of_pos hDigits,
      List.takeWhile_nil]
  · rw [← List.append_nil (Nat.toDigits 10 magnitude),
      List.dropWhile_append_of_pos hDigits,
      List.dropWhile_nil]

/- The digits of a magnitude have no zero in front. -/
theorem splitWhole?_toDigits (magnitude : Nat) :
    splitWhole? (Nat.toDigits 10 magnitude) =
      some (Nat.toDigits 10 magnitude, []) := by
  rcases takeWhile_toDigits magnitude with ⟨hTake, hDrop⟩
  unfold splitWhole?
  split
  next rest hZero =>
    have hMagnitude := toDigits_zero_cons hZero
    subst hMagnitude
    simp only [Nat.toDigits_zero, List.cons.injEq,
      true_and] at hZero
    subst hZero
    rfl
  next =>
    unfold splitDigits?
    split
    next hNil =>
      exact absurd (hTake.symm.trans hNil)
        Nat.toDigits_ne_nil
    next => rw [hTake, hDrop]

theorem splitMinus_toDigits (magnitude : Nat) :
    splitMinus (Nat.toDigits 10 magnitude) =
      (false, Nat.toDigits 10 magnitude) := by
  unfold splitMinus
  split
  next hDigits =>
    have h := isDigit_of_mem_toDigits (c := '-')
      (by rw [hDigits]; exact List.mem_cons_self)
    exact absurd h (by decide)
  next => rfl

/- The text of an integer is read as its literal. -/
theorem read?_writeInt (value : Int) :
    read? (writeInt value) = some (ofInt value) := by
  cases value with
  | ofNat magnitude =>
      simp [read?, writeInt, splitMinus_toDigits,
        splitWhole?_toDigits, splitFraction?,
        splitExponent?, ofInt]
  | negSucc less =>
      simp [read?, writeInt, splitMinus,
        splitWhole?_toDigits, splitFraction?,
        splitExponent?, ofInt]

/- The literal of an integer denotes the integer. -/
theorem integer?_ofInt (value : Int) :
    (ofInt value).integer? = some value := by
  simp only [integer?, ofInt,
    Nat.ofDigitChars_ten_toDigits]
  by_cases hNegative : value < 0
  · have hNonzero : value.natAbs ≠ 0 := by omega
    have hValue : -(value.natAbs : Int) = value := by omega
    simp only [hNegative, decide_true, Bool.not_true,
      Bool.false_eq_true, if_false, hNonzero, hValue]
  · have hValue : (value.natAbs : Int) = value := by omega
    simp [hNegative, hValue]

------------------------------------------------------------
-- The Range of Doubles
------------------------------------------------------------

theorem le_ofDigitChars
    (digits : List Char)
    (value : Nat) :
    value ≤ Nat.ofDigitChars 10 digits value := by
  induction digits generalizing value with
  | nil => simp
  | cons c rest ih =>
      rw [Nat.ofDigitChars_cons]
      have hNext := ih (10 * value + (c.toNat - '0'.toNat))
      omega

/- Digits are gathered whole if their number is in range. -/
theorem gather_eq
    {digits : List Char}
    {value : Nat}
    (hRange :
      Nat.ofDigitChars 10 digits value ≤ maxSignificand) :
    gather value digits =
      (Nat.ofDigitChars 10 digits value, []) := by
  induction digits generalizing value with
  | nil => simp [gather]
  | cons c rest ih =>
      rw [Nat.ofDigitChars_cons, Nat.mul_comm] at hRange ⊢
      have hNext :=
        Nat.le_trans (le_ofDigitChars rest _) hRange
      rw [gather, if_pos hNext]
      exact ih hRange

/- The nearest double is at most twice as large. -/
theorem nearestDouble_le
    {value : Nat}
    (hPositive : 0 < value) :
    nearestDouble value ≤ 2 * value := by
  have hStep : Nat.pow 2 (value.log2 - 52) ≤ value :=
    Nat.le_trans
      (Nat.pow_le_pow_right (by decide) (Nat.sub_le _ _))
      (Nat.log2_self_le (Nat.ne_of_gt hPositive))
  have hLow :=
    Nat.div_mul_le_self value (Nat.pow 2 (value.log2 - 52))
  unfold nearestDouble
  simp only []
  split
  · rw [Nat.add_mul]
    omega
  · omega

/- Twice a number of 64 bits is a double. -/
theorem twice_lt_doubleBound
    {value : Nat}
    (hRange : value ≤ maxSignificand) :
    2 * value < doubleBound := by
  have hBound : 2 * maxSignificand < doubleBound := by
    decide +kernel
  omega

/- The literal of an integer of 64 bits is a double. -/
theorem overflows_ofInt
    {value : Int}
    (hRange : value.natAbs ≤ maxSignificand) :
    (ofInt value).overflows = false := by
  have hGather : gather 0 (ofInt value).whole =
      (value.natAbs, []) := by
    have hDigits :
        Nat.ofDigitChars 10 (ofInt value).whole 0 =
          value.natAbs :=
      Nat.ofDigitChars_ten_toDigits
    rw [gather_eq (hDigits ▸ hRange), hDigits]
  have hSignificand :
      (ofInt value).significand = (value.natAbs, 0) := by
    simp only [significand, hGather]
    rfl
  have hExponent : (ofInt value).writtenExponent = 0 := rfl
  have hOne : nearestDouble (Nat.pow 10 0) = 1 := by decide
  simp only [overflows, hSignificand, hExponent,
    Int.add_zero, Int.toNat_zero, hOne, Nat.mul_one]
  split
  · rfl
  next hNonzero =>
    have hPositive : 0 < value.natAbs := by
      simp only [Int.lt_irrefl, decide_false, Bool.or_false,
        decide_eq_true_eq] at hNonzero
      omega
    have hNearest := nearestDouble_le hPositive
    have hBound := twice_lt_doubleBound hRange
    simp only [show ¬ (0 : Int) > 308 by decide, if_false,
      decide_eq_false_iff_not]
    omega

end NumberLiteral

namespace Json

/- The integers of 64 bits. -/
def InRange (value : Int) : Prop :=
  Int64.minValue.toInt ≤ value ∧
    value ≤ Int64.maxValue.toInt

theorem InRange.natAbs_le
    {value : Int}
    (hRange : InRange value) :
    value.natAbs ≤ NumberLiteral.maxSignificand := by
  have hLow : -(2 ^ 63 : Int) ≤ value := hRange.1
  have hHigh : value ≤ (2 ^ 63 - 1 : Int) := hRange.2
  have hMax :
      NumberLiteral.maxSignificand = 2 ^ 64 - 1 := rfl
  omega

theorem mem_writeInt
    {value : Int}
    {c : Char}
    (hMem : c ∈ Numeral.writeInt value) :
    c = '-' ∨ c.isDigit = true := by
  cases value with
  | ofNat magnitude =>
      exact .inr (Numeral.isDigit_of_mem_toDigits hMem)
  | negSucc less =>
      rcases List.mem_cons.mp hMem with hMinus | hDigits
      · exact .inl hMinus
      · exact .inr
          (Numeral.isDigit_of_mem_toDigits hDigits)

/- The bare word that is the text of an integer. -/
theorem ofBare?_writeInt
    {value : Int}
    (hRange : InRange value) :
    ofBare? (Numeral.writeInt value) = some (.int value) := by
  have hName :
      ∀ c rest, c ≠ '-' → c.isDigit = false →
        Numeral.writeInt value ≠ c :: rest := by
    intro c rest hMinus hDigit hEq
    have hMem : c ∈ Numeral.writeInt value := by
      rw [hEq]
      exact List.mem_cons_self
    rcases mem_writeInt hMem with hEqMinus | hIsDigit
    · exact hMinus hEqMinus
    · rw [hDigit] at hIsDigit
      exact nomatch hIsDigit
  have hNull : Numeral.writeInt value ≠ "null".toList :=
    hName 'n' _ (by decide) (by decide)
  have hTrue : Numeral.writeInt value ≠ "true".toList :=
    hName 't' _ (by decide) (by decide)
  have hFalse : Numeral.writeInt value ≠ "false".toList :=
    hName 'f' _ (by decide) (by decide)
  have hNumber :
      ofNumber (NumberLiteral.ofInt value) = .int value := by
    rw [ofNumber,
      NumberLiteral.overflows_ofInt hRange.natAbs_le,
      NumberLiteral.integer?_ofInt]
    rfl
  rw [ofBare?, if_neg hNull, if_neg hTrue, if_neg hFalse,
    NumberLiteral.read?_writeInt, Option.map_some, hNumber]

end Json

end ProtoSchema
