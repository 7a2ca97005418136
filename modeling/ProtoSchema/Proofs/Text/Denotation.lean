import Mathlib.Data.Nat.Digits.Lemmas
import Mathlib.Tactic.Ring
import ProtoSchema.Proofs.RoundTrip.Decimal

/-
  What an integer word denotes, apart from how it is read:
  a sign, the mark of a base, and digits whose value is that
  of the positional notation. Reading yields exactly what
  the word denotes, if that is a signed 64-bit integer.

  Key definitions include:
    * `Numeral.Sign`
    * `Numeral.IsDigit`
    * `Numeral.Unsigned`
    * `Numeral.Denotes`
    * `Numeral.readWithin?`

  Main theorems:
    * `Numeral.digitsFrom_eq_some_iff`
    * `Numeral.unsigned_iff`
    * `Numeral.digitsWithin_eq`
    * `Numeral.read?_eq_some_iff_denotes`
-/

namespace ProtoSchema

namespace Numeral

------------------------------------------------------------
-- Integer Words
------------------------------------------------------------

/- What may stand in front of a number. -/
inductive Sign where
  | none
  | plus
  | minus
deriving DecidableEq, Repr

namespace Sign

def chars : Sign → List Char
  | none => []
  | plus => ['+']
  | minus => ['-']

/- The number with the sign in front of it. -/
def apply
    (sign : Sign)
    (magnitude : Nat) : Int :=
  match sign with
  | minus => -(magnitude : Int)
  | _ => magnitude

end Sign

/-
  The character stands for the digit in the base. A digit
  above nine is a letter, in either case.
-/
def IsDigit
    (base : Nat)
    (c : Char)
    (digit : Nat) : Prop :=
  digit < base ∧
    (c = digit.digitChar ∨ c = digit.digitChar.toUpper)

/-
  The word is one or more digits of the base, and denotes
  the number in positional notation.
-/
structure Positional
    (base : Nat)
    (word : List Char)
    (magnitude : Nat) : Prop where
  nonempty : word ≠ []
  digits :
    ∃ digits, List.Forall₂ (IsDigit base) word digits ∧
      magnitude = Nat.ofDigits base digits.reverse

/-
  Numbers without a sign: hexadecimal after `0x` or `0X`,
  octal after `0`, and decimal where no zero stands in front
  of another digit.
-/
inductive Unsigned : List Char → Nat → Prop where
  | hexadecimal
      {mark : Char}
      {digits : List Char}
      {magnitude : Nat}
      (hMark : mark = 'x' ∨ mark = 'X')
      (hDigits : Positional 16 digits magnitude) :
      Unsigned ('0' :: mark :: digits) magnitude
  | octal
      {digits : List Char}
      {magnitude : Nat}
      (hDigits : Positional 8 digits magnitude) :
      Unsigned ('0' :: digits) magnitude
  | decimal
      {digits : List Char}
      {magnitude : Nat}
      (hFirst : digits.length = 1 ∨ '0' ∉ digits.head?)
      (hDigits : Positional 10 digits magnitude) :
      Unsigned digits magnitude

/- The word is a number behind an optional sign. -/
def Denotes
    (word : List Char)
    (value : Int) : Prop :=
  ∃ (sign : Sign) (digits : List Char) (magnitude : Nat),
    word = sign.chars ++ digits ∧
      Unsigned digits magnitude ∧
        value = sign.apply magnitude

------------------------------------------------------------
-- Digits
------------------------------------------------------------

/- A character is known from its distance to another. -/
theorem eq_ofNat_of_le
    {first c : Char}
    (hLow : first ≤ c) :
    c = Char.ofNat
      (c.toNat - first.toNat + first.toNat) := by
  have hNat : first.toNat ≤ c.toNat := hLow
  rw [Nat.sub_add_cancel hNat, Char.ofNat_toNat]

/- What has a value as a digit stands for that value. -/
theorem isDigit_of_digitValue?
    {base : Nat}
    {c : Char}
    {digit : Nat}
    (hValue : digitValue? base c = some digit) :
    IsDigit base c digit := by
  have hDecimal : ∀ digit < 10,
      Char.ofNat (digit + 48) = digit.digitChar := by
    decide
  have hLower : ∀ digit < 6,
      Char.ofNat (digit + 97) = (digit + 10).digitChar := by
    decide
  have hUpper : ∀ digit < 6,
      Char.ofNat (digit + 65) =
        (digit + 10).digitChar.toUpper := by
    decide
  simp only [digitValue?, Option.filter_eq_some_iff,
    decide_eq_true_eq, Bool.and_eq_true] at hValue
  rcases hValue with ⟨hValue, hBase⟩
  refine ⟨hBase, ?_⟩
  split at hValue
  next hRange =>
    have hLast : c.toNat ≤ 57 := hRange.2
    simp only [Option.some.injEq] at hValue
    left
    rw [eq_ofNat_of_le hRange.1, ← hValue]
    exact hDecimal _ (by simp only [Char.reduceToNat]; omega)
  next =>
    split at hValue
    next hRange =>
      have hLast : c.toNat ≤ 102 := hRange.2
      simp only [Option.some.injEq] at hValue
      left
      rw [eq_ofNat_of_le hRange.1, ← hValue]
      exact hLower _ (by simp only [Char.reduceToNat]; omega)
    next =>
      split at hValue
      next hRange =>
        have hLast : c.toNat ≤ 70 := hRange.2
        simp only [Option.some.injEq] at hValue
        right
        rw [eq_ofNat_of_le hRange.1, ← hValue]
        exact hUpper _
          (by simp only [Char.reduceToNat]; omega)
      next => simp at hValue

section Digits

variable {base : Nat}
variable (hBase : base ≤ 16)

include hBase

/- The digits of bases up to sixteen are those that count. -/
theorem digitValue?_eq_some_iff
    {c : Char}
    {digit : Nat} :
    digitValue? base c = some digit ↔
      IsDigit base c digit := by
  constructor
  · exact isDigit_of_digitValue?
  · intro h
    rcases h with ⟨hDigit, hChar⟩
    have hSixteen : ∀ digit < 16,
        digitValue? 16 digit.digitChar = some digit ∧
          digitValue? 16 digit.digitChar.toUpper =
            some digit := by
      decide
    have hValue : digitValue? 16 c = some digit := by
      rcases hChar with rfl | rfl
      · exact (hSixteen digit (by omega)).1
      · exact (hSixteen digit (by omega)).2
    simp only [digitValue?, Option.filter_eq_some_iff,
      decide_eq_true_eq] at hValue ⊢
    exact ⟨hValue.1, hDigit⟩

/-
  Reading digits after a value carries the value on by one
  place for each of them.
-/
theorem digitsFrom_eq_some_iff
    {value result : Nat}
    {word : List Char} :
    digitsFrom base value word = some result ↔
      ∃ digits, List.Forall₂ (IsDigit base) word digits ∧
        result = value * base ^ word.length +
          Nat.ofDigits base digits.reverse := by
  induction word generalizing value with
  | nil =>
      simp [digitsFrom, List.forall₂_nil_left_iff, eq_comm]
  | cons c rest ih =>
      have hPlace : ∀ (digit : Nat) (digits : List Nat),
          digits.length = rest.length →
            value * base ^ (rest.length + 1) +
                Nat.ofDigits base (digit :: digits).reverse =
              (value * base + digit) * base ^ rest.length +
                Nat.ofDigits base digits.reverse := by
        intro digit digits hLength
        rw [List.reverse_cons, Nat.ofDigits_append,
          List.length_reverse, hLength,
          Nat.ofDigits_singleton]
        ring
      rw [digitsFrom]
      constructor
      · intro h
        split at h
        · simp at h
        next digit hDigit =>
          rcases ih.mp h with ⟨digits, hDigits, rfl⟩
          exact ⟨digit :: digits,
            .cons (isDigit_of_digitValue? hDigit) hDigits,
            (hPlace digit digits hDigits.length_eq.symm).symm⟩
      · intro h
        rcases h with ⟨_, hDigits, rfl⟩
        cases hDigits with
        | @cons _ digit _ digits hFirst hRest =>
            rw [(digitValue?_eq_some_iff hBase).mpr hFirst]
            exact ih.mpr ⟨digits, hRest,
              hPlace digit digits hRest.length_eq.symm⟩

/- The value of a sequence of digits is positional. -/
theorem magnitude?_eq_some_iff
    {word : List Char}
    {magnitude : Nat} :
    magnitude? base word = some magnitude ↔
      Positional base word magnitude := by
  cases word with
  | nil =>
      simp only [magnitude?, reduceCtorEq, false_iff]
      intro h
      exact h.nonempty rfl
  | cons c rest =>
      rw [magnitude?.eq_2 _ _ (by simp),
        digitsFrom_eq_some_iff hBase]
      simp only [Nat.zero_mul, Nat.zero_add]
      exact ⟨fun h => ⟨by simp, h⟩, fun h => h.digits⟩

end Digits

------------------------------------------------------------
-- Bases and Signs
------------------------------------------------------------

/- A digit of base ten or eight is an ASCII digit. -/
theorem IsDigit.isDigit
    {base : Nat}
    {c : Char}
    {digit : Nat}
    (hBase : base ≤ 10)
    (hDigit : IsDigit base c digit) : c.isDigit = true := by
  have hAll : ∀ digit < 10,
      digit.digitChar.isDigit = true ∧
        digit.digitChar.toUpper.isDigit = true := by
    decide
  rcases hDigit with ⟨hDigit, rfl | rfl⟩
  · exact (hAll digit (by omega)).1
  · exact (hAll digit (by omega)).2

/- The first character of a positional numeral is a digit. -/
theorem Positional.exists_cons
    {base : Nat}
    {word : List Char}
    {magnitude : Nat}
    (hWord : Positional base word magnitude) :
    ∃ c rest digit,
      word = c :: rest ∧ IsDigit base c digit := by
  rcases hWord with ⟨hNonempty, digits, hDigits, _⟩
  cases hDigits with
  | nil => contradiction
  | cons hFirst _ => exact ⟨_, _, _, rfl, hFirst⟩

/- A zero in front of a digit marks base eight. -/
theorem splitBase_octal
    {c : Char}
    (hDigit : c.isDigit = true)
    (rest : List Char) :
    splitBase ('0' :: c :: rest) = (8, c :: rest) := by
  apply splitBase.eq_3
  · rintro rfl
    simp at hDigit
  · rintro rfl
    simp at hDigit

/- Any other number is decimal. -/
theorem splitBase_decimal
    {word : List Char}
    (hFirst : word.length = 1 ∨ '0' ∉ word.head?) :
    splitBase word = (10, word) := by
  have hZero : ∀ c rest, word ≠ '0' :: c :: rest := by
    rintro c rest rfl
    simp at hFirst
  exact splitBase.eq_4 word
    (fun rest h => hZero _ rest h)
    (fun rest h => hZero _ rest h)
    (fun c rest h => hZero c rest h)

/-
  The base that is split off is the one that the form of the
  number determines.
-/
theorem unsigned_iff
    {word : List Char}
    {magnitude : Nat} :
    magnitude? (splitBase word).1 (splitBase word).2 =
        some magnitude ↔
      Unsigned word magnitude := by
  constructor
  · intro h
    unfold splitBase at h
    split at h
    next digits =>
      exact .hexadecimal (.inl rfl)
        ((magnitude?_eq_some_iff (by decide)).mp h)
    next digits =>
      exact .hexadecimal (.inr rfl)
        ((magnitude?_eq_some_iff (by decide)).mp h)
    next digit digits _ _ =>
      exact .octal
        ((magnitude?_eq_some_iff (by decide)).mp h)
    next hOctal =>
      refine .decimal ?_
        ((magnitude?_eq_some_iff (by decide)).mp h)
      cases word with
      | nil => simp
      | cons c rest =>
          cases rest with
          | nil => simp
          | cons d rest =>
              right
              intro hHead
              simp only [List.head?_cons,
                Option.mem_some_iff] at hHead
              exact hOctal d rest (by rw [hHead])
  · intro h
    cases h with
    | hexadecimal hMark hDigits =>
        have hRead :=
          (magnitude?_eq_some_iff (by decide)).mpr hDigits
        rcases hMark with rfl | rfl <;> exact hRead
    | octal hDigits =>
        rcases hDigits.exists_cons with
          ⟨c, rest, digit, rfl, hDigit⟩
        rw [splitBase_octal (hDigit.isDigit (by decide))]
        have hEight : 8 ≤ 16 := by decide
        exact (magnitude?_eq_some_iff hEight).mpr hDigits
    | decimal hFirst hDigits =>
        rw [splitBase_decimal hFirst]
        have hTen : 10 ≤ 16 := by decide
        exact (magnitude?_eq_some_iff hTen).mpr hDigits

/- A number begins with an ASCII digit. -/
theorem Unsigned.exists_cons
    {word : List Char}
    {magnitude : Nat}
    (hWord : Unsigned word magnitude) :
    ∃ c rest, word = c :: rest ∧ c.isDigit = true := by
  cases hWord with
  | hexadecimal _ _ => exact ⟨_, _, rfl, by decide⟩
  | octal _ => exact ⟨_, _, rfl, by decide⟩
  | decimal _ hDigits =>
      rcases hDigits.exists_cons with
        ⟨c, rest, digit, rfl, hDigit⟩
      exact ⟨c, rest, rfl, hDigit.isDigit (by decide)⟩

/- The sign in front of a number is split off, if any. -/
theorem splitSign_append
    (sign : Sign)
    {word : List Char}
    {magnitude : Nat}
    (hWord : Unsigned word magnitude) :
    splitSign (sign.chars ++ word) =
      (decide (sign = .minus), word) := by
  cases sign with
  | plus => rfl
  | minus => rfl
  | none =>
      rcases hWord.exists_cons with ⟨c, rest, rfl, hDigit⟩
      apply splitSign.eq_3
      · rintro _ h
        rcases List.cons.inj h with ⟨rfl, _⟩
        simp at hDigit
      · rintro _ h
        rcases List.cons.inj h with ⟨rfl, _⟩
        simp at hDigit

/- Every word is some sign in front of something. -/
theorem exists_sign (word : List Char) :
    ∃ sign : Sign,
      word = sign.chars ++ (splitSign word).2 ∧
        (splitSign word).1 = decide (sign = .minus) := by
  unfold splitSign
  split
  · exact ⟨.minus, rfl, rfl⟩
  · exact ⟨.plus, rfl, rfl⟩
  · exact ⟨.none, rfl, rfl⟩

theorem Sign.apply_eq
    (sign : Sign)
    (magnitude : Nat) :
    sign.apply magnitude =
      if decide (sign = .minus) then
        -(magnitude : Int)
      else
        (magnitude : Int) := by
  cases sign <;> rfl

/- A word denotes what its sign makes of its number. -/
theorem denotes_iff
    {word : List Char}
    {value : Int} :
    Denotes word value ↔
      ∃ magnitude, Unsigned (splitSign word).2 magnitude ∧
        value =
          if (splitSign word).1 then
            -(magnitude : Int)
          else
            (magnitude : Int) := by
  constructor
  · intro h
    rcases h with
      ⟨sign, digits, magnitude, rfl, hDigits, rfl⟩
    rw [splitSign_append sign hDigits]
    exact ⟨magnitude, hDigits, sign.apply_eq magnitude⟩
  · intro h
    rcases h with ⟨magnitude, hDigits, rfl⟩
    rcases exists_sign word with ⟨sign, hWord, hMinus⟩
    rw [hMinus, ← sign.apply_eq]
    exact ⟨sign, _, magnitude, hWord, hDigits, rfl⟩

------------------------------------------------------------
-- The Range of the Integers
------------------------------------------------------------

/- The signed 64-bit integers are those of their range. -/
theorem int64?_eq_some_iff
    {value : Int}
    {number : Int64} :
    int64? value = some number ↔
      (-2 ^ 63 ≤ value ∧ value ≤ 2 ^ 63 - 1) ∧
        number.toInt = value := by
  have hLow : Int64.minValue.toInt = -2 ^ 63 := rfl
  have hHigh : Int64.maxValue.toInt = 2 ^ 63 - 1 := rfl
  rw [int64?, hLow, hHigh]
  constructor
  · intro h
    split at h
    next hRange =>
      simp only [Option.some.injEq] at h
      subst h
      refine ⟨hRange, ?_⟩
      exact Int64.toInt_ofInt_of_le hRange.1 (by omega)
    next => simp at h
  · intro h
    rcases h with ⟨hRange, rfl⟩
    rw [if_pos hRange, Int64.ofInt_toInt]

/- Reading yields what the word denotes, if it is in range. -/
theorem read?_eq_some_iff
    {word : List Char}
    {number : Int64} :
    read? word = some number ↔
      ∃ value, Denotes word value ∧
        int64? value = some number := by
  unfold read?
  constructor
  · intro h
    dsimp only at h
    split at h
    · simp at h
    next magnitude hMagnitude =>
      exact ⟨_, denotes_iff.mpr
        ⟨magnitude, unsigned_iff.mp hMagnitude, rfl⟩, h⟩
  · intro h
    rcases h with ⟨value, hValue, hNumber⟩
    rcases denotes_iff.mp hValue with
      ⟨magnitude, hDigits, rfl⟩
    dsimp only
    rw [unsigned_iff.mpr hDigits]
    exact hNumber

------------------------------------------------------------
-- Bounded Magnitudes
------------------------------------------------------------

/-
  The number that digits denote after `value`, on a machine
  that cannot hold a number above `limit`.
-/
def digitsWithin
    (limit : Nat)
    (base : Nat)
    (value : Nat) : List Char → Option Nat
  | [] => some value
  | c :: rest =>
      match digitValue? base c with
      | none => none
      | some digit =>
          if value * base + digit ≤ limit then
            digitsWithin limit base (value * base + digit)
              rest
          else
            none

/- The integer that a word denotes, read on such a machine. -/
def readWithin?
    (limit : Nat)
    (word : List Char) : Option Int64 :=
  let (negative, unsigned) := splitSign word
  let (base, digits) := splitBase unsigned
  if digits = [] then
    none
  else
    match digitsWithin limit base 0 digits with
    | none => none
    | some magnitude =>
        int64?
          (if negative then
            -(magnitude : Int)
          else
            (magnitude : Int))

/- Further digits do not make a number smaller. -/
theorem le_of_digitsFrom
    {base value result : Nat}
    {word : List Char}
    (hBase : 0 < base)
    (hRead : digitsFrom base value word = some result) :
    value ≤ result := by
  induction word generalizing value with
  | nil =>
      simp only [digitsFrom, Option.some.injEq] at hRead
      exact hRead.le
  | cons c rest ih =>
      rw [digitsFrom] at hRead
      split at hRead
      · simp at hRead
      next digit _ =>
        calc
          value ≤ value * base :=
            Nat.le_mul_of_pos_right value hBase
          _ ≤ value * base + digit := Nat.le_add_right _ _
          _ ≤ result := ih hRead

/- A bounded machine reads the numbers up to its bound. -/
theorem digitsWithin_eq
    {limit base value : Nat}
    {word : List Char}
    (hBase : 0 < base)
    (hValue : value ≤ limit) :
    digitsWithin limit base value word =
      (digitsFrom base value word).filter (· ≤ limit) := by
  induction word generalizing value with
  | nil =>
      simp [digitsWithin, digitsFrom, Option.filter_some,
        hValue]
  | cons c rest ih =>
      rw [digitsWithin, digitsFrom]
      cases digitValue? base c with
      | none => rfl
      | some digit =>
          dsimp only
          split
          next hFits => exact ih hFits
          next hLarge =>
            symm
            rw [Option.filter_eq_none_iff]
            intro result hRead
            have hLe := le_of_digitsFrom hBase hRead
            simp only [decide_eq_true_eq]
            omega

/- A number beyond the bounds is none of the integers. -/
theorem int64?_eq_none
    {magnitude : Nat}
    (hLarge : 2 ^ 63 < magnitude)
    (negative : Bool) :
    int64?
      (if negative then
        -(magnitude : Int)
      else
        (magnitude : Int)) = none := by
  have hLow : Int64.minValue.toInt = -2 ^ 63 := rfl
  have hHigh : Int64.maxValue.toInt = 2 ^ 63 - 1 := rfl
  rw [int64?, hLow, hHigh, if_neg]
  cases negative <;> simp <;> omega

/-
  A bound that is no less than the range of the integers
  makes no difference.
-/
theorem readWithin?_eq
    {limit : Nat}
    (hLimit : 2 ^ 63 ≤ limit)
    (word : List Char) :
    readWithin? limit word = read? word := by
  have hBase : 0 < (splitBase (splitSign word).2).1 := by
    unfold splitBase
    split <;> simp
  unfold readWithin? read?
  dsimp only
  rw [digitsWithin_eq hBase (Nat.zero_le limit)]
  generalize (splitBase (splitSign word).2).1 = base
  cases (splitBase (splitSign word).2).2 with
  | nil => rfl
  | cons c rest =>
      rw [if_neg (by simp), magnitude?.eq_2 _ _ (by simp)]
      cases digitsFrom base 0 (c :: rest) with
      | none => rfl
      | some magnitude =>
          by_cases hFits : magnitude ≤ limit
          · simp [Option.filter_some, hFits]
          · have hLarge : 2 ^ 63 < magnitude := by omega
            simp [Option.filter_some, hFits,
              int64?_eq_none hLarge]

------------------------------------------------------------
-- Leading Zeros
------------------------------------------------------------

/- Zeros in front of the digits add nothing to the number. -/
theorem Positional.zeros_append
    {base : Nat}
    (hBase : 0 < base)
    {digits : List Char}
    {magnitude : Nat}
    (hDigits : Positional base digits magnitude)
    (zeros : Nat) :
    Positional base (List.replicate zeros '0' ++ digits)
      magnitude := by
  induction zeros with
  | zero => exact hDigits
  | succ zeros ih =>
      rcases ih.digits with ⟨values, hValues, hMagnitude⟩
      have hZero : IsDigit base '0' 0 := ⟨hBase, .inl rfl⟩
      rw [List.replicate_succ, List.cons_append]
      refine ⟨by simp, 0 :: values, .cons hZero hValues, ?_⟩
      rw [hMagnitude, List.reverse_cons, Nat.ofDigits_append]
      simp

/- A signed number is read as what it denotes. -/
theorem read?_sign_append
    (sign : Sign)
    {word : List Char}
    {magnitude : Nat}
    (hWord : Unsigned word magnitude) :
    read? (sign.chars ++ word) =
      int64? (sign.apply magnitude) := by
  unfold read?
  dsimp only
  rw [splitSign_append sign hWord, unsigned_iff.mpr hWord,
    sign.apply_eq]

------------------------------------------------------------
-- Denotation
------------------------------------------------------------

/-
  Reading a word yields the integer that it denotes, if that
  is in the range of the 64-bit integers, and nothing for
  any other word. A machine whose numbers end at `2 ^ 127`
  reads the same. The decimal text of an integer is read as
  the integer, and zeros behind the mark of a base do not
  change what is read.
-/
theorem read?_eq_some_iff_denotes :
    (∀ word number,
      read? word = some number ↔
        ∃ value, Denotes word value ∧
          (-2 ^ 63 ≤ value ∧ value ≤ 2 ^ 63 - 1) ∧
            number.toInt = value) ∧
    (∀ word,
      readWithin? (2 ^ 127 - 1) word = read? word) ∧
    (∀ number, read? (write number).toList = some number) ∧
    (∀ (sign : Sign) (zeros : Nat) digits magnitude,
      Positional 16 digits magnitude →
        ∀ mark, mark = 'x' ∨ mark = 'X' →
          read? (sign.chars ++ '0' :: mark ::
              (List.replicate zeros '0' ++ digits)) =
            read? (sign.chars ++ '0' :: mark :: digits)) ∧
    ∀ (sign : Sign) (zeros : Nat) digits magnitude,
      Positional 8 digits magnitude →
        read? (sign.chars ++ '0' ::
            (List.replicate zeros '0' ++ digits)) =
          read? (sign.chars ++ '0' :: digits) := by
  refine ⟨?_, ?_, read?_write, ?_, ?_⟩
  · intro word number
    rw [read?_eq_some_iff]
    simp only [int64?_eq_some_iff]
  · intro word
    exact readWithin?_eq (by decide) word
  · intro sign zeros digits magnitude hDigits mark hMark
    have hZeros := hDigits.zeros_append (by decide) zeros
    rw [read?_sign_append sign (.hexadecimal hMark hZeros),
      read?_sign_append sign (.hexadecimal hMark hDigits)]
  · intro sign zeros digits magnitude hDigits
    have hZeros := hDigits.zeros_append (by decide) zeros
    rw [read?_sign_append sign (.octal hZeros),
      read?_sign_append sign (.octal hDigits)]

/- The sign, the case of letters and the zeros are free. -/
theorem read?_hexadecimal_zeros :
    Positional 16 ['f', 'F'] 255 ∧
      read? "-0X00fF".toList = read? "-0XfF".toList ∧
        read? "-0XfF".toList = some (-255) := by
  have hDigits : Positional 16 ['f', 'F'] 255 := by
    refine ⟨by simp, [15, 15], ?_, rfl⟩
    exact .cons ⟨by decide, .inl rfl⟩
      (.cons ⟨by decide, .inr rfl⟩ .nil)
  have hZeros := read?_eq_some_iff_denotes.2.2.2.1
    .minus 2 _ 255 hDigits 'X' (.inr rfl)
  exact ⟨hDigits, hZeros, by decide⟩

end Numeral

end ProtoSchema
