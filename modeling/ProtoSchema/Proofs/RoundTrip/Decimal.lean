import ProtoSchema.Proofs.Grammar.Form
import ProtoSchema.Text.Numeral

/-
  The decimal text of a 64-bit integer is a bare word, and
  is read back as the integer.

  Key definitions include:
    * `Numeral.bareWord`

  Main theorems:
    * `Numeral.splitBase_toDigits`
    * `Numeral.read?_writeInt`
    * `Numeral.read?_write`
-/

namespace ProtoSchema

namespace Numeral

------------------------------------------------------------
-- Digits
------------------------------------------------------------

/- A decimal digit has its distance from zero as its value. -/
theorem digitValue?_of_isDigit
    {c : Char}
    (hDigit : c.isDigit = true) :
    digitValue? 10 c = some (c.toNat - '0'.toNat) := by
  have hRange := Char.isDigit_iff_toNat.mp hDigit
  have hLow : '0' ≤ c := Char.le_def.mpr hRange.1
  have hHigh : c ≤ '9' := Char.le_def.mpr hRange.2
  have hSmall : c.toNat - 48 < 10 := by
    have hNine : '9'.toNat = 57 := rfl
    omega
  simp [digitValue?, hLow, hHigh, hSmall]

theorem digitsFrom_of_isDigit
    {digits : List Char}
    (hDigits : ∀ c ∈ digits, c.isDigit = true)
    (value : Nat) :
    digitsFrom 10 value digits =
      some (Nat.ofDigitChars 10 digits value) := by
  induction digits generalizing value with
  | nil => simp [digitsFrom]
  | cons c rest ih =>
      have hRest : ∀ d ∈ rest, d.isDigit = true :=
        fun d hMem => hDigits d (List.mem_cons_of_mem c hMem)
      have hFirst := hDigits c List.mem_cons_self
      rw [digitsFrom, digitValue?_of_isDigit hFirst]
      rw [Nat.ofDigitChars_cons, Nat.mul_comm 10 value]
      exact ih hRest _

theorem isDigit_of_mem_toDigits
    {magnitude : Nat}
    {c : Char}
    (hMem : c ∈ Nat.toDigits 10 magnitude) :
    c.isDigit = true :=
  Nat.isDigit_of_mem_toDigits (by decide) (by decide) hMem

/- The digits of a magnitude denote it. -/
theorem magnitude?_toDigits (magnitude : Nat) :
    magnitude? 10 (Nat.toDigits 10 magnitude) =
      some magnitude := by
  have hChars :
      ∀ c ∈ Nat.toDigits 10 magnitude,
        c.isDigit = true :=
    fun _ => isDigit_of_mem_toDigits
  have hDigits := digitsFrom_of_isDigit hChars 0
  rw [Nat.ofDigitChars_ten_toDigits] at hDigits
  unfold magnitude?
  split
  next hNil => exact absurd hNil Nat.toDigits_ne_nil
  next => exact hDigits

------------------------------------------------------------
-- Signs and Bases
------------------------------------------------------------

/- Only the number zero is written with a zero in front. -/
theorem toDigits_zero_cons
    {magnitude : Nat}
    {rest : List Char}
    (hDigits :
      Nat.toDigits 10 magnitude = '0' :: rest) :
    magnitude = 0 := by
  induction magnitude using Nat.strongRecOn
    generalizing rest with
  | ind magnitude ih =>
      by_cases hSmall : magnitude < 10
      · rw [Nat.toDigits_of_lt_base hSmall] at hDigits
        rcases List.cons.inj hDigits with ⟨hDigit, _⟩
        have hChar := congrArg Char.toNat hDigit
        rw [Nat.toNat_digitChar_of_lt_ten hSmall] at hChar
        simp only [Char.reduceToNat] at hChar
        omega
      · have hLarge : 10 ≤ magnitude := by omega
        rw [Nat.toDigits_of_base_le (by decide) hLarge]
          at hDigits
        cases hFront : Nat.toDigits 10 (magnitude / 10) with
        | nil => exact absurd hFront Nat.toDigits_ne_nil
        | cons first front =>
            rw [hFront, List.cons_append] at hDigits
            rcases List.cons.inj hDigits with ⟨rfl, _⟩
            have hQuotient := ih (magnitude / 10)
              (by omega) hFront
            omega

/- The digits of a magnitude are read in base ten. -/
theorem splitBase_toDigits (magnitude : Nat) :
    splitBase (Nat.toDigits 10 magnitude) =
      (10, Nat.toDigits 10 magnitude) := by
  have hZero : magnitude = 0 →
      Nat.toDigits 10 magnitude = ['0'] := by
    intro hEq
    subst hEq
    rfl
  unfold splitBase
  split
  next hDigits =>
    have h := hZero (toDigits_zero_cons hDigits)
    simp [hDigits] at h
  next hDigits =>
    have h := hZero (toDigits_zero_cons hDigits)
    simp [hDigits] at h
  next hDigits =>
    have h := hZero (toDigits_zero_cons hDigits)
    simp [hDigits] at h
  next => rfl

/- The digits of a magnitude have no sign. -/
theorem splitSign_toDigits (magnitude : Nat) :
    splitSign (Nat.toDigits 10 magnitude) =
      (false, Nat.toDigits 10 magnitude) := by
  unfold splitSign
  split
  next hDigits =>
    have h := isDigit_of_mem_toDigits (c := '-')
      (by rw [hDigits]; exact List.mem_cons_self)
    exact absurd h (by decide)
  next hDigits =>
    have h := isDigit_of_mem_toDigits (c := '+')
      (by rw [hDigits]; exact List.mem_cons_self)
    exact absurd h (by decide)
  next => rfl

------------------------------------------------------------
-- Round Trip
------------------------------------------------------------

/-
  The text of an integer of any size is read as the integer,
  if it fits into 64 bits.
-/
theorem read?_writeInt (value : Int) :
    read? (writeInt value) = int64? value := by
  cases value with
  | ofNat magnitude =>
      simp only [read?, writeInt, splitSign_toDigits,
        splitBase_toDigits, magnitude?_toDigits]
      rfl
  | negSucc less =>
      have hSign :
          splitSign ('-' :: Nat.toDigits 10 (less + 1)) =
            (true, Nat.toDigits 10 (less + 1)) := rfl
      simp only [read?, writeInt, hSign,
        splitBase_toDigits, magnitude?_toDigits]
      rfl

/- The text of a 64-bit integer is read as the integer. -/
theorem read?_write (number : Int64) :
    read? (write number).toList = some number := by
  rw [write, String.toList_ofList, read?_writeInt, int64?,
    if_pos ⟨number.minValue_le_toInt, number.toInt_le⟩,
    Int64.ofInt_toInt]

------------------------------------------------------------
-- Bare Words
------------------------------------------------------------

theorem isWordChar_of_isDigit
    {c : Char}
    (hDigit : c.isDigit = true) : isWordChar c = true := by
  apply isWordChar_of_isIdentifierRest
  simp [isIdentifierRest, Char.isAlphanum, hDigit]

theorem isWordChar_of_mem_writeInt
    {value : Int}
    {c : Char}
    (hMem : c ∈ writeInt value) : isWordChar c = true := by
  cases value with
  | ofNat magnitude =>
      exact isWordChar_of_isDigit
        (isDigit_of_mem_toDigits hMem)
  | negSucc less =>
      rcases List.mem_cons.mp hMem with rfl | hDigits
      · decide
      · exact isWordChar_of_isDigit
          (isDigit_of_mem_toDigits hDigits)

theorem writeInt_ne_nil (value : Int) :
    writeInt value ≠ [] := by
  cases value with
  | ofNat magnitude => exact Nat.toDigits_ne_nil
  | negSucc less => simp [writeInt]

/- The bare word that the text of an integer is. -/
def bareWord (number : Int64) : BareWord :=
  ⟨writeInt number.toInt, writeInt_ne_nil _,
    fun _ => isWordChar_of_mem_writeInt⟩

theorem toList_write (number : Int64) :
    (write number).toList = (bareWord number).chars :=
  String.toList_ofList

end Numeral

end ProtoSchema
