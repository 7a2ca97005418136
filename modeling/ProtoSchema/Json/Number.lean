/-
  JSON numbers: their form, and which of them denote a
  value. An integer literal denotes itself; a number with a
  fraction or an exponent is only asked whether it lies in
  the range of doubles.

  Key definitions include:
    * `NumberLiteral`
    * `NumberLiteral.read?`
    * `NumberLiteral.overflows`
-/

namespace ProtoSchema

/-
  The parts of a number: its sign, and the digits before the
  point, after it and in the exponent, if it has these parts.
-/
structure NumberLiteral where
  negative : Bool
  whole : List Char
  fraction : Option (List Char)
  exponent : Option (Bool × List Char)

namespace NumberLiteral

------------------------------------------------------------
-- The Form
------------------------------------------------------------

/- The digits at the front, if there are any, and the rest. -/
def splitDigits?
    (word : List Char) : Option (List Char × List Char) :=
  match word.takeWhile Char.isDigit with
  | [] => none
  | digits => some (digits, word.dropWhile Char.isDigit)

/- Digits without a leading zero, and the rest. -/
def splitWhole? :
    List Char → Option (List Char × List Char)
  | '0' :: rest =>
      if (rest.takeWhile Char.isDigit).isEmpty then
        some (['0'], rest)
      else
        none
  | word => splitDigits? word

/- The digits after a point, if there is a point. -/
def splitFraction? :
    List Char →
      Option (Option (List Char) × List Char)
  | '.' :: rest => do
      let (digits, rest) ← splitDigits? rest
      some (some digits, rest)
  | word => some (none, word)

/- The sign of an exponent. The flag tells a minus. -/
def splitExponentSign : List Char → Bool × List Char
  | '+' :: rest => (false, rest)
  | '-' :: rest => (true, rest)
  | word => (false, word)

/- The sign and digits after an `e`, if there is one. -/
def splitExponent? :
    List Char →
      Option (Option (Bool × List Char) × List Char)
  | [] => some (none, [])
  | c :: rest =>
      if c = 'e' || c = 'E' then do
        let (negative, rest) := splitExponentSign rest
        let (digits, rest) ← splitDigits? rest
        some (some (negative, digits), rest)
      else
        some (none, c :: rest)

/- The sign of a number. The flag tells a minus. -/
def splitMinus : List Char → Bool × List Char
  | '-' :: rest => (true, rest)
  | word => (false, word)

/- The number that a whole word is, if it is one. -/
def read? (word : List Char) : Option NumberLiteral := do
  let (negative, rest) := splitMinus word
  let (whole, rest) ← splitWhole? rest
  let (fraction, rest) ← splitFraction? rest
  let (exponent, rest) ← splitExponent? rest
  if rest.isEmpty then
    some ⟨negative, whole, fraction, exponent⟩
  else
    none

------------------------------------------------------------
-- The Range of Doubles
------------------------------------------------------------

/- The largest significand that is gathered from digits. -/
def maxSignificand : Nat :=
  Nat.pow 2 64 - 1

/-
  Gather digits as long as the significand stays in range,
  and answer with it and the digits that are left over.
-/
def gather
    (significand : Nat) : List Char → Nat × List Char
  | [] => (significand, [])
  | c :: rest =>
      let next :=
        significand * 10 + (c.toNat - '0'.toNat)
      if next ≤ maxSignificand then
        gather next rest
      else
        (significand, c :: rest)

/-
  The nearest number with 53 significant bits, of two the
  even one: what a double can hold, if its exponent could
  grow without bound.
-/
def nearestDouble (value : Nat) : Nat :=
  let step := Nat.pow 2 (value.log2 - 52)
  let low := value / step
  let twiceOver := 2 * (value % step)
  if step < twiceOver ||
      (step = twiceOver && low % 2 = 1) then
    (low + 1) * step
  else
    low * step

/- The least value that rounds to no finite double. -/
def doubleBound : Nat :=
  Nat.pow 2 1024 - Nat.pow 2 970

/-
  The exponent that the digits left over and the fraction
  ask for, before the written exponent is added.
-/
def significand
    (literal : NumberLiteral) : Nat × Int :=
  let (value, beyond) := gather 0 literal.whole
  match literal.fraction with
  | none => (value, beyond.length)
  | some digits =>
      let (value, unread) := gather value digits
      (value,
        (beyond.length : Int) -
          (digits.length - unread.length : Nat))

/- The written exponent, zero if there is none. -/
def writtenExponent (literal : NumberLiteral) : Int :=
  match literal.exponent with
  | none => 0
  | some (true, digits) =>
      -(Nat.ofDigitChars 10 digits 0 : Int)
  | some (false, digits) =>
      Nat.ofDigitChars 10 digits 0

/-
  Whether a number is beyond the range of doubles. It is
  worked out as the product of a significand of at most 64
  bits and a power of ten, each rounded to a double.
-/
def overflows (literal : NumberLiteral) : Bool :=
  let (value, offset) := literal.significand
  let exponent := offset + literal.writtenExponent
  if value = 0 || exponent < 0 then
    false
  else if exponent > 308 then
    true
  else
    nearestDouble value *
        nearestDouble (Nat.pow 10 exponent.toNat) ≥
      doubleBound

/-
  The integer that a literal is: one without a fraction and
  an exponent, and without a minus before zero.
-/
def integer? (literal : NumberLiteral) : Option Int :=
  match literal.fraction, literal.exponent with
  | none, none =>
      let value := Nat.ofDigitChars 10 literal.whole 0
      if !literal.negative then
        some value
      else if value = 0 then
        none
      else
        some (-(value : Int))
  | _, _ => none

end NumberLiteral

end ProtoSchema
