/-
  Integer words: an optional sign and digits in base ten,
  sixteen (after `0x` or `0X`) or eight (after a further
  leading zero), within the signed 64-bit range.

  Key definitions include:
    * `digitValue?`
    * `Numeral.magnitude?`
    * `Numeral.read?`
    * `Numeral.write`
-/

namespace ProtoSchema

/-
  The value of an ASCII digit in a base up to sixteen.
  Letters count in both cases.
-/
def digitValue?
    (base : Nat)
    (c : Char) : Option Nat :=
  let value? :=
    if '0' ≤ c && c ≤ '9' then
      some (c.toNat - '0'.toNat)
    else if 'a' ≤ c && c ≤ 'f' then
      some (c.toNat - 'a'.toNat + 10)
    else if 'A' ≤ c && c ≤ 'F' then
      some (c.toNat - 'A'.toNat + 10)
    else
      none
  value?.filter (· < base)

namespace Numeral

/- Splits off one sign. The flag tells a minus. -/
def splitSign : List Char → Bool × List Char
  | '-' :: rest => (true, rest)
  | '+' :: rest => (false, rest)
  | word => (false, word)

/-
  Splits off the mark of the base. A zero marks base eight
  only when something follows it.
-/
def splitBase : List Char → Nat × List Char
  | '0' :: 'x' :: digits => (16, digits)
  | '0' :: 'X' :: digits => (16, digits)
  | '0' :: digit :: digits => (8, digit :: digits)
  | digits => (10, digits)

/- The number that a sequence of digits denotes after `value`. -/
def digitsFrom
    (base : Nat)
    (value : Nat) : List Char → Option Nat
  | [] => some value
  | c :: rest =>
      match digitValue? base c with
      | none => none
      | some digit =>
          digitsFrom base (value * base + digit) rest

/- The number that a non-empty sequence of digits denotes. -/
def magnitude?
    (base : Nat) : List Char → Option Nat
  | [] => none
  | digits => digitsFrom base 0 digits

/- The signed 64-bit integer of a value, if it is one. -/
def int64? (value : Int) : Option Int64 :=
  if Int64.minValue.toInt ≤ value ∧
      value ≤ Int64.maxValue.toInt then
    some (Int64.ofInt value)
  else
    none

/- The integer that a word denotes, if it denotes one. -/
def read? (word : List Char) : Option Int64 :=
  let (negative, unsigned) := splitSign word
  let (base, digits) := splitBase unsigned
  match magnitude? base digits with
  | none => none
  | some magnitude =>
      int64?
        (if negative then
          -(magnitude : Int)
        else
          (magnitude : Int))

/-
  The decimal digits of an integer: the fewest that denote
  it, after a minus if it is negative.
-/
def writeInt : Int → List Char
  | .ofNat magnitude => Nat.toDigits 10 magnitude
  | .negSucc less => '-' :: Nat.toDigits 10 (less + 1)

/- The decimal text of a signed 64-bit integer. -/
def write (number : Int64) : String :=
  String.ofList (writeInt number.toInt)

end Numeral

end ProtoSchema
