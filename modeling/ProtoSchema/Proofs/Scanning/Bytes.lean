import ProtoSchema.Parser.Scan
import ProtoSchema.Source.Stream

/-
  The scanner as a machine on the UTF-8 encoding of a text.
  It moves byte by byte, and looks at characters only where
  it cuts a text out of the bytes. Such a cut fails, and the
  machine with it, if one of its ends is inside a character.

  Key definitions include:
    * `encode`
    * `slice?`
    * `ByteParser`
    * `passWhile`
    * `ByteParser.skipGap`
    * `ByteParser.takeWord`
    * `ByteParser.takeQuoted`
-/

namespace ProtoSchema

------------------------------------------------------------
-- Encodings
------------------------------------------------------------

/- The UTF-8 encoding of a text. -/
def encode (text : List Char) : List UInt8 :=
  text.flatMap String.utf8EncodeChar

/-
  The position is the end of the bytes, or that of a byte
  that begins a character.
-/
def IsBoundary
    (bytes : List UInt8)
    (position : Nat) : Prop :=
  position = bytes.length ∨
    ∃ byte ∈ bytes[position]?, byte.IsUTF8FirstByte

instance
    (bytes : List UInt8)
    (position : Nat) :
    Decidable (IsBoundary bytes position) := by
  unfold IsBoundary
  infer_instance

/-
  The text between two positions, which have to be in order
  and on boundaries.
-/
def slice?
    (bytes : List UInt8)
    (start stop : Nat) : Option String :=
  if start ≤ stop ∧ IsBoundary bytes start ∧
      IsBoundary bytes stop then
    (decodeText ((bytes.take stop).drop start)).toOption
  else
    none

------------------------------------------------------------
-- Classes of Bytes
------------------------------------------------------------

/- The bytes of blanks. -/
def isBlankByte (byte : UInt8) : Bool :=
  byte = ' '.toUInt8 || byte = '\t'.toUInt8 ||
    byte = '\n'.toUInt8 || byte = '\x0c'.toUInt8 ||
      byte = '\r'.toUInt8

/- The bytes of delimiters. -/
def isDelimiterByte (byte : UInt8) : Bool :=
  byte = '\x7b'.toUInt8 || byte = '\x7d'.toUInt8 ||
    byte = '='.toUInt8 || byte = ';'.toUInt8 ||
      byte = '"'.toUInt8 || byte = '/'.toUInt8

/- The bytes of word characters. -/
def isWordByte (byte : UInt8) : Bool :=
  !isBlankByte byte && !isDelimiterByte byte

------------------------------------------------------------
-- Moving
------------------------------------------------------------

/- The position behind all bytes in a row that satisfy `p`. -/
def passWhile
    (p : UInt8 → Bool)
    (bytes : List UInt8)
    (position : Nat) : Nat :=
  if h : position < bytes.length then
    if p bytes[position] then
      passWhile p bytes (position + 1)
    else
      position
  else
    position
termination_by bytes.length - position

theorem le_passWhile
    (p : UInt8 → Bool)
    (bytes : List UInt8)
    (position : Nat) :
    position ≤ passWhile p bytes position := by
  fun_induction passWhile p bytes position with
  | case1 position _ _ ih => omega
  | case2 => exact Nat.le_refl _
  | case3 => exact Nat.le_refl _

/- The position behind the end of the line. -/
def passLine
    (bytes : List UInt8)
    (position : Nat) : Nat :=
  let stop := passWhile (· ≠ '\n'.toUInt8) bytes position
  if stop < bytes.length then stop + 1 else stop

theorem le_passLine
    (bytes : List UInt8)
    (position : Nat) :
    position ≤ passLine bytes position := by
  have hLe :=
    le_passWhile (· ≠ '\n'.toUInt8) bytes position
  unfold passLine
  dsimp only
  split <;> omega

/-
  Skip blanks and line comments, after some comments that
  are counted already.
-/
def passGap
    (bytes : List UInt8)
    (comments : Nat)
    (position : Nat) : Except ParseError Nat × Nat :=
  let start := passWhile isBlankByte bytes position
  if hSlash : bytes[start]? = some '/'.toUInt8 then
    if bytes[start + 1]? = some '/'.toUInt8 then
      passGap bytes (comments + 1)
        (passLine bytes (start + 2))
    else
      (.error (.malformed .malformedComment), start)
  else
    (.ok comments, start)
termination_by bytes.length - position
decreasing_by
  have hStart := le_passWhile isBlankByte bytes position
  have hLine := le_passLine bytes
    (passWhile isBlankByte bytes position + 2)
  have hLength := (List.getElem?_eq_some_iff.mp hSlash).1
  omega

------------------------------------------------------------
-- Byte Parsers
------------------------------------------------------------

/-
  A step of the machine on the bytes from a position. There
  is no outcome if a cut has failed; otherwise there are a
  result and the position that was reached.
-/
structure ByteParser (α : Type) where
  run :
    List UInt8 → Nat → Option (Except ParseError α × Nat)

namespace ByteParser

variable {α β : Type}

protected def pure (value : α) : ByteParser α where
  run _ position := some (.ok value, position)

protected def bind
    (first : ByteParser α)
    (next : α → ByteParser β) : ByteParser β where
  run bytes position :=
    match first.run bytes position with
    | none => none
    | some (.error error, reached) =>
        some (.error error, reached)
    | some (.ok value, reached) =>
        (next value).run bytes reached

instance : Monad ByteParser where
  pure := ByteParser.pure
  bind := ByteParser.bind

section Sequencing

variable {first : ByteParser α}
variable {next : α → ByteParser β}
variable {bytes : List UInt8}
variable {position reached : Nat}

/- After a success the next step goes on. -/
theorem bind_of_ok
    {value : α}
    (h : first.run bytes position =
      some (.ok value, reached)) :
    (first >>= next).run bytes position =
      (next value).run bytes reached := by
  show (ByteParser.bind first next).run bytes position = _
  simp only [ByteParser.bind, h]

/- After an error nothing is done. -/
theorem bind_of_error
    {error : ParseError}
    (h : first.run bytes position =
      some (.error error, reached)) :
    (first >>= next).run bytes position =
      some (.error error, reached) := by
  show (ByteParser.bind first next).run bytes position = _
  simp only [ByteParser.bind, h]

end Sequencing

/- Answer with a step that may fail. -/
def ofExcept
    (step : Except ParseError α) : ByteParser α where
  run _ position := some (step, position)

def fail (error : ParseError) : ByteParser α :=
  ofExcept (.error error)

/- Move on by a number of bytes. -/
def advance (count : Nat) : ByteParser Unit where
  run _ position := some (.ok (), position + count)

def skipBlanks : ByteParser Unit where
  run bytes position :=
    some (.ok (), passWhile isBlankByte bytes position)

def skipGap : ByteParser Nat where
  run bytes position := some (passGap bytes 0 position)

/- The first character of the text from the position on. -/
def peek : ByteParser (Option Char) where
  run bytes position :=
    (slice? bytes position bytes.length).map fun text =>
      (.ok text.toList.head?, position)

def eat (c : Char) : ByteParser Bool := do
  let found ← peek
  if found = some c then do
    advance c.utf8Size
    pure true
  else
    pure false

def require
    (c : Char)
    (context : String) : ByteParser Unit := do
  match ← peek with
  | none => fail (.unexpectedEnd s!"'{c}' {context}")
  | some found =>
      if found = c then
        advance c.utf8Size
      else
        fail (.malformed (.unexpectedChar c context found))

def expect
    (c : Char)
    (context : String) : ByteParser Unit := do
  let _ ← skipGap
  require c context

/- A delimiter alone, or all word bytes in a row. -/
def takeWord : ByteParser (Option String) where
  run bytes start :=
    match bytes[start]? with
    | none => some (.ok none, start)
    | some byte =>
        let stop :=
          if isDelimiterByte byte then
            start + 1
          else
            passWhile isWordByte bytes start
        (slice? bytes start stop).map fun word =>
          (.ok (some word), stop)

def nextWord : ByteParser (Option String) := do
  let _ ← skipGap
  takeWord

def readWord (reading : String) : ByteParser String := do
  match ← nextWord with
  | some word => pure word
  | none => fail (.unexpectedEnd reading)

def readWordOf
    (form : List Char → Bool)
    (reading : String) : ByteParser String := do
  let word ← readWord reading
  if form word.toList then
    pure word
  else
    fail (.malformed (.malformedWord reading word))

def readInteger (reading : String) : ByteParser Int64 := do
  let word ← readWord reading
  match Numeral.read? word.toList with
  | some number => pure number
  | none => fail (.malformed (.notAnInteger reading word))

/- All bytes up to a double quote, and the quote. -/
def takeQuoted (reading : String) : ByteParser String where
  run bytes start :=
    let stop := passWhile (· ≠ '"'.toUInt8) bytes start
    if stop < bytes.length then
      (slice? bytes start stop).map fun text =>
        (.ok text, stop + 1)
    else
      some (.error (.unexpectedEnd reading), stop)

def readQuoted (reading : String) : ByteParser String := do
  expect '"' s!"to open {reading}"
  takeQuoted reading

end ByteParser

end ProtoSchema
