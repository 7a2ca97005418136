import ProtoSchema.Json.Basic
import ProtoSchema.Json.Number
import ProtoSchema.Text.Numeral

/-
  The tokens of JSON text: punctuation, quoted text and bare
  words. Blanks between them are skipped.

  Key definitions include:
    * `Json.Piece`
    * `Json.splitQuoted?`
    * `Json.joinPieces?`
    * `Json.Token`
    * `Json.tokens?`

  Main theorems:
    * `Json.splitQuoted?_lt`
-/

namespace ProtoSchema

namespace Json

------------------------------------------------------------
-- Quoted Text
------------------------------------------------------------

/-
  A piece of quoted text: a character, or a unit of UTF-16
  written by its four hexadecimal digits.
-/
inductive Piece where
  | char (c : Char)
  | unit (value : Nat)
deriving DecidableEq, Repr

/- The unit that four hexadecimal digits denote. -/
def unit? (a b c d : Char) : Option Nat := do
  let a ← digitValue? 16 a
  let b ← digitValue? 16 b
  let c ← digitValue? 16 c
  let d ← digitValue? 16 d
  some (((a * 16 + b) * 16 + c) * 16 + d)

/- The character that a letter after a backslash denotes. -/
def unescape? (c : Char) : Option Char :=
  if c = '"' || c = '\\' || c = '/' then
    some c
  else if c = 'b' then
    some '\x08'
  else if c = 'f' then
    some '\x0c'
  else if c = 'n' then
    some '\n'
  else if c = 'r' then
    some '\r'
  else if c = 't' then
    some '\t'
  else
    none

/-
  The pieces up to the closing quote, and the text after it.
  Control characters may not stand in quoted text.
-/
def splitQuoted? :
    List Char → Option (List Piece × List Char)
  | [] => none
  | '"' :: rest => some ([], rest)
  | '\\' :: 'u' :: a :: b :: c :: d :: rest => do
      let unit ← unit? a b c d
      let (pieces, after) ← splitQuoted? rest
      some (.unit unit :: pieces, after)
  | '\\' :: c :: rest => do
      let char ← unescape? c
      let (pieces, after) ← splitQuoted? rest
      some (.char char :: pieces, after)
  | c :: rest =>
      if c = '\\' || c < ' ' then
        none
      else do
        let (pieces, after) ← splitQuoted? rest
        some (.char c :: pieces, after)

/- Quoted text takes at least its closing quote. -/
theorem splitQuoted?_lt
    {text after : List Char}
    {pieces : List Piece}
    (h : splitQuoted? text = some (pieces, after)) :
    after.length < text.length := by
  fun_induction splitQuoted? text
      generalizing pieces after with
  | case1 => simp at h
  | case2 rest =>
      simp only [Option.some.injEq, Prod.mk.injEq] at h
      simp [h.2]
  | case3 a b c d rest ih =>
      simp only [bind, Option.bind_eq_some_iff] at h
      rcases h with ⟨_, _, ⟨inner, tail⟩, hRest, hEq⟩
      simp only [Option.some.injEq, Prod.mk.injEq] at hEq
      have hLess := ih hRest
      simp only [List.length_cons, ← hEq.2]
      omega
  | case4 c rest _ ih =>
      simp only [bind, Option.bind_eq_some_iff] at h
      rcases h with ⟨_, _, ⟨inner, tail⟩, hRest, hEq⟩
      simp only [Option.some.injEq, Prod.mk.injEq] at hEq
      have hLess := ih hRest
      simp only [List.length_cons, ← hEq.2]
      omega
  | case5 => simp at h
  | case6 c rest _ _ _ _ ih =>
      simp only [bind, Option.bind_eq_some_iff] at h
      rcases h with ⟨⟨inner, tail⟩, hRest, hEq⟩
      simp only [Option.some.injEq, Prod.mk.injEq] at hEq
      have hLess := ih hRest
      simp only [List.length_cons, ← hEq.2]
      omega

/- The two halves of the surrogate range. -/
def isHighSurrogate (unit : Nat) : Bool :=
  0xD800 ≤ unit && unit ≤ 0xDBFF

def isLowSurrogate (unit : Nat) : Bool :=
  0xDC00 ≤ unit && unit ≤ 0xDFFF

/- The character that a pair of surrogates denotes. -/
def pairedChar (high low : Nat) : Char :=
  Char.ofNat
    (0x10000 + (high - 0xD800) * 0x400 + (low - 0xDC00))

/-
  The characters that pieces denote. A high surrogate needs
  a low one right after it, and a low one may not stand
  elsewhere.
-/
def joinPieces? : List Piece → Option (List Char)
  | [] => some []
  | .char c :: rest => do
      let chars ← joinPieces? rest
      some (c :: chars)
  | .unit high :: .unit low :: rest =>
      if isHighSurrogate high then
        if isLowSurrogate low then do
          let chars ← joinPieces? rest
          some (pairedChar high low :: chars)
        else
          none
      else if isLowSurrogate high then
        none
      else do
        let chars ← joinPieces? (.unit low :: rest)
        some (Char.ofNat high :: chars)
  | .unit unit :: rest =>
      if isHighSurrogate unit || isLowSurrogate unit then
        none
      else do
        let chars ← joinPieces? rest
        some (Char.ofNat unit :: chars)

------------------------------------------------------------
-- Tokens
------------------------------------------------------------

/-
  A token. Quoted text that denotes nothing is a token all
  the same.
-/
inductive Token where
  | openList
  | closeList
  | openObject
  | closeObject
  | comma
  | colon
  | text (content : Option String)
  | scalar (value : Json)

/- The blanks of JSON. -/
def isSpace (c : Char) : Bool :=
  c = ' ' || c = '\t' || c = '\n' || c = '\r'

/- The tokens of one character. -/
def punctuation? (c : Char) : Option Token :=
  if c = '[' then
    some .openList
  else if c = ']' then
    some .closeList
  else if c = '\x7b' then
    some .openObject
  else if c = '\x7d' then
    some .closeObject
  else if c = ',' then
    some .comma
  else if c = ':' then
    some .colon
  else
    none

/- The characters of numbers and of the three names. -/
def isBare (c : Char) : Bool :=
  c.isAlphanum || c = '+' || c = '-' || c = '.'

/- The value that a number denotes. -/
def ofNumber (literal : NumberLiteral) : Json :=
  if literal.overflows then
    .unusable
  else
    match literal.integer? with
    | some value => .int value
    | none => .real

/- The value that a bare word denotes. -/
def ofBare? (word : List Char) : Option Json :=
  if word = "null".toList then
    some .null
  else if word = "true".toList then
    some (.bool true)
  else if word = "false".toList then
    some (.bool false)
  else
    (NumberLiteral.read? word).map ofNumber

/- The tokens of a text, if it has no other characters. -/
def tokens? (text : List Char) : Option (List Token) :=
  match text with
  | [] => some []
  | c :: rest =>
      if isSpace c then
        tokens? rest
      else if c = '"' then
        match _hQuoted : splitQuoted? rest with
        | none => none
        | some (pieces, after) => do
            let content :=
              (joinPieces? pieces).map String.ofList
            let tokens ← tokens? after
            some (.text content :: tokens)
      else if isBare c then do
        let value ←
          ofBare? (c :: rest.takeWhile isBare)
        let tokens ← tokens? (rest.dropWhile isBare)
        some (.scalar value :: tokens)
      else do
        let token ← punctuation? c
        let tokens ← tokens? rest
        some (token :: tokens)
termination_by text.length
decreasing_by
  · simp
  · have hLess := splitQuoted?_lt _hQuoted
    simp only [List.length_cons]
    omega
  · have hLength :=
      (List.dropWhile_suffix isBare (l := rest)).length_le
    simp only [List.length_cons]
    omega
  · simp

end Json

end ProtoSchema
