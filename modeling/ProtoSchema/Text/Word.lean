/-
  Character classes of schema text, and the two kinds of
  words that the grammar accepts as names.

  Key definitions include:
    * `isBlank`
    * `isDelimiter`
    * `isWordChar`
    * `isIdentifier`
    * `isTypeReference`
-/

namespace ProtoSchema

------------------------------------------------------------
-- Character Classes
------------------------------------------------------------

/-
  Blanks separate words: space, tab, line feed, form feed
  and carriage return. No other character is a blank.
-/
def isBlank (c : Char) : Bool :=
  c = ' ' || c = '\t' || c = '\n' || c = '\x0c' || c = '\r'

/-
  Delimiters end a word, and each is a word on its own.
-/
def isDelimiter (c : Char) : Bool :=
  c = '\x7b' || c = '\x7d' || c = '=' || c = ';' ||
    c = '"' || c = '/'

/- Every other character, ASCII or not, may stand in a word. -/
def isWordChar (c : Char) : Bool :=
  !isBlank c && !isDelimiter c

------------------------------------------------------------
-- Names
------------------------------------------------------------

/- The first character of an identifier. -/
def isIdentifierStart (c : Char) : Bool :=
  c.isAlpha || c = '_'

/- A later character of an identifier. -/
def isIdentifierRest (c : Char) : Bool :=
  c.isAlphanum || c = '_'

/-
  An identifier is a letter or underscore followed by
  letters, digits and underscores, all of them ASCII.
-/
def isIdentifier : List Char → Bool
  | [] => false
  | first :: rest =>
      isIdentifierStart first && rest.all isIdentifierRest

/-
  A type reference is one or more identifiers with dots
  between them, and may begin with one more dot.
-/
def isTypeReference : List Char → Bool
  | '.' :: rest => (rest.splitOn '.').all isIdentifier
  | word => (word.splitOn '.').all isIdentifier

end ProtoSchema
