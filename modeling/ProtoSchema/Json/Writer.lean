import ProtoSchema.Json.Basic
import ProtoSchema.Text.Numeral

/-
  The two written forms of JSON values: without any blanks,
  and with one entry a line.

  Key definitions include:
    * `Json.escapeChar`
    * `Json.quote`
    * `Json.compact`
    * `Json.pretty`
-/

namespace ProtoSchema

namespace Json

------------------------------------------------------------
-- Strings
------------------------------------------------------------

/- The lower-case hexadecimal digits of a byte. -/
def hexByte (byte : Nat) : List Char :=
  [Nat.digitChar (byte / 16), Nat.digitChar (byte % 16)]

/-
  A character as it stands in quoted text. Only the quote,
  the backslash and the characters before the space are
  escaped, by a letter where there is one.
-/
def escapeChar (c : Char) : List Char :=
  if c = '"' then
    ['\\', '"']
  else if c = '\\' then
    ['\\', '\\']
  else if c = '\x08' then
    ['\\', 'b']
  else if c = '\x0c' then
    ['\\', 'f']
  else if c = '\n' then
    ['\\', 'n']
  else if c = '\r' then
    ['\\', 'r']
  else if c = '\t' then
    ['\\', 't']
  else if c < ' ' then
    ['\\', 'u', '0', '0'] ++ hexByte c.toNat
  else
    [c]

/- Text between double quotes. -/
def quote (text : String) : List Char :=
  '"' :: text.toList.flatMap escapeChar ++ ['"']

------------------------------------------------------------
-- Values
------------------------------------------------------------

/-
  A value that holds no other. A number that is not an
  integer, or denotes nothing, has no written form here and
  stands as null.
-/
def writeScalar : Json → List Char
  | .bool true => "true".toList
  | .bool false => "false".toList
  | .int value => Numeral.writeInt value
  | .str text => quote text
  | _ => "null".toList

mutual

/- A value without any blanks. -/
def writeCompact : Json → List Char
  | .arr [] => "[]".toList
  | .arr (item :: rest) =>
      '[' :: writeCompact item ++ compactItems rest ++ [']']
  | .obj [] => ['\x7b', '\x7d']
  | .obj ((key, value) :: rest) =>
      '\x7b' :: quote key ++ ':' :: writeCompact value ++
        compactEntries rest ++ ['\x7d']
  | scalar => writeScalar scalar

def compactItems : List Json → List Char
  | [] => []
  | item :: rest =>
      ',' :: writeCompact item ++ compactItems rest

def compactEntries : List (String × Json) → List Char
  | [] => []
  | (key, value) :: rest =>
      ',' :: quote key ++ ':' :: writeCompact value ++
        compactEntries rest

end

/- The end of a line, and the start of one at a depth. -/
def newLine (depth : Nat) : List Char :=
  '\n' :: List.replicate (2 * depth) ' '

mutual

/-
  A value with one entry a line, two spaces further in for
  each container around it. Empty containers take no line.
-/
def writePretty (depth : Nat) : Json → List Char
  | .arr [] => "[]".toList
  | .arr (item :: rest) =>
      '[' :: newLine (depth + 1) ++
        writePretty (depth + 1) item ++
        prettyItems (depth + 1) rest ++
        newLine depth ++ [']']
  | .obj [] => ['\x7b', '\x7d']
  | .obj ((key, value) :: rest) =>
      '\x7b' :: newLine (depth + 1) ++ quote key ++
        ':' :: ' ' :: writePretty (depth + 1) value ++
        prettyEntries (depth + 1) rest ++
        newLine depth ++ ['\x7d']
  | scalar => writeScalar scalar

def prettyItems (depth : Nat) : List Json → List Char
  | [] => []
  | item :: rest =>
      ',' :: newLine depth ++ writePretty depth item ++
        prettyItems depth rest

def prettyEntries (depth : Nat) :
    List (String × Json) → List Char
  | [] => []
  | (key, value) :: rest =>
      ',' :: newLine depth ++ quote key ++
        ':' :: ' ' :: writePretty depth value ++
        prettyEntries depth rest

end

/- The shortest written form. -/
def compact (json : Json) : String :=
  String.ofList (writeCompact json)

/- The written form for readers. -/
def pretty (json : Json) : String :=
  String.ofList (writePretty 0 json)

end Json

end ProtoSchema
