/-
  Text for a log that is no terminal: the sequences that
  steer a terminal are taken out, and so are the control
  characters other than blanks.

  Key definitions include:
    * `Terminal.Mode`
    * `Terminal.afterEscape`
    * `Terminal.afterDevice`
    * `Terminal.change`
    * `Terminal.afterShown`
    * `Terminal.strip`
-/

namespace ProtoSchema

namespace Terminal

/- What the characters read so far have begun. -/
inductive Mode where
  | ground
  /- An escape character. -/
  | escape
  /- An escape character and intermediate characters. -/
  | intermediate
  /- A control sequence, which a letter ends. -/
  | control
  /- An operating system command, which a bell ends. -/
  | command
  /- A device control string, before its parameters. -/
  | device
  /- The parameters of a device control string. -/
  | parameters
  /- The characters between parameters and content. -/
  | introduction
  /- The content of a string that is no command. -/
  | content
deriving DecidableEq, Repr

/- Control characters that are blanks. -/
def isBlankControl (c : Char) : Bool :=
  c = '\t' || c = '\n' || c = '\x0c' || c = '\r'

/- The characters that stand for themselves. -/
def isShown (c : Char) : Bool :=
  isBlankControl c || (' ' ≤ c && c ≠ '\x7f')

/-
  Whether a character ends the content of a string: whether
  the byte that does so is in its encoding.
-/
def endsContent (c : Char) : Bool :=
  (String.singleton c).toUTF8.toList.contains 0x9c

/- The mode after the character that follows an escape. -/
def afterEscape (c : Char) : Mode :=
  if c < ' ' || '\x7e' < c then
    .escape
  else if c < '0' then
    .intermediate
  else if c = '[' then
    .control
  else if c = ']' then
    .command
  else if c = 'P' then
    .device
  else if c = 'X' || c = '^' || c = '_' then
    .content
  else
    .ground

/-
  The mode after a character at the start of a device
  control string. A letter begins the content, and so does a
  parameter that stands too late. Characters that are not
  printable ASCII are passed over.
-/
def afterDevice
    (mode : Mode)
    (c : Char) : Mode :=
  if c < ' ' || '\x7e' < c then
    mode
  else if '@' ≤ c then
    .content
  else if c < '0' then
    .introduction
  else if mode = .introduction then
    .content
  else if mode = .parameters && '<' ≤ c then
    .content
  else
    .parameters

/-
  The mode after one character, and whether it is shown.
  Escape, cancel and substitute act in every mode.
-/
def change
    (mode : Mode)
    (c : Char) : Mode × Bool :=
  if c = '\x1b' then
    (.escape, false)
  else if c = '\x18' || c = '\x1a' then
    (.ground, false)
  else
    match mode with
    | .ground => (.ground, isShown c)
    | .escape => (afterEscape c, isBlankControl c)
    | .intermediate =>
        if '0' ≤ c && c ≤ '\x7e' then
          (.ground, false)
        else
          (.intermediate, isBlankControl c)
    | .control =>
        if '@' ≤ c && c ≤ '\x7e' then
          (.ground, false)
        else
          (.control, isBlankControl c)
    | .command =>
        if c = '\x07' then
          (.ground, false)
        else
          (.command, false)
    | .content =>
        if endsContent c then
          (.ground, false)
        else
          (.content, false)
    | header => (afterDevice header c, false)

/-
  The mode after a character of a run. One that is encoded
  in several bytes drops whatever had been begun.
-/
def afterShown
    (mode : Mode)
    (c : Char) : Mode :=
  if c.utf8Size = 1 then
    mode
  else
    .ground

/-
  The characters that are shown. While a run of them lasts,
  each is taken as it stands, whatever had been begun.
-/
def stripFrom
    (mode : Mode)
    (inRun : Bool) : List Char → List Char
  | [] => []
  | c :: rest =>
      if inRun && isShown c then
        c :: stripFrom (afterShown mode c) true rest
      else
        let (next, shown) := change mode c
        if shown then
          c :: stripFrom next true rest
        else
          stripFrom next false rest

/- A text without what only a terminal makes sense of. -/
def strip (text : List Char) : List Char :=
  stripFrom .ground false text

end Terminal

end ProtoSchema
