import ProtoSchema.Text.Numeral

/-
  What can go wrong: failures of the input, faults in the
  text of a schema, and violations found by checking one.
  Each cause is a constructor; its wording is in `message`.

  Key definitions include:
    * `InputFailure`
    * `Fault`
    * `Feature`
    * `ParseError`
    * `Violation`
-/

namespace ProtoSchema

------------------------------------------------------------
-- Failures of the Input
------------------------------------------------------------

/-
  Why the text of a schema could not be had. `other` carries
  the words of a source that explains itself.
-/
inductive InputFailure where
  | notFound
  | notADirectory
  | isADirectory
  | nameTooLong
  | nulInName
  | notUtf8
  | other (explanation : String)
deriving DecidableEq, Repr

/- The wording of a failure. -/
def InputFailure.message : InputFailure → String
  | notFound => "No such file or directory (os error 2)"
  | notADirectory => "Not a directory (os error 20)"
  | isADirectory => "Is a directory (os error 21)"
  | nameTooLong => "File name too long (os error 36)"
  | nulInName =>
      "file name contained an unexpected NUL byte"
  | notUtf8 => "stream did not contain valid UTF-8"
  | other explanation => explanation

------------------------------------------------------------
-- Faults in the Text
------------------------------------------------------------

/-
  Text that no rule of the grammar accepts at the place
  where it stands.
-/
inductive Fault where
  /- A slash that does not begin a line comment. -/
  | malformedComment
  /- Another character where one certain character must be. -/
  | unexpectedChar
      (expected : Char)
      (context : String)
      (found : Char)
  /- A word of the wrong form for what is being read. -/
  | malformedWord
      (reading : String)
      (word : String)
  /- A word that is no type, where a member begins. -/
  | malformedFieldType
      (word : String)
      (owner : String)
  /- A word that is no integer. -/
  | notAnInteger
      (reading : String)
      (word : String)
  /- A second syntax declaration. -/
  | duplicateSyntax
  /- A reading continued after it had failed. -/
  | alreadyFailed
deriving DecidableEq, Repr

/- The wording of a fault. -/
def Fault.message : Fault → String
  | malformedComment => "malformed comment"
  | unexpectedChar expected context found =>
      s!"expected '{expected}' {context}, found '{found}'"
  | malformedWord reading word =>
      s!"malformed {reading} \"{word}\""
  | malformedFieldType word owner =>
      s!"malformed field type \"{word}\" in \"{owner}\""
  | notAnInteger reading word =>
      s!"expected {reading}, found \"{word}\""
  | duplicateSyntax => "duplicate syntax declaration"
  | alreadyFailed => "parser already failed"

/-
  Parts of the schema language that are known and refused.
-/
inductive Feature where
  /- A message inside a message. -/
  | nestedMessage
  /- A syntax version other than proto3. -/
  | syntaxVersion (version : String)
  /- A top-level declaration, named by its keyword. -/
  | declaration (keyword : String)
deriving DecidableEq, Repr

/- The name of a refused feature. -/
def Feature.message : Feature → String
  | nestedMessage => "nested message"
  | syntaxVersion version =>
      s!"syntax \"{version}\" (expected \"proto3\")"
  | declaration keyword => keyword

/-
  Why reading a schema failed. Each error ends the reading.
-/
inductive ParseError where
  | input (failure : InputFailure)
  /- The text ended in the middle of `reading`. -/
  | unexpectedEnd (reading : String)
  | malformed (fault : Fault)
  /- A declaration before the syntax declaration. -/
  | outOfOrder (keyword : String)
  | unsupported (feature : Feature)
  | unknownKeyword (word : String)
  /- A construct that may not stand in a oneof. -/
  | notInOneof
      (oneof : String)
      (construct : String)
deriving DecidableEq, Repr

/- The wording of an error. -/
def ParseError.message : ParseError → String
  | input failure =>
      "I/O error: " ++ failure.message
  | unexpectedEnd reading =>
      s!"unexpected end of file while reading {reading}"
  | malformed fault =>
      "syntax error: " ++ fault.message
  | outOfOrder keyword =>
      s!"found \"{keyword}\" before syntax = \"proto3\" " ++
        "(proto2 syntax not supported)"
  | unsupported feature =>
      feature.message ++ " not supported"
  | unknownKeyword word =>
      s!"unrecognized keyword \"{word}\""
  | notInOneof oneof construct =>
      s!"{construct} not allowed inside oneof '{oneof}'"

------------------------------------------------------------
-- Violations
------------------------------------------------------------

/-
  Why a schema that was read is not a valid one.
-/
inductive Violation where
  | duplicateMessage (name : String)
  | duplicateMember
      (message : String)
      (name : String)
  | duplicateFieldNumber
      (message : String)
      (number : Int64)
  | invalidFieldNumber
      (message : String)
      (field : String)
      (number : Int64)
  | duplicateEnumValue
      (enum : String)
      (name : String)
  | firstEnumValueNotZero (enum : String)
deriving DecidableEq, Repr

/- The wording of a violation. -/
def Violation.message : Violation → String
  | duplicateMessage name =>
      s!"redefined message '{name}'"
  | duplicateMember message name =>
      s!"duplicate member '{name}' in message '{message}'"
  | duplicateFieldNumber message number =>
      "duplicate field number " ++ Numeral.write number ++
        s!" in message '{message}'"
  | invalidFieldNumber message field number =>
      s!"field '{field}' in message '{message}' " ++
        "has invalid number " ++ Numeral.write number
  | duplicateEnumValue enum name =>
      s!"duplicate value '{name}' in enum '{enum}'"
  | firstEnumValueNotZero enum =>
      s!"first value of enum '{enum}' must be zero"

end ProtoSchema
