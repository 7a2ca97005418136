import ProtoSchema.Parser.Block
import ProtoSchema.Schema.Basic

/-
  Parsers of declarations: fields, enums, oneofs, messages.
  Each is called when the keyword of its declaration has
  been read.

  Key definitions include:
    * `readField`
    * `readEnum`
    * `readOneof`
    * `readMessage`

  Main theorems:
    * `readField_advances`
    * `readEnum_advances`
    * `readOneof_advances`
    * `readMessage_advances`
-/

namespace ProtoSchema

namespace Parser

------------------------------------------------------------
-- Fields
------------------------------------------------------------

/-
  The word that begins a field has to be a type reference.
-/
def requireType
    (owner : String)
    (word : String) : Parser String :=
  if isTypeReference word.toList then
    pure word
  else
    fail (.malformed (.malformedFieldType word owner))

theorem requireType_shrinks
    (owner : String)
    (word : String) :
    (requireType owner word).Shrinks := by
  unfold requireType
  split
  · exact shrinks_pure _
  · exact shrinks_fail _

/- The record of a field. -/
def fieldRecord
    (place : Diagnostics)
    (field : Field) : Record :=
  place.debug
    ("Field " ++ field.name ++ " is of type " ++
      (if field.repeated then "repeated " else "") ++
      field.typeName ++ " (id = " ++
      Numeral.write field.number ++ ")")

/-
  Read a field after its type: its name, its number and the
  closing semicolon.
-/
def readField
    (place : Diagnostics)
    (owner : String)
    (typeName : String)
    (repeated : Bool) : Parser Field := do
  let name ← readIdentifier
    s!"field name (type={typeName}) in \"{owner}\""
  expect '=' s!"after field name \"{name}\" in \"{owner}\""
  let number ← readInteger
    s!"field ID (type={typeName}, name={name})"
  expect ';' s!"after field \"{name}\" in \"{owner}\""
  let field := Field.mk name typeName number repeated
  write (fieldRecord place field)
  pure field

theorem readField_advances
    (place : Diagnostics)
    (owner : String)
    (typeName : String)
    (repeated : Bool) :
    (readField place owner typeName repeated).Advances :=
  (readWordOf_advances _ _).bind fun _ =>
    (expect_advances _ _).shrinks.bind fun _ =>
      (readInteger_advances _).shrinks.bind fun _ =>
        (expect_advances _ _).shrinks.bind fun _ =>
          (shrinks_write _).bind fun _ =>
            shrinks_pure _

------------------------------------------------------------
-- Enums
------------------------------------------------------------

/- The record of a constant of an enum. -/
def enumValueRecord
    (place : Diagnostics)
    (value : EnumValue) : Record :=
  place.debug
    ("Value " ++ value.name ++ " = " ++
      Numeral.write value.value)

/- Read one constant of the enum `owner`. -/
def readEnumValue
    (place : Diagnostics)
    (owner : String) : Parser EnumValue := do
  let name ← readIdentifier
    s!"value name in enum \"{owner}\""
  expect '=' s!"after enum value \"{name}\""
  let number ← readInteger
    s!"integer value for \"{name}\""
  expect ';' s!"after enum value \"{name}\""
  let value := EnumValue.mk name number
  write (enumValueRecord place value)
  pure value

theorem readEnumValue_advances
    (place : Diagnostics)
    (owner : String) :
    (readEnumValue place owner).Advances :=
  (readWordOf_advances _ _).bind fun _ =>
    (expect_advances _ _).shrinks.bind fun _ =>
      (readInteger_advances _).shrinks.bind fun _ =>
        (expect_advances _ _).shrinks.bind fun _ =>
          (shrinks_write _).bind fun _ =>
            shrinks_pure _

/- Read an enum. Names and values may repeat. -/
def readEnum (place : Diagnostics) : Parser Enum := do
  let (name, values) ←
    readBlock .enum place (readEnumValue place.nested)
      (readEnumValue_advances _)
  pure ⟨name, values⟩

theorem readEnum_advances (place : Diagnostics) :
    (readEnum place).Advances :=
  (readBlock_advances _ _ _ _).bind fun _ =>
    shrinks_pure _

------------------------------------------------------------
-- Oneofs
------------------------------------------------------------

/-
  The keywords of constructs that may not stand in a oneof.
-/
def barredFromOneof (word : String) : Bool :=
  word = "repeated" || word = "enum" || word = "oneof"

/- Read one alternative of the oneof `owner`. -/
def readAlternative
    (place : Diagnostics)
    (owner : String) : Parser Field := do
  let word ← readWord s!"member of oneof \"{owner}\""
  if barredFromOneof word then
    fail (.notInOneof owner word)
  else do
    let typeName ← requireType owner word
    readField place owner typeName false

theorem readAlternative_advances
    (place : Diagnostics)
    (owner : String) :
    (readAlternative place owner).Advances :=
  (readWord_advances _).bind fun word => by
    split
    · exact shrinks_fail _
    · exact (requireType_shrinks owner word).bind fun _ =>
        (readField_advances _ _ _ _).shrinks

/- Read a oneof, whose alternatives are plain fields. -/
def readOneof (place : Diagnostics) : Parser Oneof := do
  let (name, fields) ←
    readBlock .oneof place (readAlternative place.nested)
      (readAlternative_advances _)
  pure ⟨name, fields⟩

theorem readOneof_advances (place : Diagnostics) :
    (readOneof place).Advances :=
  (readBlock_advances _ _ _ _).bind fun _ =>
    shrinks_pure _

------------------------------------------------------------
-- Messages
------------------------------------------------------------

/- Read the member of the message `owner` that `word` begins. -/
def readMemberAfter
    (place : Diagnostics)
    (owner : String)
    (word : String) : Parser Member :=
  if word = "enum" then do
    let enum ← readEnum place
    pure (.enum enum)
  else if word = "oneof" then do
    let oneof ← readOneof place
    pure (.oneof oneof)
  else if word = "message" then
    fail (.unsupported .nestedMessage)
  else if word = "repeated" then do
    let typeName ← readType
      s!"repeated field type in message \"{owner}\""
    let field ← readField place owner typeName true
    pure (.field field)
  else do
    let typeName ← requireType owner word
    let field ← readField place owner typeName false
    pure (.field field)

theorem readMemberAfter_shrinks
    (place : Diagnostics)
    (owner : String)
    (word : String) :
    (readMemberAfter place owner word).Shrinks := by
  unfold readMemberAfter
  split
  · exact (readEnum_advances place).shrinks.bind fun _ =>
      shrinks_pure _
  split
  · exact (readOneof_advances place).shrinks.bind fun _ =>
      shrinks_pure _
  split
  · exact shrinks_fail _
  split
  · exact (readWordOf_advances _ _).shrinks.bind fun _ =>
      (readField_advances _ _ _ _).shrinks.bind fun _ =>
        shrinks_pure _
  · exact (requireType_shrinks owner word).bind fun _ =>
      (readField_advances _ _ _ _).shrinks.bind fun _ =>
        shrinks_pure _

/- Read one member of the message `owner`. -/
def readMember
    (place : Diagnostics)
    (owner : String) : Parser Member := do
  let word ← readWord s!"member of message \"{owner}\""
  readMemberAfter place owner word

theorem readMember_advances
    (place : Diagnostics)
    (owner : String) :
    (readMember place owner).Advances :=
  (readWord_advances _).bind fun word =>
    readMemberAfter_shrinks place owner word

/- Read a message. -/
def readMessage (place : Diagnostics) : Parser Message := do
  let (name, members) ←
    readBlock .message place (readMember place.nested)
      (readMember_advances _)
  pure ⟨name, members⟩

theorem readMessage_advances (place : Diagnostics) :
    (readMessage place).Advances :=
  (readBlock_advances _ _ _ _).bind fun _ =>
    shrinks_pure _

end Parser

end ProtoSchema
