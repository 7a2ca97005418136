import ProtoSchema.Error

/-
  A schema as a value: messages of fields, enums and oneofs,
  in the order in which they are declared, with lookups by
  name and the steps that build one.

  Key definitions include:
    * `Field`
    * `Enum`
    * `Oneof`
    * `Member`
    * `Message`
    * `SchemaFile`
    * `Message.allFields`
    * `Message.getField?`
    * `SchemaFile.getMessage?`
    * `SchemaFile.setVersion`
    * `SchemaFile.pushMessage`
-/

namespace ProtoSchema

------------------------------------------------------------
-- Declarations
------------------------------------------------------------

/- The versions of the schema language. -/
inductive SyntaxVersion where
  | proto3
deriving DecidableEq, Repr

/- The name of a version. -/
def SyntaxVersion.name : SyntaxVersion → String
  | proto3 => "proto3"

/-
  A field declaration. The type is kept as written, and the
  number is any 64-bit integer.
-/
structure Field where
  name : String
  typeName : String
  number : Int64
  repeated : Bool
deriving DecidableEq, Repr

/- A named integer constant. -/
structure EnumValue where
  name : String
  value : Int64
deriving DecidableEq, Repr

/- A named set of integer constants. -/
structure Enum where
  name : String
  values : List EnumValue
deriving DecidableEq, Repr

/- A set of fields of which at most one is present. -/
structure Oneof where
  name : String
  fields : List Field
deriving DecidableEq, Repr

/- One entry of a message. -/
inductive Member where
  | field (declared : Field)
  | enum (declared : Enum)
  | oneof (declared : Oneof)
deriving DecidableEq, Repr

/- A named aggregate of members. -/
structure Message where
  name : String
  members : List Member
deriving DecidableEq, Repr

/-
  A whole schema. The version is absent until a syntax
  declaration sets it.
-/
structure SchemaFile where
  version : Option SyntaxVersion
  messages : List Message
deriving DecidableEq, Repr

------------------------------------------------------------
-- Members
------------------------------------------------------------

namespace Member

/- The name that a member declares. -/
def name : Member → String
  | .field declared => declared.name
  | .enum declared => declared.name
  | .oneof declared => declared.name

/-
  The fields that a member brings into its message: itself,
  or those of its alternatives.
-/
def fields : Member → List Field
  | .field declared => [declared]
  | .enum _ => []
  | .oneof declared => declared.fields

end Member

------------------------------------------------------------
-- Messages
------------------------------------------------------------

namespace Message

/- The fields that stand directly in the message. -/
def fields (message : Message) : List Field :=
  message.members.filterMap fun
    | .field declared => some declared
    | _ => none

/- The enums of the message. -/
def enums (message : Message) : List Enum :=
  message.members.filterMap fun
    | .enum declared => some declared
    | _ => none

/- The oneofs of the message. -/
def oneofs (message : Message) : List Oneof :=
  message.members.filterMap fun
    | .oneof declared => some declared
    | _ => none

/- Every field of the message, those of oneofs included. -/
def allFields (message : Message) : List Field :=
  message.members.flatMap Member.fields

/- The first field of a name, those of oneofs included. -/
def getField?
    (message : Message)
    (name : String) : Option Field :=
  message.allFields.find? (·.name = name)

end Message

------------------------------------------------------------
-- Schema Files
------------------------------------------------------------

namespace SchemaFile

/- The schema in which nothing has been declared. -/
def empty : SchemaFile :=
  ⟨none, []⟩

/- The first message of a name. -/
def getMessage?
    (schema : SchemaFile)
    (name : String) : Option Message :=
  schema.messages.find? (·.name = name)

/-
  Record the syntax declaration. It is made once, and the
  only version is proto3.
-/
def setVersion
    (schema : SchemaFile)
    (version : String) : Except ParseError SchemaFile :=
  if schema.version.isSome then
    .error (.malformed .duplicateSyntax)
  else if version ≠ SyntaxVersion.proto3.name then
    .error (.unsupported (.syntaxVersion version))
  else
    .ok ⟨some .proto3, schema.messages⟩

/-
  Append a message. The syntax declaration comes first.
-/
def pushMessage
    (schema : SchemaFile)
    (message : Message) : Except ParseError SchemaFile :=
  if schema.version.isSome then
    .ok ⟨schema.version, schema.messages ++ [message]⟩
  else
    .error (.outOfOrder "message")

end SchemaFile

end ProtoSchema
