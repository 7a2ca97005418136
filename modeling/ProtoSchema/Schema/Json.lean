import ProtoSchema.Json.Reader
import ProtoSchema.Json.Writer
import ProtoSchema.Schema.Basic

/-
  The JSON form of schemas. Each declaration is an object
  with its parts in a fixed order, and a member is tagged by
  its kind. Reading takes the keys in any order, passes over
  keys that it does not know, and also takes arrays of the
  parts in place of objects.

  Key definitions include:
    * `SchemaFile.toJson`
    * `SchemaFile.ofJson?`
    * `SchemaFile.toCompact`
    * `SchemaFile.toPretty`
    * `SchemaFile.ofJsonText?`
-/

namespace ProtoSchema

------------------------------------------------------------
-- Writing
------------------------------------------------------------

/- The parts of a field. -/
def Field.entries (field : Field) : List (String × Json) :=
  [("name", .str field.name),
    ("type_name", .str field.typeName),
    ("number", .int field.number.toInt),
    ("repeated", .bool field.repeated)]

def Field.toJson (field : Field) : Json :=
  .obj field.entries

def EnumValue.toJson (value : EnumValue) : Json :=
  .obj
    [("name", .str value.name),
      ("value", .int value.value.toInt)]

/- The parts of an enum. -/
def Enum.entries (enum : Enum) : List (String × Json) :=
  [("name", .str enum.name),
    ("values", .arr (enum.values.map EnumValue.toJson))]

/- The parts of a oneof. -/
def Oneof.entries (oneof : Oneof) : List (String × Json) :=
  [("name", .str oneof.name),
    ("fields", .arr (oneof.fields.map Field.toJson))]

/- A member has its kind before its other parts. -/
def Member.toJson : Member → Json
  | .field declared =>
      .obj (("kind", .str "field") :: declared.entries)
  | .enum declared =>
      .obj (("kind", .str "enum") :: declared.entries)
  | .oneof declared =>
      .obj (("kind", .str "oneof") :: declared.entries)

def Message.toJson (message : Message) : Json :=
  .obj
    [("name", .str message.name),
      ("members", .arr (message.members.map Member.toJson))]

/- A version, or null for none. -/
def versionToJson : Option SyntaxVersion → Json
  | none => .null
  | some version => .str version.name

def SchemaFile.toJson (schema : SchemaFile) : Json :=
  .obj
    [("syntax", versionToJson schema.version),
      ("messages",
        .arr (schema.messages.map Message.toJson))]

------------------------------------------------------------
-- Reading
------------------------------------------------------------

/- The integer of 64 bits that a value is. -/
def Json.int64? : Json → Option Int64
  | .int value => Numeral.int64? value
  | _ => none

/- The list that a value is, each item read by `item?`. -/
def Json.listOf?
    {α : Type}
    (item? : Json → Option α)
    (json : Json) : Option (List α) := do
  let items ← json.items?
  items.mapM item?

def Field.ofJson? (json : Json) : Option Field := do
  match ← json.record?
    ["name", "type_name", "number", "repeated"]
  with
  | [some name, some typeName, some number, some repeated] =>
      let name ← name.string?
      let typeName ← typeName.string?
      let number ← number.int64?
      let repeated ← repeated.bool?
      some ⟨name, typeName, number, repeated⟩
  | _ => none

def EnumValue.ofJson? (json : Json) :
    Option EnumValue := do
  match ← json.record? ["name", "value"] with
  | [some name, some value] =>
      let name ← name.string?
      let value ← value.int64?
      some ⟨name, value⟩
  | _ => none

def Enum.ofJson? (json : Json) : Option Enum := do
  match ← json.record? ["name", "values"] with
  | [some name, some values] =>
      let name ← name.string?
      let values ← values.listOf? EnumValue.ofJson?
      some ⟨name, values⟩
  | _ => none

def Oneof.ofJson? (json : Json) : Option Oneof := do
  match ← json.record? ["name", "fields"] with
  | [some name, some fields] =>
      let name ← name.string?
      let fields ← fields.listOf? Field.ofJson?
      some ⟨name, fields⟩
  | _ => none

/- The member of a kind that the other parts make up. -/
def Member.ofKind?
    (kind : String)
    (parts : Json) : Option Member :=
  if kind = "field" then
    (Field.ofJson? parts).map .field
  else if kind = "enum" then
    (Enum.ofJson? parts).map .enum
  else if kind = "oneof" then
    (Oneof.ofJson? parts).map .oneof
  else
    none

/-
  The largest depth that a member may have: a whole schema
  may be nested 127 containers deep, of which four stand
  around the member.
-/
def Member.maxDepth : Nat :=
  123

/-
  A member is read whole before its kind is known, so that
  every value in it has to be usable, also under keys that
  are passed over.
-/
def Member.ofJson? (json : Json) : Option Member :=
  if json.isUsable && json.depth ≤ Member.maxDepth then
    match json with
    | .obj entries => do
        let kind ← Json.valueOf? entries "kind"
        let kind ← kind
        let kind ← kind.string?
        Member.ofKind? kind
          (.obj (entries.filter (·.1 ≠ "kind")))
    | .arr (kind :: parts) => do
        let kind ← kind.string?
        Member.ofKind? kind (.arr parts)
    | _ => none
  else
    none

def Message.ofJson? (json : Json) : Option Message := do
  match ← json.record? ["name", "members"] with
  | [some name, some members] =>
      let name ← name.string?
      let members ← members.listOf? Member.ofJson?
      some ⟨name, members⟩
  | _ => none

/- The version of a name. -/
def SyntaxVersion.ofName?
    (name : String) : Option SyntaxVersion :=
  if name = SyntaxVersion.proto3.name then
    some .proto3
  else
    none

/-
  A version is written as its name, as an object with the
  name for its only key and null under it, or, where there
  is none, as null.
-/
def versionOfJson? :
    Json → Option (Option SyntaxVersion)
  | .null => some none
  | .str name => (SyntaxVersion.ofName? name).map some
  | .obj [(name, .null)] =>
      (SyntaxVersion.ofName? name).map some
  | _ => none

/- A schema without a version may leave out its key. -/
def SchemaFile.ofJson? (json : Json) :
    Option SchemaFile := do
  match ← json.record? ["syntax", "messages"] with
  | [version, some messages] =>
      let version ← versionOfJson? (version.getD .null)
      let messages ← messages.listOf? Message.ofJson?
      some ⟨version, messages⟩
  | _ => none

------------------------------------------------------------
-- Text
------------------------------------------------------------

namespace SchemaFile

/- The JSON text of a schema without blanks. -/
def toCompact (schema : SchemaFile) : String :=
  schema.toJson.compact

/- The JSON text of a schema for readers. -/
def toPretty (schema : SchemaFile) : String :=
  schema.toJson.pretty

/- The schema that a JSON text denotes, if it does. -/
def ofJsonText? (text : String) : Option SchemaFile := do
  let json ← Json.read? text
  SchemaFile.ofJson? json

end SchemaFile

end ProtoSchema
