import ProtoSchema.Schema.Basic

/-
  The canonical text of a schema: one declaration a line,
  four spaces for each enclosing block, and an empty line
  before each message.

  Key definitions include:
    * `Field.render`
    * `Enum.render`
    * `Oneof.render`
    * `Message.render`
    * `SchemaFile.render`
-/

namespace ProtoSchema

/- A line of text inside `depth` blocks. -/
def indented
    (depth : Nat)
    (line : String) : String :=
  String.ofList (List.replicate (4 * depth) ' ') ++
    line ++ "\n"

/-
  A named block: the opening line, the entries one block
  further in, and the closing line.
-/
def renderBlock
    (depth : Nat)
    (keyword : String)
    (name : String)
    (entries : List String) : String :=
  indented depth (keyword ++ " " ++ name ++ " \x7b") ++
    String.join entries ++
    indented depth "\x7d"

/- A field declaration. -/
def Field.render
    (depth : Nat)
    (field : Field) : String :=
  indented depth
    ((if field.repeated then "repeated " else "") ++
      field.typeName ++ " " ++ field.name ++ " = " ++
      Numeral.write field.number ++ ";")

/- One constant of an enum. -/
def EnumValue.render
    (depth : Nat)
    (value : EnumValue) : String :=
  indented depth
    (value.name ++ " = " ++ Numeral.write value.value ++ ";")

/- An enum declaration. -/
def Enum.render
    (depth : Nat)
    (enum : Enum) : String :=
  renderBlock depth "enum" enum.name
    (enum.values.map (EnumValue.render (depth + 1)))

/- A oneof declaration. -/
def Oneof.render
    (depth : Nat)
    (oneof : Oneof) : String :=
  renderBlock depth "oneof" oneof.name
    (oneof.fields.map (Field.render (depth + 1)))

/- A member of a message. -/
def Member.render
    (depth : Nat) : Member → String
  | .field declared => declared.render depth
  | .enum declared => declared.render depth
  | .oneof declared => declared.render depth

/- A message declaration. -/
def Message.render
    (depth : Nat)
    (message : Message) : String :=
  renderBlock depth "message" message.name
    (message.members.map (Member.render (depth + 1)))

/- The whole schema. -/
def SchemaFile.render (schema : SchemaFile) : String :=
  (match schema.version with
    | none => ""
    | some version =>
        "syntax = \"" ++ version.name ++ "\";\n") ++
    String.join
      (schema.messages.map fun message =>
        "\n" ++ message.render 0)

end ProtoSchema
