import ProtoSchema.Schema.Check
import ProtoSchema.Session

/-
  Reading and checking in one go.

  Key definitions include:
    * `SchemaError`
    * `readValid`
-/

namespace ProtoSchema

/- What stands between a text and a valid schema. -/
inductive SchemaError where
  | unread (error : ParseError)
  | invalid (violation : Violation)
deriving DecidableEq, Repr

/- The wording of an error is that of its cause. -/
def SchemaError.message : SchemaError → String
  | unread error => error.message
  | invalid violation => violation.message

/- Read a schema from its text and check it. -/
def readValid
    (text : String) : Except SchemaError SchemaFile :=
  match (readText text).result with
  | .error error => .error (.unread error)
  | .ok schema =>
      match schema.check with
      | .error violation => .error (.invalid violation)
      | .ok () => .ok schema

end ProtoSchema
