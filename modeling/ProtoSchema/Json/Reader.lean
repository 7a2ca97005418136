import ProtoSchema.Json.Token

/-
  Reading JSON text. The tokens are read from left to right
  with the containers that are still open on a stack.

  Key definitions include:
    * `Json.Frame`
    * `Json.readValue`
    * `Json.readOn`
    * `Json.read?`
-/

namespace ProtoSchema

namespace Json

/-
  A container that is still open: what it holds already,
  latest first. An object also has the key of the value that
  comes next.
-/
inductive Frame where
  | list (before : List Json)
  | object
      (before : List (Option String × Json))
      (key : Option String)

/- The object of some entries, if each key denotes a text. -/
def ofEntries
    (entries : List (Option String × Json)) : Json :=
  match
    entries.mapM fun (key, value) =>
      key.map fun text => (text, value)
  with
  | some entries => .obj entries
  | none => .unusable

/- The value of quoted text. -/
def ofText : Option String → Json
  | some text => .str text
  | none => .unusable

mutual

/- Read on where a value has to begin. -/
def readValue
    (stack : List Frame) : List Token → Option Json
  | .scalar value :: rest => readOn stack value rest
  | .text content :: rest =>
      readOn stack (ofText content) rest
  | .openList :: .closeList :: rest =>
      readOn stack (.arr []) rest
  | .openList :: rest =>
      readValue (.list [] :: stack) rest
  | .openObject :: .closeObject :: rest =>
      readOn stack (.obj []) rest
  | .openObject :: .text key :: .colon :: rest =>
      readValue (.object [] key :: stack) rest
  | _ => none

/- Read on where a value has just ended. -/
def readOn
    (stack : List Frame)
    (value : Json) : List Token → Option Json
  | [] =>
      match stack with
      | [] => some value
      | _ => none
  | .comma :: .text key :: .colon :: rest =>
      match stack with
      | .object before last :: stack =>
          readValue
            (.object ((last, value) :: before) key :: stack)
            rest
      | _ => none
  | .comma :: rest =>
      match stack with
      | .list before :: stack =>
          readValue (.list (value :: before) :: stack) rest
      | _ => none
  | .closeList :: rest =>
      match stack with
      | .list before :: stack =>
          readOn stack (.arr (value :: before).reverse) rest
      | _ => none
  | .closeObject :: rest =>
      match stack with
      | .object before last :: stack =>
          readOn stack
            (ofEntries ((last, value) :: before).reverse)
            rest
      | _ => none
  | _ => none

end

/- The value that a text is, if it is one. -/
def read? (text : String) : Option Json := do
  let tokens ← tokens? text.toList
  readValue [] tokens

end Json

end ProtoSchema
