import ProtoSchema.Schema.Basic

/-
  The rules that a schema has to keep beyond its grammar:
  names are unique where they are looked up, and numbers are
  unique and in range. Checking stops at the first violation
  in the order of the text; the numbers of a message come
  after its names and enums.

  Key definitions include:
    * `isFieldNumber`
    * `claimNames`
    * `Enum.check`
    * `checkMembers`
    * `checkNumbers`
    * `Message.check`
    * `SchemaFile.check`
-/

namespace ProtoSchema

------------------------------------------------------------
-- Numbers
------------------------------------------------------------

/- The largest field number that can be encoded. -/
def maxFieldNumber : Int64 :=
  536870911

/- The first and the last of the reserved field numbers. -/
def firstReserved : Int64 :=
  19000

def lastReserved : Int64 :=
  19999

/- The numbers that a field may have. -/
def isFieldNumber (number : Int64) : Bool :=
  1 ≤ number && number ≤ maxFieldNumber &&
    !(firstReserved ≤ number && number ≤ lastReserved)

------------------------------------------------------------
-- Names
------------------------------------------------------------

/-
  Claim each of the names in turn, and answer with all that
  are claimed then. A name that is claimed already is a
  clash.
-/
def claimNames
    (clash : String → Violation)
    (claimed : List String) :
    List String → Except Violation (List String)
  | [] => .ok claimed
  | name :: rest =>
      if claimed.contains name then
        .error (clash name)
      else
        claimNames clash (name :: claimed) rest

/-
  The names that a member declares in its message: its own,
  and those of its alternatives.
-/
def Member.names : Member → List String
  | .field declared => [declared.name]
  | .enum declared => [declared.name]
  | .oneof declared =>
      declared.name :: declared.fields.map (·.name)

------------------------------------------------------------
-- Checks
------------------------------------------------------------

/-
  An enum begins with zero, if it has values at all, and
  their names are distinct. Their numbers may repeat.
-/
def Enum.check (enum : Enum) : Except Violation Unit :=
  match enum.values with
  | [] => .ok ()
  | first :: _ =>
      if first.value ≠ 0 then
        .error (.firstEnumValueNotZero enum.name)
      else do
        let _ ← claimNames (.duplicateEnumValue enum.name)
          [] (enum.values.map (·.name))
        .ok ()

/- The rules inside a member. -/
def Member.check : Member → Except Violation Unit
  | .enum declared => declared.check
  | _ => .ok ()

/-
  Each member claims its names in the message, and is then
  checked itself.
-/
def checkMembers
    (message : String)
    (claimed : List String) :
    List Member → Except Violation Unit
  | [] => .ok ()
  | member :: rest => do
      let claimed ←
        claimNames (.duplicateMember message) claimed
          member.names
      member.check
      checkMembers message claimed rest

/- Each field has a number in range that no other has. -/
def checkNumbers
    (message : String)
    (taken : List Int64) :
    List Field → Except Violation Unit
  | [] => .ok ()
  | field :: rest =>
      if !isFieldNumber field.number then
        .error
          (.invalidFieldNumber message field.name
            field.number)
      else if taken.contains field.number then
        .error (.duplicateFieldNumber message field.number)
      else
        checkNumbers message (field.number :: taken) rest

/- The rules of one message. -/
def Message.check (message : Message) :
    Except Violation Unit := do
  checkMembers message.name [] message.members
  checkNumbers message.name [] message.allFields

/- Each message has a name of its own and keeps its rules. -/
def checkMessages
    (claimed : List String) :
    List Message → Except Violation Unit
  | [] => .ok ()
  | message :: rest => do
      let claimed ←
        claimNames .duplicateMessage claimed [message.name]
      message.check
      checkMessages claimed rest

/- The rules of a whole schema. -/
def SchemaFile.check (schema : SchemaFile) :
    Except Violation Unit :=
  checkMessages [] schema.messages

end ProtoSchema
