/-
  Levelled records that account for a reading. A record
  carries the depth of the block that it speaks of.

  Key definitions include:
    * `Level`
    * `Record`
    * `Record.logLine`
    * `Diagnostics`
-/

namespace ProtoSchema

/- The weight of a record. -/
inductive Level where
  | error
  | debug
  | trace
deriving DecidableEq, Repr

/- One diagnostic message and the place it has in the account. -/
structure Record where
  level : Level
  depth : Nat
  message : String
deriving DecidableEq, Repr

namespace Record

/-
  The message as a log shows it: two spaces for each level
  of depth stand before its first line.
-/
def logLine (record : Record) : String :=
  String.ofList (List.replicate (2 * record.depth) ' ') ++
    record.message

end Record

/-
  The messages of one level, in the order of the account.
-/
def messagesAt
    (level : Level)
    (records : List Record) : List String :=
  (records.filter (·.level = level)).map (·.message)

/-
  The place from which records are written: the number of
  blocks that enclose it.
-/
structure Diagnostics where
  depth : Nat
deriving DecidableEq, Repr

namespace Diagnostics

/- The place outside of all blocks. -/
def topLevel : Diagnostics :=
  ⟨0⟩

/- The place one block further in. -/
def nested (place : Diagnostics) : Diagnostics :=
  ⟨place.depth + 1⟩

/- An error record written from here. -/
def error
    (place : Diagnostics)
    (message : String) : Record :=
  ⟨.error, place.depth, message⟩

/- A debug record written from here. -/
def debug
    (place : Diagnostics)
    (message : String) : Record :=
  ⟨.debug, place.depth, message⟩

/- A trace record written from here. -/
def trace
    (place : Diagnostics)
    (message : String) : Record :=
  ⟨.trace, place.depth, message⟩

end Diagnostics

end ProtoSchema
