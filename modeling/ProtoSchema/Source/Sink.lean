import ProtoSchema.Session

/-
  Where the records of a reading go. A sink takes one record
  after the other; the reading itself does not look at it.

  Key definitions include:
    * `Sink`
    * `Sink.recording`
    * `Sink.log`
    * `readTextInto`
    * `readLogged`
-/

namespace ProtoSchema

/- What taking one record does to what a sink holds. -/
structure Sink (σ : Type) where
  take : σ → Record → σ

namespace Sink

/- What a sink holds after some records. -/
def takeAll
    {σ : Type}
    (sink : Sink σ)
    (held : σ)
    (records : List Record) : σ :=
  records.foldl sink.take held

/- Drop every record. -/
def null : Sink Unit where
  take _ _ := ()

/- Keep every record. -/
def recording : Sink (List Record) where
  take held record := held ++ [record]

/- Hand every record to a log, by its level and its line. -/
def log : Sink (List (Level × String)) where
  take held record :=
    held ++ [(record.level, record.logLine)]

end Sink

/- Read a schema from its text, with the records to a sink. -/
def readTextInto
    {σ : Type}
    (sink : Sink σ)
    (held : σ)
    (text : String) : Except ParseError SchemaFile × σ :=
  let reading := readText text
  (reading.result, sink.takeAll held reading.records)

/- Read a schema from its text, and log the reading. -/
def readLogged
    (text : String) :
    Except ParseError SchemaFile × List (Level × String) :=
  readTextInto .log [] text

end ProtoSchema
