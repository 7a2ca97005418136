import ProtoSchema.Session

/-
  Schemas that arrive as bytes. A stream is a sequence of
  reads; its text is had once all of them are in.

  Key definitions include:
    * `Read`
    * `Read.bytes`
    * `drain`
    * `decodeText`
    * `readStream`
-/

namespace ProtoSchema

/-
  What one read of a stream gives: a byte and those that come
  with it, an interruption after which it is tried again, or
  a failure that ends the stream. Where a read would give no
  byte, the stream is at its end, and has no more reads.
-/
inductive Read where
  | chunk (first : UInt8) (others : List UInt8)
  | interrupted
  | failed (failure : InputFailure)
deriving DecidableEq, Repr

/-
  The read by which bytes arrive. As long as there are none,
  it is tried again.
-/
def Read.bytes : List UInt8 → Read
  | [] => .interrupted
  | first :: others => .chunk first others

/- The bytes of all reads, or the first failure. -/
def drain : List Read → Except InputFailure (List UInt8)
  | [] => .ok []
  | .chunk first others :: rest =>
      (drain rest).map (first :: others ++ ·)
  | .interrupted :: rest => drain rest
  | .failed failure :: _ => .error failure

/- The text that bytes encode. -/
def decodeText
    (bytes : List UInt8) : Except InputFailure String :=
  match String.fromUTF8? bytes.toByteArray with
  | some text => .ok text
  | none => .error .notUtf8

/- The text of a whole stream. -/
def streamText
    (reads : List Read) : Except InputFailure String := do
  let bytes ← drain reads
  decodeText bytes

/-
  Read a schema from a stream. Nothing is read from a text
  that is not there as a whole.
-/
def readStream (reads : List Read) : Reading :=
  match streamText reads with
  | .ok text => readText text
  | .error failure =>
      ⟨.error (.input failure),
        [Diagnostics.topLevel.error
          ("fail to read input: " ++ failure.message)]⟩

------------------------------------------------------------
-- Files
------------------------------------------------------------

/-
  Where names lead: to a stream, or to a failure to open
  one.
-/
structure FileSystem where
  openFile : String → Except InputFailure (List Read)

/- Read a schema from a named file. -/
def readPath
    (files : FileSystem)
    (path : String) : Reading :=
  let opening :=
    Diagnostics.topLevel.debug
      ("Compiling .proto file " ++ path)
  match files.openFile path with
  | .ok reads => (readStream reads).after [opening]
  | .error failure =>
      ⟨.error (.input failure),
        [opening,
          Diagnostics.topLevel.error
            ("fail to open " ++ path ++ ": " ++
              failure.message)]⟩

end ProtoSchema
