import ProtoSchema.Command.Invocation
import ProtoSchema.Schema.Check
import ProtoSchema.Schema.Json
import ProtoSchema.Schema.Render
import ProtoSchema.Source.Stream
import ProtoSchema.Text.Terminal

/-
  Processing files in order: each is read, checked if that
  is asked for, and printed. The first failure is reported
  and ends the processing.

  Key definitions include:
    * `Transcript`
    * `Level.shownAt`
    * `logText`
    * `processFile`
    * `processFiles`
    * `Invocation.run`
-/

namespace ProtoSchema

/- What a command leaves behind. -/
structure Transcript where
  exitCode : Nat
  stdout : String
  stderr : String
deriving DecidableEq, Repr

/- One transcript after another. The last exit code stands. -/
def Transcript.followedBy
    (first : Transcript)
    (second : Transcript) : Transcript :=
  ⟨second.exitCode, first.stdout ++ second.stdout,
    first.stderr ++ second.stderr⟩

------------------------------------------------------------
-- The Log
------------------------------------------------------------

/- Whether a level is shown at a verbosity. -/
def Level.shownAt
    (verbosity : Nat) : Level → Bool
  | .error => true
  | .debug => 1 ≤ verbosity
  | .trace => 2 ≤ verbosity

/- The name of a level in the log. -/
def Level.label : Level → String
  | .error => "ERROR"
  | .debug => "DEBUG"
  | .trace => "TRACE"

/- The text that stands before a character of a message. -/
def continueLine (c : Char) : List Char :=
  if c = '\n' then
    ['\n', ' ', ' ', ' ', ' ']
  else
    [c]

/-
  The entry of a record in the log. Further lines of its
  message are four spaces further in.
-/
def logEntry (record : Record) : String :=
  String.ofList
    (Terminal.strip
      ("[".toList ++ record.level.label.toList ++
        " protohdl::diagnostics] ".toList ++
        record.logLine.toList.flatMap continueLine ++
        ['\n']))

/- The entries of the records that a verbosity admits. -/
def logText
    (verbosity : Nat)
    (records : List Record) : String :=
  String.join
    ((records.filter (·.level.shownAt verbosity)).map
      logEntry)

------------------------------------------------------------
-- Files
------------------------------------------------------------

/- The output of a schema. -/
def Options.output
    (options : Options)
    (schema : SchemaFile) : String :=
  if options.json then
    schema.toPretty ++ "\n"
  else
    schema.render

/-
  The schema of a reading, or the wording of what is wrong
  with it.
-/
def Options.accept
    (options : Options)
    (reading : Reading) : Except String SchemaFile :=
  match reading.result with
  | .error error => .error error.message
  | .ok schema =>
      if options.validate then
        match schema.check with
        | .error violation => .error violation.message
        | .ok () => .ok schema
      else
        .ok schema

/- Read, check and print one file. -/
def processFile
    (options : Options)
    (files : FileSystem)
    (path : String) : Transcript :=
  let reading := readPath files path
  let log := logText options.verbosity reading.records
  match options.accept reading with
  | .ok schema => ⟨0, options.output schema, log⟩
  | .error message =>
      ⟨1, "", log ++ path ++ ": " ++ message ++ "\n"⟩

/- Process files up to the first failure. -/
def processFiles
    (options : Options)
    (files : FileSystem) : List String → Transcript
  | [] => ⟨0, "", ""⟩
  | path :: rest =>
      let transcript := processFile options files path
      if transcript.exitCode = 0 then
        transcript.followedBy
          (processFiles options files rest)
      else
        transcript

------------------------------------------------------------
-- Commands
------------------------------------------------------------

/- The line that tells how the command is used. -/
def usageLine : String :=
  "Usage: protohdlc [OPTIONS] <FILES>...\n"

/- What is reported of a command line that is refused. -/
def usageText : String :=
  usageLine ++ "\nFor more information, try '--help'.\n"

/- The text of the help. -/
def helpText : String :=
  "Parse proto3 schema files\n\n" ++ usageLine ++ "\n" ++
    "Arguments:\n" ++
    "  <FILES>...  Schema files to parse, in order\n\n" ++
    "Options:\n" ++
    "      --validate    " ++
    "Also check field numbers and name uniqueness\n" ++
    "      --json        " ++
    "Print the parsed schema as JSON\n" ++
    "  -v, --verbose...  " ++
    "Increase log verbosity (-v debug, -vv trace)\n" ++
    "  -h, --help        Print help\n" ++
    "  -V, --version     Print version\n"

/- Carry out what a command line asks for. -/
def Invocation.run
    (files : FileSystem) : Invocation → Transcript
  | .process options =>
      processFiles options files options.files
  | .showVersion => ⟨0, "protohdlc 0.1.0\n", ""⟩
  | .showHelp => ⟨0, helpText, ""⟩
  | .usageError => ⟨2, "", usageText⟩

end ProtoSchema
