import ProtoSchema.Command.Console

/-
  The command line: the files of the system are opened and
  read, and what processing them gives is printed.
-/

namespace ProtoSchema

namespace Command

/- The failure of a system call, by its code. -/
def failureOfCode
    (code : UInt32)
    (details : String) : InputFailure :=
  if code = 2 then
    .notFound
  else if code = 20 then
    .notADirectory
  else if code = 21 then
    .isADirectory
  else if code = 36 then
    .nameTooLong
  else
    .other (details ++ s!" (os error {code})")

/- The failure that an error of the system stands for. -/
def failureOf : IO.Error → InputFailure
  | .noFileOrDirectory _ code details =>
      failureOfCode code details
  | .inappropriateType _ code details =>
      failureOfCode code details
  | .invalidArgument _ code details =>
      failureOfCode code details
  | .permissionDenied _ code details =>
      failureOfCode code details
  | error => .other (toString error)

/- Read what is open to its end. -/
def readAll (handle : IO.FS.Handle) : IO Read := do
  match ← (handle.readBinToEnd).toBaseIO with
  | .ok content => return .bytes content.toList
  | .error error => return .failed (failureOf error)

/- Open a file of the system, and read it to its end. -/
def openFile
    (path : String) :
    IO (Except InputFailure (List Read)) := do
  if path.toList.contains '\x00' then
    return .error .nulInName
  match ← (IO.FS.Handle.mk path .read).toBaseIO with
  | .ok handle => return .ok [← readAll handle]
  | .error error => return .error (failureOf error)

/- The console of the system. -/
def console : Console IO where
  openFile := openFile
  print transcript := do
    IO.eprint transcript.stderr
    IO.print transcript.stdout

end Command

end ProtoSchema

def main (arguments : List String) : IO UInt32 := do
  let invocation :=
    ProtoSchema.Invocation.ofArguments arguments
  let code ←
    ProtoSchema.Command.console.perform invocation
  return UInt32.ofNat code
