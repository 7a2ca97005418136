import ProtoSchema.Command.Process

/-
  Commands as they are carried out: a file is opened when the
  files before it have been printed, and none is opened after
  a failure.

  Key definitions include:
    * `Console`
    * `Console.processAll`
    * `Console.perform`
-/

namespace ProtoSchema

/- The means of a command: to open a file, and to print. -/
structure Console (m : Type → Type) where
  openFile : String → m (Except InputFailure (List Read))
  print : Transcript → m Unit

namespace Console

variable {m : Type → Type}
variable [Monad m]

/- Process files up to the first failure, for an exit code. -/
def processAll
    (console : Console m)
    (options : Options) : List String → m Nat
  | [] => pure 0
  | path :: rest => do
      let found ← console.openFile path
      let transcript :=
        processFile options ⟨fun _ => found⟩ path
      console.print transcript
      if transcript.exitCode = 0 then
        console.processAll options rest
      else
        pure transcript.exitCode

/- Carry out an invocation, for an exit code. -/
def perform
    (console : Console m) : Invocation → m Nat
  | .process options =>
      console.processAll options options.files
  | invocation => do
      let transcript :=
        invocation.run ⟨fun _ => .error .notFound⟩
      console.print transcript
      pure transcript.exitCode

end Console

end ProtoSchema
