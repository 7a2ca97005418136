/-
  The arguments of the command line. They are taken from
  left to right, and the first that settles the invocation
  does so, whatever follows.

  Key definitions include:
    * `Options`
    * `Invocation`
    * `Invocation.ofArguments`
-/

namespace ProtoSchema

/- What is to be done with which files. -/
structure Options where
  files : List String
  validate : Bool
  json : Bool
  verbosity : Nat
deriving DecidableEq, Repr

/- What a command line asks for. -/
inductive Invocation where
  | process (options : Options)
  | showVersion
  | showHelp
  | usageError
deriving DecidableEq, Repr

namespace Invocation

/- The options before any argument. -/
def noOptions : Options :=
  ⟨[], false, false, 0⟩

/- The invocation at the end of the arguments. -/
def finish (options : Options) : Invocation :=
  if options.files.isEmpty then
    .usageError
  else
    .process options

/- One more file, whose name may not be empty. -/
def addFile
    (options : Options)
    (name : String) : Except Invocation Options :=
  if name.isEmpty then
    .error .usageError
  else
    .ok { options with files := options.files ++ [name] }

/- The options of a cluster of single letters. -/
def addLetters
    (options : Options) :
    List Char → Except Invocation Options
  | [] => .ok options
  | 'v' :: rest =>
      addLetters
        { options with verbosity := options.verbosity + 1 }
        rest
  | 'V' :: _ => .error .showVersion
  | 'h' :: _ => .error .showHelp
  | _ => .error .usageError

/-
  An option by its full name. The flags that are not counted
  are given once.
-/
def addNamed
    (options : Options)
    (name : String) : Except Invocation Options :=
  if name = "verbose" then
    .ok { options with verbosity := options.verbosity + 1 }
  else if name = "validate" && !options.validate then
    .ok { options with validate := true }
  else if name = "json" && !options.json then
    .ok { options with json := true }
  else if name = "version" then
    .error .showVersion
  else if name = "help" then
    .error .showHelp
  else
    .error .usageError

/-
  One argument before the end of options. A dash alone is
  the name of a file.
-/
def addArgument
    (options : Options)
    (argument : String) : Except Invocation Options :=
  match argument.toList with
  | '-' :: '-' :: name =>
      addNamed options (String.ofList name)
  | '-' :: c :: rest => addLetters options (c :: rest)
  | _ => addFile options argument

/- The arguments after the end of options are files. -/
def takeFiles
    (options : Options) : List String → Invocation
  | [] => finish options
  | name :: rest =>
      match addFile options name with
      | .ok options => takeFiles options rest
      | .error settled => settled

/- The arguments, after some options. -/
def take
    (options : Options) : List String → Invocation
  | [] => finish options
  | argument :: rest =>
      if argument = "--" then
        takeFiles options rest
      else
        match addArgument options argument with
        | .ok options => take options rest
        | .error settled => settled

/- What a list of arguments asks for. -/
def ofArguments (arguments : List String) : Invocation :=
  take noOptions arguments

end Invocation

end ProtoSchema
