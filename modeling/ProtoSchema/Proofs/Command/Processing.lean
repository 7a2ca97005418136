import ProtoSchema.Command.Console

/-
  What a command leaves behind. Files are printed in order
  up to the first that is refused, which is only reported;
  and how much is logged shows in the log alone. Opening
  the files one at a time leaves the same behind.

  Key definitions include:
    * `Options.Refuses`
    * `Options.printed`
    * `Options.logged`
    * `Console.onFiles`

  Main theorems:
    * `accept_eq_error_iff`
    * `processFiles_append`
    * `processFiles_of_refused`
    * `processFiles_verbosity`
    * `perform_onFiles`
    * `run_process`
-/

namespace ProtoSchema

------------------------------------------------------------
-- One File
------------------------------------------------------------

namespace Options

/-
  A file is refused, for the given reason, if it cannot be
  read, or if it is to be checked and breaks a rule.
-/
inductive Refuses
    (options : Options)
    (files : FileSystem)
    (path : String) : String → Prop where
  | unread
      {error : ParseError}
      (hRead :
        (readPath files path).result = .error error) :
      Refuses options files path error.message
  | invalid
      {schema : SchemaFile}
      {violation : Violation}
      (hValidate : options.validate = true)
      (hRead : (readPath files path).result = .ok schema)
      (hCheck : schema.check = .error violation) :
      Refuses options files path violation.message

/- The file is not refused. -/
def Accepts
    (options : Options)
    (files : FileSystem)
    (path : String) : Prop :=
  ∀ reason, ¬ options.Refuses files path reason

/-
  What is printed for a file that is accepted: its canonical
  text, or its JSON text and the end of a line.
-/
def printed
    (options : Options)
    (files : FileSystem)
    (path : String) : String :=
  match (readPath files path).result with
  | .error _ => ""
  | .ok schema =>
      if options.json then
        schema.toPretty ++ "\n"
      else
        schema.render

/-
  What is logged for a file: its errors always, what is for
  debugging at the first step of verbosity, and traces from
  the second on.
-/
def logged
    (options : Options)
    (files : FileSystem)
    (path : String) : String :=
  String.join
    (((readPath files path).records.filter fun record =>
      record.level = .error ∨
        (record.level = .debug ∧ 1 ≤ options.verbosity) ∨
        (record.level = .trace ∧
          2 ≤ options.verbosity)).map logEntry)

section OneFile

variable {options : Options}
variable {files : FileSystem}
variable {path reason : String}

/- The log of a reading is what is logged for its file. -/
theorem logText_eq
    (options : Options)
    (files : FileSystem)
    (path : String) :
    logText options.verbosity (readPath files path).records =
      options.logged files path := by
  unfold logText logged
  congr 2
  apply List.filter_congr
  intro record _
  cases record.level with
  | error => simp [Level.shownAt]
  | debug => simp [Level.shownAt]
  | trace => simp [Level.shownAt]

/- Accepting fails exactly with what a file is refused for. -/
theorem accept_eq_error_iff :
    options.accept (readPath files path) = .error reason ↔
      options.Refuses files path reason := by
  constructor
  · intro h
    unfold accept at h
    split at h
    next error hRead =>
      rw [← Except.error.inj h]
      exact .unread hRead
    next schema hRead =>
      split at h
      next hValidate =>
        split at h
        next violation hCheck =>
          rw [← Except.error.inj h]
          exact .invalid hValidate hRead hCheck
        next => simp at h
      next => simp at h
  · intro h
    cases h with
    | unread hRead => simp only [accept, hRead]
    | invalid hValidate hRead hCheck =>
        simp only [accept, hRead, hValidate, hCheck, if_pos]

/- What is accepted is the schema that was read. -/
theorem result_of_accept
    {schema : SchemaFile}
    (h :
      options.accept (readPath files path) = .ok schema) :
    (readPath files path).result = .ok schema := by
  unfold accept at h
  split at h
  · simp at h
  next found hRead =>
    split at h
    · split at h
      · simp at h
      · rw [hRead, Except.ok.inj h]
    · rw [hRead, Except.ok.inj h]

theorem processFile_of_refuses
    (hRefuses : options.Refuses files path reason) :
    processFile options files path =
      ⟨1, "",
        options.logged files path ++ path ++ ": " ++
          reason ++ "\n"⟩ := by
  simp only [processFile, accept_eq_error_iff.mpr hRefuses,
    logText_eq]

theorem processFile_of_accepts
    (hAccepts : options.Accepts files path) :
    processFile options files path =
      ⟨0, options.printed files path,
        options.logged files path⟩ := by
  rcases hAccept : options.accept (readPath files path) with
    reason | schema
  · exact absurd (accept_eq_error_iff.mp hAccept)
      (hAccepts reason)
  · simp only [processFile, hAccept, logText_eq, output,
      printed, result_of_accept hAccept]

end OneFile

end Options

------------------------------------------------------------
-- Many Files
------------------------------------------------------------

section ManyFiles

variable {options : Options}
variable {files : FileSystem}

/- Files that are accepted are printed before all others. -/
theorem processFiles_append
    {before : List String}
    (hBefore :
      ∀ path ∈ before, options.Accepts files path)
    (rest : List String) :
    processFiles options files (before ++ rest) =
      Transcript.followedBy
        ⟨0, String.join (before.map (options.printed files)),
          String.join (before.map (options.logged files))⟩
        (processFiles options files rest) := by
  induction before with
  | nil => simp [Transcript.followedBy]
  | cons path before ih =>
      have hFirst :=
        Options.processFile_of_accepts
          (hBefore path List.mem_cons_self)
      have hRest := ih fun other hOther =>
        hBefore other (List.mem_cons_of_mem path hOther)
      rw [List.cons_append, processFiles, hFirst, if_pos rfl,
        hRest]
      simp [Transcript.followedBy, String.append_assoc]

theorem processFiles_of_accepts
    {paths : List String}
    (hPaths : ∀ path ∈ paths, options.Accepts files path) :
    processFiles options files paths =
      ⟨0, String.join (paths.map (options.printed files)),
        String.join (paths.map (options.logged files))⟩ := by
  have hAll := processFiles_append hPaths []
  rw [List.append_nil] at hAll
  simpa [processFiles, Transcript.followedBy] using hAll

/- The first file that is refused ends the processing. -/
theorem processFiles_of_refused
    {before : List String}
    {path reason : String}
    (hBefore :
      ∀ earlier ∈ before, options.Accepts files earlier)
    (hRefuses : options.Refuses files path reason)
    (after : List String) :
    processFiles options files (before ++ path :: after) =
      ⟨1, String.join (before.map (options.printed files)),
        String.join
            ((before ++ [path]).map
              (options.logged files)) ++
          path ++ ": " ++ reason ++ "\n"⟩ := by
  rw [processFiles_append hBefore, processFiles,
    Options.processFile_of_refuses hRefuses,
    if_neg Nat.one_ne_zero]
  simp [Transcript.followedBy, String.append_assoc]

/- Some file is the first that is refused, or none is. -/
theorem accepts_or_refused
    (options : Options)
    (files : FileSystem)
    (paths : List String) :
    (∀ path ∈ paths, options.Accepts files path) ∨
      ∃ before path after reason,
        paths = before ++ path :: after ∧
          (∀ earlier ∈ before,
            options.Accepts files earlier) ∧
          options.Refuses files path reason := by
  induction paths with
  | nil => simp
  | cons path rest ih =>
      by_cases hPath : options.Accepts files path
      · rcases ih with hRest | hRest
        · left
          simpa [hPath] using hRest
        · right
          rcases hRest with
            ⟨before, found, after, reason, rfl, hBefore,
              hRefuses⟩
          refine ⟨path :: before, found, after, reason, rfl,
            ?_, hRefuses⟩
          simpa [hPath] using hBefore
      · right
        rcases Classical.not_forall.mp hPath with
          ⟨reason, hReason⟩
        exact ⟨[], path, rest, reason, rfl, by simp,
          Classical.not_not.mp hReason⟩

end ManyFiles

/-
  How much is logged decides neither the exit code nor what
  is printed.
-/
theorem processFiles_verbosity
    (options : Options)
    (files : FileSystem)
    (paths : List String)
    (verbosity : Nat) :
    let louder := { options with verbosity := verbosity }
    (processFiles louder files paths).exitCode =
        (processFiles options files paths).exitCode ∧
      (processFiles louder files paths).stdout =
        (processFiles options files paths).stdout := by
  intro louder
  induction paths with
  | nil => exact ⟨rfl, rfl⟩
  | cons path rest ih =>
      have hAccept :
          louder.accept (readPath files path) =
            options.accept (readPath files path) := rfl
      rcases hFound : options.accept (readPath files path)
        with reason | schema
      · rw [hFound] at hAccept
        simp [processFiles, processFile, hFound, hAccept]
      · rw [hFound] at hAccept
        have hOutput :
            louder.output schema = options.output schema :=
          rfl
        simp [processFiles, processFile, hFound, hAccept,
          hOutput, Transcript.followedBy, ih]

------------------------------------------------------------
-- One File at a Time
------------------------------------------------------------

/- What has been printed so far. -/
structure Printed where
  stdout : String
  stderr : String
deriving DecidableEq, Repr

/- What has been printed when a transcript is added to it. -/
def Printed.followedBy
    (printed : Printed)
    (transcript : Transcript) : Printed :=
  ⟨printed.stdout ++ transcript.stdout,
    printed.stderr ++ transcript.stderr⟩

/- A console that opens files where their names lead. -/
def Console.onFiles
    (files : FileSystem) : Console (StateM Printed) where
  openFile path := pure (files.openFile path)
  print transcript :=
    modify fun printed => printed.followedBy transcript

theorem Printed.followedBy_followedBy
    (printed : Printed)
    (first second : Transcript) :
    (printed.followedBy first).followedBy second =
      printed.followedBy (first.followedBy second) := by
  simp [Printed.followedBy, Transcript.followedBy,
    String.append_assoc]

/- One file is opened, read and printed before the others. -/
theorem processAll_onFiles_cons
    (options : Options)
    (files : FileSystem)
    (path : String)
    (rest : List String)
    (printed : Printed) :
    ((Console.onFiles files).processAll options
        (path :: rest)).run printed =
      let transcript := processFile options files path
      (if transcript.exitCode = 0 then
        (Console.onFiles files).processAll options rest
      else
        pure transcript.exitCode).run
          (printed.followedBy transcript) :=
  rfl

/-
  Files that are opened one at a time leave behind what
  processing them as a whole does.
-/
theorem processAll_onFiles
    (options : Options)
    (files : FileSystem)
    (paths : List String)
    (printed : Printed) :
    ((Console.onFiles files).processAll options paths).run
        printed =
      let transcript := processFiles options files paths
      (transcript.exitCode,
        printed.followedBy transcript) := by
  induction paths generalizing printed with
  | nil =>
      have hNothing :
          printed.followedBy ⟨0, "", ""⟩ = printed := by
        simp [Printed.followedBy]
      simp only [processFiles, hNothing]
      rfl
  | cons path rest ih =>
      rw [processAll_onFiles_cons, processFiles]
      by_cases hCode :
          (processFile options files path).exitCode = 0
      · simp only [if_pos hCode, ih,
          Printed.followedBy_followedBy]
        rfl
      · simp only [if_neg hCode]
        rfl

/-
  A command that is carried out one file at a time prints
  what its invocation is said to, and exits so.
-/
theorem perform_onFiles
    (files : FileSystem)
    (invocation : Invocation)
    (printed : Printed) :
    ((Console.onFiles files).perform invocation).run
        printed =
      let transcript := invocation.run files
      (transcript.exitCode,
        printed.followedBy transcript) := by
  cases invocation with
  | process options =>
      exact processAll_onFiles options files options.files
        printed
  | showVersion => rfl
  | showHelp => rfl
  | usageError => rfl

/-
  A command that processes files prints them in order, up to
  the first that is refused: of that one and all later files
  nothing is printed, its log stands after those of the files
  before it, and its reason ends the report. The exit code
  tells whether there is such a file. A command line that
  differs only in how much is to be logged prints the same
  and exits alike.
-/
theorem run_process
    {arguments : List String}
    {options : Options}
    (hArguments :
      Invocation.ofArguments arguments = .process options)
    (files : FileSystem) :
    let transcript :=
      (Invocation.ofArguments arguments).run files
    ((∃ before path after reason,
        options.files = before ++ path :: after ∧
          (∀ earlier ∈ before,
            options.Accepts files earlier) ∧
          options.Refuses files path reason ∧
          transcript =
            ⟨1,
              String.join
                (before.map (options.printed files)),
              String.join
                  ((before ++ [path]).map
                    (options.logged files)) ++
                path ++ ": " ++ reason ++ "\n"⟩) ∨
      ((∀ path ∈ options.files,
          options.Accepts files path) ∧
        transcript =
          ⟨0,
            String.join
              (options.files.map (options.printed files)),
            String.join
              (options.files.map
                (options.logged files))⟩)) ∧
      ∀ arguments' verbosity,
        Invocation.ofArguments arguments' =
            .process { options with verbosity := verbosity } →
          ((Invocation.ofArguments arguments').run
                files).exitCode = transcript.exitCode ∧
            ((Invocation.ofArguments arguments').run
                files).stdout = transcript.stdout := by
  intro transcript
  have hRun : transcript =
      processFiles options files options.files := by
    simp only [transcript, hArguments, Invocation.run]
  rw [hRun]
  refine ⟨?_, ?_⟩
  · rcases accepts_or_refused options files options.files with
      hAll | hFirst
    · exact .inr ⟨hAll, processFiles_of_accepts hAll⟩
    · rcases hFirst with
        ⟨before, path, after, reason, hFiles, hBefore,
          hRefuses⟩
      refine .inl ⟨before, path, after, reason, hFiles,
        hBefore, hRefuses, ?_⟩
      rw [hFiles]
      exact processFiles_of_refused hBefore hRefuses after
  · intro arguments' verbosity hArguments'
    rw [hArguments', Invocation.run]
    exact processFiles_verbosity options files options.files
      verbosity

/-
  Two command lines that differ in their verbosity, and what
  the louder one reports.
-/
theorem run_process_verbose :
    let files : FileSystem :=
      ⟨fun _ => .ok [.bytes "syntax".toUTF8.toList]⟩
    let options : Options := ⟨["a", "b"], true, false, 0⟩
    let quiet :=
      Invocation.ofArguments ["a", "--validate", "b"]
    let loud :=
      Invocation.ofArguments ["-vv", "--validate", "a", "b"]
    quiet = .process options ∧
      loud = .process { options with verbosity := 2 } ∧
      (loud.run files).exitCode = (quiet.run files).exitCode ∧
      (loud.run files).stdout =
        (quiet.run files).stdout ∧
      (loud.run files).stderr =
        "[DEBUG protohdl::diagnostics] " ++
          "Compiling .proto file a\n" ++
          "[ERROR protohdl::diagnostics] " ++
          "unexpected end of file while reading " ++
          "'=' after \"syntax\"\n" ++
          "a: unexpected end of file while reading " ++
          "'=' after \"syntax\"\n" := by
  intro files options quiet loud
  have hQuiet : quiet = .process options := by
    decide +kernel
  have hLoud :
      loud = .process { options with verbosity := 2 } := by
    decide +kernel
  rcases (run_process hQuiet files).2 _ 2 hLoud with
    ⟨hCode, hOutput⟩
  exact ⟨hQuiet, hLoud, hCode, hOutput, by decide +kernel⟩

end ProtoSchema
