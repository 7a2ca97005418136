import ProtoSchema.Schema.Basic

/-
  Schemas that are built by calls, one after the other. The
  calls work on one schema in place, and any of them may be
  refused. What has been built can be told from the history
  of the calls.

  Key definitions include:
    * `Builder`
    * `Call`
    * `Call.step`
    * `perform`
    * `Call.early`
    * `Call.late`
    * `pushed`

  Main theorems:
    * `Call.on_step`
    * `perform_undeclared`
    * `perform_declared`
    * `getMessage?_perform`
    * `perform_history`
-/

namespace ProtoSchema

------------------------------------------------------------
-- Working in Place
------------------------------------------------------------

/-
  A step that works on a schema in place. What it assigns
  stays assigned, also if it fails after that.
-/
abbrev Builder (α : Type) : Type :=
  ExceptT ParseError (StateM SchemaFile) α

namespace Builder

/- What a step answers, and the schema that it leaves. -/
def on
    {α : Type}
    (step : Builder α)
    (schema : SchemaFile) :
    Except ParseError α × SchemaFile :=
  (step.run.run schema).run

/- Record the syntax declaration. -/
def setVersion (version : String) : Builder Unit := do
  if (← get).version.isSome then
    throw (.malformed .duplicateSyntax)
  if version ≠ SyntaxVersion.proto3.name then
    throw (.unsupported (.syntaxVersion version))
  modify fun schema =>
    { schema with version := some .proto3 }

/- Append a message. -/
def pushMessage (message : Message) : Builder Unit := do
  if (← get).version.isNone then
    throw (.outOfOrder "message")
  modify fun schema =>
    { schema with messages := schema.messages ++ [message] }

end Builder

/- A call that builds a schema further. -/
inductive Call where
  | setVersion (version : String)
  | pushMessage (message : Message)
deriving DecidableEq, Repr

namespace Call

/- What a call does to a schema in place. -/
def step : Call → Builder Unit
  | setVersion version => Builder.setVersion version
  | pushMessage message => Builder.pushMessage message

/- The schema that a call makes of another. -/
def apply (schema : SchemaFile) :
    Call → Except ParseError SchemaFile
  | setVersion version => schema.setVersion version
  | pushMessage message => schema.pushMessage message

/-
  In place, a call leaves the schema that it makes, and the
  schema that was there if it makes none.
-/
theorem on_step
    (call : Call)
    (schema : SchemaFile) :
    call.step.on schema =
      match call.apply schema with
      | .ok next => (.ok (), next)
      | .error error => (.error error, schema) := by
  rcases schema with ⟨version, messages⟩
  cases call with
  | setVersion name =>
      cases version with
      | some found => rfl
      | none =>
          by_cases hName : name = SyntaxVersion.proto3.name
          · subst hName
            rfl
          · simp only [step, apply, Builder.on,
              Builder.setVersion, SchemaFile.setVersion,
              ne_eq, hName, not_false_eq_true, if_true]
            rfl
  | pushMessage message =>
      cases version with
      | some found => rfl
      | none => rfl

/- A call that fails leaves the schema as it was. -/
theorem on_step_error
    {call : Call}
    {schema : SchemaFile}
    {error : ParseError}
    (hFails : (call.step.on schema).1 = .error error) :
    (call.step.on schema).2 = schema := by
  rw [on_step] at hFails ⊢
  cases hApply : call.apply schema with
  | error _ => rfl
  | ok next => simp [hApply] at hFails

/-
  The answer to a call before the syntax declaration, unless
  it is that declaration.
-/
def early : Call → Except ParseError Unit
  | setVersion version =>
      .error (.unsupported (.syntaxVersion version))
  | pushMessage _ => .error (.outOfOrder "message")

/- The answer to a call after the syntax declaration. -/
def late : Call → Except ParseError Unit
  | setVersion _ => .error (.malformed .duplicateSyntax)
  | pushMessage _ => .ok ()

/- The message that a call pushes. -/
def message? : Call → Option Message
  | setVersion _ => none
  | pushMessage message => some message

/- The call that declares the syntax. -/
def declaration : Call :=
  setVersion "proto3"

------------------------------------------------------------
-- Single Calls
------------------------------------------------------------

section SingleCalls

variable {call : Call}
variable {messages : List Message}

/- Before the declaration, every other call is refused. -/
theorem on_step_early
    (hCall : call ≠ declaration) :
    call.step.on ⟨none, messages⟩ =
      (call.early, ⟨none, messages⟩) := by
  rw [on_step]
  cases call with
  | setVersion version =>
      have hName : version ≠ "proto3" := by
        intro hEq
        exact hCall (congrArg setVersion hEq)
      simp [apply, SchemaFile.setVersion,
        SyntaxVersion.name, hName, early]
  | pushMessage message => rfl

/- The declaration itself succeeds. -/
theorem on_step_declaration :
    declaration.step.on ⟨none, messages⟩ =
      (.ok (), ⟨some .proto3, messages⟩) :=
  rfl

/- After it messages are appended, and nothing else is done. -/
theorem on_step_late
    (call : Call)
    (version : SyntaxVersion) :
    call.step.on ⟨some version, messages⟩ =
      (call.late,
        ⟨some version, messages ++ call.message?.toList⟩) := by
  rw [on_step]
  cases call with
  | setVersion name =>
      simp [apply, SchemaFile.setVersion, late, message?]
  | pushMessage message => rfl

end SingleCalls

end Call

------------------------------------------------------------
-- Histories
------------------------------------------------------------

/- What a history of calls leaves: answers and a schema. -/
structure Built where
  answers : List (Except ParseError Unit)
  schema : SchemaFile

/- Make calls one after the other, refused ones included. -/
def perform (schema : SchemaFile) : List Call → Built
  | [] => ⟨[], schema⟩
  | call :: later =>
      let (answer, next) := call.step.on schema
      let built := perform next later
      ⟨answer :: built.answers, built.schema⟩

/- The messages that calls push, in their order. -/
def pushed (calls : List Call) : List Message :=
  calls.filterMap Call.message?

theorem pushed_cons
    (call : Call)
    (calls : List Call) :
    pushed (call :: calls) =
      call.message?.toList ++ pushed calls := by
  cases call <;> rfl

section Histories

variable {calls : List Call}
variable {messages : List Message}

theorem perform_cons
    {call : Call}
    {schema next : SchemaFile}
    {answer : Except ParseError Unit}
    (hCall : call.step.on schema = (answer, next))
    (later : List Call) :
    perform schema (call :: later) =
      ⟨answer :: (perform next later).answers,
        (perform next later).schema⟩ := by
  rw [perform, hCall]

theorem perform_append
    (schema : SchemaFile)
    (calls later : List Call) :
    perform schema (calls ++ later) =
      ⟨(perform schema calls).answers ++
          (perform (perform schema calls).schema
            later).answers,
        (perform (perform schema calls).schema
          later).schema⟩ := by
  induction calls generalizing schema with
  | nil => rfl
  | cons call calls ih =>
      rcases hCall : call.step.on schema with ⟨answer, next⟩
      rw [List.cons_append, perform_cons hCall,
        perform_cons hCall, ih, List.cons_append]

/- Without a declaration all calls are refused. -/
theorem perform_undeclared
    (hCalls : .declaration ∉ calls) :
    perform ⟨none, messages⟩ calls =
      ⟨calls.map Call.early, ⟨none, messages⟩⟩ := by
  induction calls with
  | nil => rfl
  | cons call calls ih =>
      rw [List.mem_cons, not_or] at hCalls
      rcases hCalls with ⟨hCall, hCalls⟩
      rw [perform_cons (Call.on_step_early (Ne.symm hCall)),
        ih hCalls, List.map_cons]

/- Behind a declaration all messages are appended. -/
theorem perform_declared
    (version : SyntaxVersion)
    (messages : List Message)
    (calls : List Call) :
    perform ⟨some version, messages⟩ calls =
      ⟨calls.map Call.late,
        ⟨some version, messages ++ pushed calls⟩⟩ := by
  induction calls generalizing messages with
  | nil => simp [perform, pushed]
  | cons call calls ih =>
      rw [perform_cons (Call.on_step_late call version), ih]
      rw [pushed_cons, List.append_assoc, List.map_cons]

/- The first declaration divides a history in two. -/
theorem perform_declaration
    {before : List Call}
    (hBefore : .declaration ∉ before)
    (after : List Call) :
    perform ⟨none, messages⟩
        (before ++ .declaration :: after) =
      ⟨before.map Call.early ++
          .ok () :: after.map Call.late,
        ⟨some .proto3, messages ++ pushed after⟩⟩ := by
  rw [perform_append, perform_undeclared hBefore,
    perform_cons Call.on_step_declaration,
    perform_declared]

/- The syntax is declared exactly if a call has done so. -/
theorem version_perform_iff :
    (perform .empty calls).schema.version = some .proto3 ↔
      .declaration ∈ calls := by
  rw [SchemaFile.empty]
  by_cases hCalls : .declaration ∈ calls
  · rcases List.eq_append_cons_of_mem hCalls with
      ⟨before, after, rfl, hBefore⟩
    rw [perform_declaration hBefore]
    simp
  · rw [perform_undeclared hCalls]
    simp [hCalls]

/- Calls only ever append to the messages that are there. -/
theorem messages_perform
    (schema : SchemaFile)
    (calls : List Call) :
    schema.messages <+:
      (perform schema calls).schema.messages := by
  rcases schema with ⟨version, messages⟩
  cases version with
  | some version =>
      rw [perform_declared]
      exact List.prefix_append _ _
  | none =>
      by_cases hCalls : .declaration ∈ calls
      · rcases List.eq_append_cons_of_mem hCalls with
          ⟨before, after, rfl, hBefore⟩
        rw [perform_declaration hBefore]
        exact List.prefix_append _ _
      · simp [perform_undeclared hCalls]

/- What has been found under a name is found ever after. -/
theorem getMessage?_perform
    {schema : SchemaFile}
    {name : String}
    {message : Message}
    (hFound : schema.getMessage? name = some message)
    (calls : List Call) :
    (perform schema calls).schema.getMessage? name =
      some message :=
  (messages_perform schema calls).find?_eq_some hFound

end Histories

/-
  A schema is told by the history of the calls that have
  built it. A call leaves what it makes of the schema, and a
  call that fails changes nothing. The first declaration of
  the syntax succeeds, and it alone; before it all other
  calls fail, and behind it all messages that are pushed are
  appended. Once a message is found under a name, it is found
  under that name from then on.
-/
theorem perform_history (calls later : List Call) :
    let built := perform .empty calls
    (∀ (schema : SchemaFile) (call : Call),
        call.step.on schema =
          match call.apply schema with
          | .ok next => (.ok (), next)
          | .error error => (.error error, schema)) ∧
      (∀ (schema : SchemaFile) (call : Call)
          (error : ParseError),
        (call.step.on schema).1 = .error error →
          (call.step.on schema).2 = schema) ∧
      (built.schema.version = some .proto3 ↔
        .setVersion "proto3" ∈ calls) ∧
      (∀ before after,
        calls = before ++ .setVersion "proto3" :: after →
          .setVersion "proto3" ∉ before →
            built.answers =
                before.map Call.early ++
                  .ok () :: after.map Call.late ∧
              built.schema.messages = pushed after) ∧
      (.setVersion "proto3" ∉ calls →
        built.answers = calls.map Call.early ∧
          built.schema = .empty) ∧
      (built.schema.messages ≠ [] →
        built.schema.version = some .proto3) ∧
      ∀ name message,
        built.schema.getMessage? name = some message →
          (perform .empty
              (calls ++ later)).schema.getMessage? name =
            some message := by
  intro built
  have hEmpty :
      .declaration ∉ calls →
        built = ⟨calls.map Call.early, .empty⟩ :=
    perform_undeclared
  refine ⟨fun schema call => call.on_step schema,
    fun _ _ _ => Call.on_step_error, version_perform_iff,
    ?_, ?_, ?_, ?_⟩
  · intro before after hCalls hBefore
    have hBuilt :
        built =
          ⟨before.map Call.early ++
              .ok () :: after.map Call.late,
            ⟨some .proto3, pushed after⟩⟩ := by
      subst hCalls
      exact perform_declaration hBefore after
    rw [hBuilt]
    exact ⟨rfl, rfl⟩
  · intro hCalls
    rw [hEmpty hCalls]
    exact ⟨rfl, rfl⟩
  · intro hMessages
    rw [version_perform_iff]
    by_cases hCalls : .declaration ∈ calls
    · exact hCalls
    · rw [hEmpty hCalls] at hMessages
      exact absurd rfl hMessages
  · intro name message hFound
    rw [perform_append]
    exact getMessage?_perform hFound later

/- A history with calls that are refused on both sides. -/
theorem perform_history_refused :
    let first := Call.pushMessage ⟨"A", []⟩
    let found : Message := ⟨"B", []⟩
    let other : Message := ⟨"B", [.enum ⟨"E", []⟩]⟩
    let calls :=
      [first, .setVersion "proto2", .setVersion "proto3",
        .pushMessage found, .setVersion "proto3"]
    let built := perform .empty calls
    built.answers =
        [.error (.outOfOrder "message"),
          .error (.unsupported (.syntaxVersion "proto2")),
          .ok (), .ok (),
          .error (.malformed .duplicateSyntax)] ∧
      built.schema = ⟨some .proto3, [found]⟩ ∧
      (perform .empty
          (calls ++
            [.pushMessage other])).schema.getMessage? "B" =
        some found := by
  intro first found other calls built
  rcases perform_history calls [.pushMessage other] with
    ⟨_, _, hVersion, hBuilt, _, _, hFound⟩
  have hDeclared : Call.setVersion "proto3" ∈ calls := by
    decide
  rcases hBuilt [first, .setVersion "proto2"]
      [.pushMessage found, .setVersion "proto3"] rfl
      (by decide) with
    ⟨hAnswers, hMessages⟩
  have hSchema :
      built.schema = ⟨some .proto3, [found]⟩ := by
    rw [← show built.schema.version = _ from
        hVersion.mpr hDeclared,
      ← show built.schema.messages = [found] from hMessages]
  refine ⟨hAnswers, hSchema, hFound "B" found ?_⟩
  rw [show (perform .empty calls).schema = _ from hSchema]
  rfl

end ProtoSchema
