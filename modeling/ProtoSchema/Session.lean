import ProtoSchema.Parser.Declaration

/-
  Reading a whole schema, one top-level declaration a step.
  A session holds how far the reading has come; running it
  takes steps until the text is used up or a step fails.

  Key definitions include:
    * `Phase`
    * `Session`
    * `Session.step`
    * `Reading`
    * `Session.run`
    * `readText`

  Main theorems:
    * `Session.step_lt`
    * `Session.run_eq`
-/

namespace ProtoSchema

------------------------------------------------------------
-- Top-Level Declarations
------------------------------------------------------------

namespace Parser

/-
  Read a syntax declaration, whose keyword has been read
  already.
-/
def readSyntax (schema : SchemaFile) :
    Parser SchemaFile := do
  expect '=' "after \"syntax\""
  let version ← readQuoted "syntax version"
  expect ';' "after syntax declaration"
  let declared ← ofExcept (schema.setVersion version)
  write (Diagnostics.topLevel.debug "Valid syntax declaration")
  pure declared

theorem readSyntax_advances (schema : SchemaFile) :
    (readSyntax schema).Advances :=
  (expect_advances _ _).bind fun _ =>
    (readQuoted_advances _).shrinks.bind fun _ =>
      (expect_advances _ _).shrinks.bind fun _ =>
        (shrinks_ofExcept _).bind fun _ =>
          (shrinks_write _).bind fun _ =>
            shrinks_pure _

/- The keywords of declarations that are refused. -/
def isRefused (keyword : String) : Bool :=
  keyword = "import" || keyword = "option" ||
    keyword = "package" || keyword = "enum" ||
    keyword = "service"

/- Read the declaration that `keyword` begins. -/
def readDeclaration
    (schema : SchemaFile)
    (keyword : String) : Parser SchemaFile :=
  if keyword = "syntax" then
    readSyntax schema
  else if keyword = "message" then do
    let message ← readMessage .topLevel
    ofExcept (schema.pushMessage message)
  else if isRefused keyword then
    fail (.unsupported (.declaration keyword))
  else if keyword = ";" then
    pure schema
  else
    fail (.unknownKeyword keyword)

theorem readDeclaration_shrinks
    (schema : SchemaFile)
    (keyword : String) :
    (readDeclaration schema keyword).Shrinks := by
  unfold readDeclaration
  split
  · exact (readSyntax_advances schema).shrinks
  split
  · exact (readMessage_advances _).shrinks.bind fun _ =>
      shrinks_ofExcept _
  split
  · exact shrinks_fail _
  split
  · exact shrinks_pure _
  · exact shrinks_fail _

/-
  Read what `keyword` begins before any declaration: nothing
  but a syntax declaration.
-/
def readOpening
    (schema : SchemaFile)
    (keyword : String) : Parser SchemaFile :=
  if keyword = "syntax" then
    readSyntax schema
  else
    fail (.outOfOrder keyword)

theorem readOpening_shrinks
    (schema : SchemaFile)
    (keyword : String) :
    (readOpening schema keyword).Shrinks := by
  unfold readOpening
  split
  · exact (readSyntax_advances schema).shrinks
  · exact shrinks_fail _

end Parser

------------------------------------------------------------
-- Sessions
------------------------------------------------------------

/- How far a session has come. -/
inductive Phase where
  /- Nothing has been declared. -/
  | awaitingSyntax
  /- The syntax is declared, and more may follow. -/
  | ready
  | failed
  | done
deriving DecidableEq, Repr

/-
  A reading between two steps: its phase, the schema so far
  and the text that remains.
-/
structure Session where
  phase : Phase
  schema : SchemaFile
  rest : List Char
deriving DecidableEq, Repr

namespace Session

open ProtoSchema.Parser

/- The session at the front of a text. -/
def start (text : String) : Session :=
  ⟨.awaitingSyntax, .empty, text.toList⟩

/-
  Read the declaration that `keyword` begins in a session of
  the given phase.
-/
def readKeyword
    (phase : Phase)
    (schema : SchemaFile)
    (keyword : String) : Parser SchemaFile :=
  if phase = .awaitingSyntax then
    readOpening schema keyword
  else
    readDeclaration schema keyword

theorem readKeyword_shrinks
    (phase : Phase)
    (schema : SchemaFile)
    (keyword : String) :
    (readKeyword phase schema keyword).Shrinks := by
  unfold readKeyword
  split
  · exact readOpening_shrinks schema keyword
  · exact readDeclaration_shrinks schema keyword

/-
  Read what the next word begins. The answer is the schema
  with the declaration in it, or nothing at the end of the
  text, which may not come before the syntax declaration.
-/
def readAfter
    (phase : Phase)
    (schema : SchemaFile) :
    Option String → Parser (Option SchemaFile)
  | none =>
      if phase = .awaitingSyntax then
        fail (.unexpectedEnd "syntax declaration")
      else
        pure none
  | some keyword => do
      let declared ← readKeyword phase schema keyword
      pure (some declared)

theorem readAfter_shrinks
    (phase : Phase)
    (schema : SchemaFile)
    (word : Option String) :
    (readAfter phase schema word).Shrinks := by
  unfold readAfter
  split
  · split
    · exact shrinks_fail _
    · exact shrinks_pure _
  · exact (readKeyword_shrinks _ _ _).bind fun _ =>
      shrinks_pure _

/- Read up to the end of one declaration. -/
def readNext
    (phase : Phase)
    (schema : SchemaFile) : Parser (Option SchemaFile) := do
  noteComments .topLevel
  let word ← nextWord
  readAfter phase schema word

theorem readNext_shrinks
    (phase : Phase)
    (schema : SchemaFile) :
    (readNext phase schema).Shrinks :=
  (noteComments_shrinks _).bind fun _ =>
    nextWord_shrinks.bind fun word =>
      readAfter_shrinks phase schema word

/- A declaration that has been read is not empty. -/
theorem readNext_lt
    {phase : Phase}
    {schema declared : SchemaFile}
    {text rest : List Char}
    {records : List Record}
    (h : (readNext phase schema).run text =
      ⟨.ok (some declared), rest, records⟩) :
    rest.length < text.length := by
  rcases bind_eq_ok_iff.mp h with
    ⟨_, middle, before, after, hGap, hRead, _⟩
  have hSuffix := noteComments_shrinks .topLevel text
  rw [hGap] at hSuffix
  rcases bind_eq_ok_iff.mp hRead with
    ⟨word, middle', before', after', hWord, hAfter, _⟩
  cases word with
  | none =>
      by_cases hPhase : phase = .awaitingSyntax
      · simp [readAfter, hPhase, fail] at hAfter
      · simp [readAfter, hPhase, pure_eq] at hAfter
  | some keyword =>
      have hSuffix' :=
        readAfter_shrinks phase schema (some keyword) middle'
      rw [hAfter] at hSuffix'
      exact Nat.lt_of_le_of_lt hSuffix'.length_le
        (Nat.lt_of_lt_of_le (nextWord_lt hWord)
          hSuffix.length_le)

/-
  What a step leaves behind: the phase reached or the error,
  the session after it, and its records.
-/
structure Step where
  result : Except ParseError Phase
  session : Session
  records : List Record

/-
  Take one step. A session that has ended stays as it is;
  an error ends it and is put on record.
-/
def step (session : Session) : Step :=
  match session.phase with
  | .failed => ⟨.ok .failed, session, []⟩
  | .done => ⟨.ok .done, session, []⟩
  | phase =>
      match
        (readNext phase session.schema).run session.rest
      with
      | ⟨.error error, rest, records⟩ =>
          ⟨.error error,
            ⟨.failed, session.schema, rest⟩,
            records ++
              [Diagnostics.topLevel.error error.message]⟩
      | ⟨.ok none, rest, records⟩ =>
          ⟨.ok .done, ⟨.done, session.schema, rest⟩,
            records⟩
      | ⟨.ok (some schema), rest, records⟩ =>
          ⟨.ok .ready, ⟨.ready, schema, rest⟩, records⟩

/- A step that leaves the session open reads on. -/
theorem step_lt
    {session next : Session}
    {phase : Phase}
    {records : List Record}
    (h : session.step = ⟨.ok phase, next, records⟩)
    (hFailed : phase ≠ .failed)
    (hDone : phase ≠ .done) :
    next.rest.length < session.rest.length := by
  unfold step at h
  split at h
  · simp only [Step.mk.injEq, Except.ok.injEq] at h
    exact absurd h.1.symm hFailed
  · simp only [Step.mk.injEq, Except.ok.injEq] at h
    exact absurd h.1.symm hDone
  · split at h
    · simp at h
    · simp only [Step.mk.injEq, Except.ok.injEq] at h
      exact absurd h.1.symm hDone
    next hRead =>
      simp only [Step.mk.injEq] at h
      rw [← h.2.1]
      exact readNext_lt hRead

------------------------------------------------------------
-- Whole Readings
------------------------------------------------------------

end Session

/-
  The account of a reading: the schema or the error that
  ended it, and its records.
-/
structure Reading where
  result : Except ParseError SchemaFile
  records : List Record

/- The same account with earlier records in front. -/
def Reading.after
    (records : List Record)
    (reading : Reading) : Reading :=
  ⟨reading.result, records ++ reading.records⟩

namespace Session

/-
  Take steps until the text is used up, and hand over the
  schema. A session that has failed before gives no schema.
-/
def run (session : Session) : Reading :=
  match _hStep : session.step with
  | ⟨.error error, _, records⟩ => ⟨.error error, records⟩
  | ⟨.ok .done, next, records⟩ =>
      ⟨.ok next.schema, records⟩
  | ⟨.ok .failed, _, records⟩ =>
      ⟨.error (.malformed .alreadyFailed), records⟩
  | ⟨.ok .awaitingSyntax, next, records⟩ =>
      next.run.after records
  | ⟨.ok .ready, next, records⟩ => next.run.after records
termination_by session.rest.length
decreasing_by
  · exact step_lt _hStep (by decide) (by decide)
  · exact step_lt _hStep (by decide) (by decide)

/- One step, and the run of the session after it. -/
theorem run_eq (session : Session) :
    session.run =
      match session.step with
      | ⟨.error error, _, records⟩ =>
          ⟨.error error, records⟩
      | ⟨.ok .done, next, records⟩ =>
          ⟨.ok next.schema, records⟩
      | ⟨.ok .failed, _, records⟩ =>
          ⟨.error (.malformed .alreadyFailed), records⟩
      | ⟨.ok .awaitingSyntax, next, records⟩ =>
          next.run.after records
      | ⟨.ok .ready, next, records⟩ =>
          next.run.after records := by
  rw [run]
  rcases session.step with
    ⟨error | (_ | _ | _ | _), next, records⟩ <;> rfl

end Session

/- Read a schema from its text. -/
def readText (text : String) : Reading :=
  (Session.start text).run

end ProtoSchema
