import ProtoSchema.Proofs.Grammar.Acceptance
import ProtoSchema.Proofs.Reading.Resumption

/-
  Reading a concatenation: behind a schema, reading goes on
  as behind a syntax declaration; behind an error, it does
  not go on, unless the text had only ended too early.

  Key definitions include:
    * `SchemaFile.precededBy`
    * `Session.Continues`

  Main theorems:
    * `Session.run_gap_append`
    * `Session.start_continues`
    * `Session.run_precededBy`
    * `readText_append`
-/

namespace ProtoSchema

open Grammar

------------------------------------------------------------
-- Gaps Between Items
------------------------------------------------------------

namespace Parser

/-
  A gap in front of a text is noted together with the gap
  that the text begins with.
-/
theorem noteComments_gap_append
    {gap : List Char}
    (hGap : Gap false gap)
    (place : Diagnostics)
    (text : List Char) :
    (∃ rest records records',
        (noteComments place).run (gap ++ text) =
            ⟨.ok (), rest, records⟩ ∧
          (noteComments place).run text =
            ⟨.ok (), rest, records'⟩) ∨
      ∃ error rest,
        (noteComments place).run (gap ++ text) =
            ⟨.error error, rest, []⟩ ∧
          (noteComments place).run text =
            ⟨.error error, rest, []⟩ := by
  have hSame := gapFrom_gap_append hGap text
  rcases hFrom : gapFrom false (gap ++ text) with
    ⟨comments, rest⟩
  rcases hFrom' : gapFrom false text with
    ⟨comments', rest'⟩
  rw [hFrom, hFrom'] at hSame
  change rest = rest' at hSame
  subst hSame
  by_cases hSlash : '/' ∈ rest.head?
  · rcases List.head?_eq_some_iff.mp hSlash with
      ⟨tail, rfl⟩
    exact .inr ⟨_, _, bind_of_error (skipGap_of_slash hFrom),
      bind_of_error (skipGap_of_slash hFrom')⟩
  · exact .inl ⟨rest, _, _,
      noteComments_eq_ok_iff.mpr
        ⟨_, skipGap_of_gapFrom hFrom hSlash, rfl⟩,
      noteComments_eq_ok_iff.mpr
        ⟨_, skipGap_of_gapFrom hFrom' hSlash, rfl⟩⟩

end Parser

namespace Session

open ProtoSchema.Parser

/- A gap in front of the items changes records at most. -/
theorem run_gap_append
    {gap : List Char}
    (hGap : Gap false gap)
    (schema : SchemaFile)
    (text : List Char) :
    (Session.mk .ready schema (gap ++ text)).run.result =
      (Session.mk .ready schema text).run.result := by
  rcases noteComments_gap_append hGap .topLevel text with
    ⟨rest, records, records', hNote, hNote'⟩ |
    ⟨error, rest, hNote, hNote'⟩
  · rw [run_eq, run_eq, step, step]
    simp only [readNext, bind_of_ok hNote,
      bind_of_ok hNote']
    rcases
      (nextWord >>= fun word =>
        readAfter .ready schema word).run rest with
      ⟨error | (_ | declared), after, written⟩
    · rfl
    · rfl
    · rfl
  · rw [run_eq, run_eq, step, step]
    simp only [readNext, bind_of_error hNote,
      bind_of_error hNote']

------------------------------------------------------------
-- Lines That Follow
------------------------------------------------------------

/-
  How the reading of a text goes on in lines that follow it:
  behind the schema that was read, as from there; behind an
  error, not at all, unless the text ended too early.
-/
def Continues
    (session : Session)
    (more : List Char) :
    Except ParseError SchemaFile → Prop
  | .ok final =>
      (Session.mk session.phase session.schema
          (session.rest ++ '\n' :: more)).run.result =
        (Session.mk .ready final more).run.result
  | .error error =>
      (∃ reading, error = .unexpectedEnd reading) ∨
        (Session.mk session.phase session.schema
            (session.rest ++ '\n' :: more)).run.result =
          .error error

/-
  The end of a line closes the gap that was left, and then
  the lines that follow are read on their own.
-/
theorem Resumes.continues
    {session : Session}
    {more : List Char}
    {result : Except ParseError SchemaFile}
    (h : session.Resumes ('\n' :: more) result) :
    session.Continues more result := by
  cases result with
  | error error => exact h
  | ok final =>
      rcases h with ⟨gap, hGap, hRun⟩
      have hClosed := run_gap_append hGap.close final more
      rw [List.append_assoc] at hClosed
      exact hRun.trans hClosed

/- Every session goes on so in the lines behind its text. -/
theorem start_continues
    (text more : String) :
    (Session.start text).Continues more.toList
      (readText text).result :=
  (start_resumes (cleanCut_line _ _)).continues

end Session

------------------------------------------------------------
-- Messages in Front
------------------------------------------------------------

/- The same schema with messages in front of its own. -/
def SchemaFile.precededBy
    (messages : List Message)
    (schema : SchemaFile) : SchemaFile :=
  ⟨schema.version, messages ++ schema.messages⟩

theorem SchemaFile.setVersion_precededBy
    (messages : List Message)
    (schema : SchemaFile)
    (version : String) :
    (schema.precededBy messages).setVersion version =
      (schema.setVersion version).map
        (precededBy messages) := by
  unfold setVersion
  cases hVersion : schema.version with
  | some found => simp [precededBy, hVersion, Except.map]
  | none =>
      by_cases hName : version ≠ SyntaxVersion.proto3.name
      · simp [precededBy, hVersion, hName, Except.map]
      · simp [precededBy, hVersion, hName, Except.map]

theorem SchemaFile.pushMessage_precededBy
    (messages : List Message)
    (schema : SchemaFile)
    (message : Message) :
    (schema.precededBy messages).pushMessage message =
      (schema.pushMessage message).map
        (precededBy messages) := by
  unfold pushMessage
  cases hVersion : schema.version with
  | some found => simp [precededBy, hVersion, Except.map]
  | none => simp [precededBy, hVersion, Except.map]

namespace Parser

variable {α β : Type}

theorem map_run
    (f : α → β)
    (parser : Parser α)
    (text : List Char) :
    (f <$> parser).run text = (parser.run text).map f := by
  rw [← bind_pure_comp]
  rcases hRun : parser.run text with
    ⟨error | value, rest, records⟩
  · rw [bind_of_error hRun]
    rfl
  · rw [bind_of_ok hRun, pure_eq]
    simp [Outcome.after, Outcome.map, Except.map]

theorem map_ofExcept
    (f : α → β)
    (step : Except ParseError α) :
    f <$> ofExcept step = ofExcept (step.map f) := by
  apply ext_run
  intro text
  rw [map_run]
  rfl

/- What has been declared before is only carried along. -/
theorem readSyntax_precededBy
    (messages : List Message)
    (schema : SchemaFile) :
    readSyntax (schema.precededBy messages) =
      SchemaFile.precededBy messages <$>
        readSyntax schema := by
  simp only [readSyntax, map_bind, map_pure,
    SchemaFile.setVersion_precededBy, ← map_ofExcept,
    bind_map_left]

theorem readDeclaration_precededBy
    (messages : List Message)
    (schema : SchemaFile)
    (keyword : String) :
    readDeclaration (schema.precededBy messages) keyword =
      SchemaFile.precededBy messages <$>
        readDeclaration schema keyword := by
  unfold readDeclaration
  split
  · exact readSyntax_precededBy messages schema
  split
  · simp only [map_bind, map_ofExcept,
      SchemaFile.pushMessage_precededBy]
  split
  · rfl
  split
  · rw [map_pure]
  · rfl

end Parser

namespace Session

open ProtoSchema.Parser

theorem readItem_precededBy
    (messages : List Message)
    (schema : SchemaFile) :
    readItem .ready (schema.precededBy messages) =
      SchemaFile.precededBy messages <$>
        readItem .ready schema := by
  have hKeyword : ∀ schema,
      readKeyword .ready schema = readDeclaration schema := by
    intro schema
    funext keyword
    rw [readKeyword, if_neg (by decide)]
  simp only [readItem, hKeyword, map_bind,
    readDeclaration_precededBy]

/- A run carries earlier messages to its end. -/
theorem run_precededBy
    (messages : List Message)
    (schema : SchemaFile)
    (text : List Char) :
    (Session.mk .ready (schema.precededBy messages)
        text).run.result =
      (Session.mk .ready schema text).run.result.map
        (SchemaFile.precededBy messages) := by
  have hItem : ∀ schema text,
      (readItem .ready (schema.precededBy messages)).run
          text =
        ((readItem .ready schema).run text).map
          (SchemaFile.precededBy messages) := by
    intro schema text
    rw [readItem_precededBy, map_run]
  refine run_induct
    (motive := fun schema text reading =>
      (Session.mk .ready (schema.precededBy messages)
          text).run.result =
        reading.result.map (SchemaFile.precededBy messages))
    ?_ ?_ ?_ schema text
  · intro schema text records hNote
    rw [run_of_gap hNote]
    rfl
  · intro schema text rest error records hGap hRead
    have hError := hItem schema text
    rw [hRead] at hError
    rw [run_of_error (.inr rfl) (.inr hGap) hError]
    rfl
  · intro schema declared text rest records hRead ih
    have hNext := hItem schema text
    rw [hRead] at hNext
    rw [run_of_item (.inr rfl) hNext]
    exact ih

end Session

------------------------------------------------------------
-- Whole Texts
------------------------------------------------------------

/- Behind a syntax declaration there is no message yet. -/
theorem readText_syntax_append (more : String) :
    (readText ("syntax = \"proto3\";" ++ more)).result =
      (Session.mk .ready ⟨some .proto3, []⟩
        more.toList).run.result := by
  have hOpen : ∃ records,
      (Session.readItem .awaitingSyntax .empty).run
          ("syntax = \"proto3\";".toList ++ more.toList) =
        ⟨.ok ⟨some .proto3, []⟩, more.toList, records⟩ :=
    ⟨_, rfl⟩
  rcases hOpen with ⟨records, hOpen⟩
  unfold readText Session.start
  rw [String.toList_append,
    Session.run_of_item (.inl rfl) hOpen]
  rfl

/-
  Reading is compositional. Lines behind a text that is read
  add to its schema what they would declare on their own
  behind a syntax declaration, or fail with the same error.
  Lines behind a text that fails change nothing, unless the
  text had ended too early.
-/
theorem readText_append
    (text more : String) :
    (∀ schema,
        (readText text).result = .ok schema →
          (readText (text ++ "\n" ++ more)).result =
            (readText
              ("syntax = \"proto3\";" ++ more)).result.map
              (SchemaFile.precededBy schema.messages)) ∧
      ∀ error,
        (readText text).result = .error error →
          (∀ reading, error ≠ .unexpectedEnd reading) →
            (readText (text ++ "\n" ++ more)).result =
              .error error := by
  have hText : Session.start (text ++ "\n" ++ more) =
      ⟨.awaitingSyntax, .empty,
        text.toList ++ '\n' :: more.toList⟩ := by
    simp [Session.start]
  have hContinues := Session.start_continues text more
  constructor
  · intro schema hRead
    rw [hRead] at hContinues
    have hVersion := version_of_readText hRead
    have hSchema : schema =
        SchemaFile.precededBy schema.messages
          ⟨some .proto3, []⟩ := by
      cases schema
      simp_all [SchemaFile.precededBy]
    rw [readText, hText, readText_syntax_append,
      ← Session.run_precededBy, ← hSchema]
    exact hContinues
  · intro error hRead hEnd
    rw [hRead] at hContinues
    rcases hContinues with hShort | hContinues
    · rcases hShort with ⟨reading, hReading⟩
      exact absurd hReading (hEnd reading)
    · rw [readText, hText]
      exact hContinues

/-
  A text with a message, which ends in a comment, goes on
  with another message or with what is wrong there. A text
  that is wrong does not go on.
-/
theorem readText_append_messages :
    let text := "syntax=\"proto3\";message A\x7bs a=1;\x7d//x"
    let more := "message B\x7benum E\x7bZ=0;\x7d\x7d"
    let wrong := "message B\x7b\x7d \x7d"
    let first : Message := ⟨"A", [.field ⟨"a", "s", 1, false⟩]⟩
    let second : Message := ⟨"B", [.enum ⟨"E", [⟨"Z", 0⟩]⟩]⟩
    (readText text).result = .ok ⟨some .proto3, [first]⟩ ∧
      ((readText ("syntax = \"proto3\";" ++ more)).result =
          .ok ⟨some .proto3, [second]⟩ ∧
        (readText (text ++ "\n" ++ more)).result =
          .ok ⟨some .proto3, [first, second]⟩) ∧
      ((readText ("syntax = \"proto3\";" ++ wrong)).result =
          .error (.unknownKeyword "\x7d") ∧
        (readText (text ++ "\n" ++ wrong)).result =
          .error (.unknownKeyword "\x7d")) ∧
      (readText more).result =
          .error (.outOfOrder "message") ∧
        (readText (more ++ "\n" ++ text)).result =
          .error (.outOfOrder "message") := by
  intro text more wrong first second
  have hText : (readText text).result =
      .ok ⟨some .proto3, [first]⟩ := by
    decide +kernel
  have hMore :
      (readText ("syntax = \"proto3\";" ++ more)).result =
        .ok ⟨some .proto3, [second]⟩ := by
    decide +kernel
  have hWrong :
      (readText ("syntax = \"proto3\";" ++ wrong)).result =
        .error (.unknownKeyword "\x7d") := by
    decide +kernel
  have hEarly : (readText more).result =
      .error (.outOfOrder "message") := by
    decide +kernel
  have hOnMore := (readText_append text more).1 _ hText
  have hOnWrong := (readText_append text wrong).1 _ hText
  rw [hMore] at hOnMore
  rw [hWrong] at hOnWrong
  exact ⟨hText, ⟨hMore, hOnMore⟩, ⟨hWrong, hOnWrong⟩,
    hEarly, (readText_append more text).2 _ hEarly (by simp)⟩

end ProtoSchema
