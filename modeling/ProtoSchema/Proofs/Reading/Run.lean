import ProtoSchema.Proofs.Layout.Scanning
import ProtoSchema.Session

/-
  The run of a session, unrolled: it ends when only a gap is
  left, fails with its first declaration, or goes on behind
  it.

  Key definitions include:
    * `Session.readItem`

  Main theorems:
    * `Session.readNext_of_gap`
    * `Session.readNext_of_item`
    * `Session.run_of_item`
    * `Session.run_induct`
-/

namespace ProtoSchema

/- Results can be compared. -/
instance decidableEqResult
    {ε α : Type}
    [DecidableEq ε]
    [DecidableEq α] : DecidableEq (Except ε α)
  | .error left, .error right =>
      decidable_of_iff (left = right) (by simp)
  | .error _, .ok _ => isFalse (by simp)
  | .ok _, .error _ => isFalse (by simp)
  | .ok left, .ok right =>
      decidable_of_iff (left = right) (by simp)

------------------------------------------------------------
-- Building a Schema
------------------------------------------------------------

namespace SchemaFile

/- The first declaration of proto3 is accepted, no other. -/
theorem setVersion_eq_ok_iff
    {schema declared : SchemaFile}
    {version : String} :
    schema.setVersion version = .ok declared ↔
      schema.version = none ∧ version = "proto3" ∧
        declared = ⟨some .proto3, schema.messages⟩ := by
  unfold setVersion
  cases hVersion : schema.version with
  | some found => simp
  | none =>
      by_cases hName : version = "proto3"
      · simp [hName, SyntaxVersion.name, eq_comm]
      · simp [hName, SyntaxVersion.name]

/- A message is appended once the syntax is declared. -/
theorem pushMessage_eq_ok_iff
    {schema declared : SchemaFile}
    {message : Message} :
    schema.pushMessage message = .ok declared ↔
      schema.version.isSome = true ∧
        declared =
          ⟨schema.version, schema.messages ++ [message]⟩ := by
  unfold pushMessage
  by_cases hVersion : schema.version.isSome = true
  · simp [hVersion, eq_comm]
  · simp [hVersion]

end SchemaFile

namespace Session

open ProtoSchema.Parser

------------------------------------------------------------
-- One Declaration
------------------------------------------------------------

/-
  Read a declaration that has to follow, so that the end of
  the text is an error in every phase.
-/
def readItem
    (phase : Phase)
    (schema : SchemaFile) : Parser SchemaFile := do
  noteComments .topLevel
  let keyword ← readWord "syntax declaration"
  readKeyword phase schema keyword

section OneDeclaration

variable {phase : Phase}
variable {schema declared : SchemaFile}
variable {text rest : List Char}
variable {records : List Record}
variable {error : ParseError}

/- A text is noted to its end exactly if it is a gap. -/
theorem noteComments_end_iff :
    (∃ records,
        (noteComments .topLevel).run text =
          ⟨.ok (), [], records⟩) ↔
      Gap true text := by
  constructor
  · intro h
    rcases h with ⟨records, hRun⟩
    rcases noteComments_eq_ok_iff.mp hRun with
      ⟨comments, hSkip, _⟩
    rcases skipGap_eq_ok_iff.mp ⟨comments, hSkip⟩ with
      ⟨_, gap, hGap, rfl⟩
    simpa using hGap
  · intro hGap
    rcases skipGap_eq_ok_iff.mpr
      ⟨ungapped_nil, text, hGap, (List.append_nil _).symm⟩ with
      ⟨comments, hSkip⟩
    exact ⟨_, noteComments_eq_ok_iff.mpr
      ⟨comments, hSkip, rfl⟩⟩

/- The text may end once the syntax is declared. -/
theorem readNext_of_gap
    (hPhase : phase ≠ .awaitingSyntax)
    (hRun :
      (noteComments .topLevel).run text =
        ⟨.ok (), [], records⟩) :
    (readNext phase schema).run text =
      ⟨.ok none, [], records⟩ := by
  have hWord : nextWord.run [] = ⟨.ok none, [], []⟩ := rfl
  rw [readNext, bind_of_ok hRun, bind_of_ok hWord]
  simp [readAfter, hPhase, pure_eq, Outcome.after]

/- There is no next word at the end of a gap only. -/
theorem gap_of_nextWord
    (hRun : nextWord.run text = ⟨.ok none, rest, records⟩) :
    Gap true text := by
  rcases bind_eq_ok_iff.mp hRun with
    ⟨comments, middle, _, _, hSkip, hTake, _⟩
  have hEnd : middle = [] := by
    cases middle with
    | nil => rfl
    | cons c middle =>
        simp only [takeWord] at hTake
        split at hTake <;> simp at hTake
  subst hEnd
  rw [← noteComments_end_iff]
  rcases
      (skipsGap_noteComments .topLevel).mpr
        ((skipsGap_skipGap).mp ⟨comments, _, hSkip⟩) with
    ⟨_, _, hNote⟩
  exact ⟨_, hNote⟩

/- Everywhere else a declaration has to follow. -/
theorem readNext_of_item
    (hItem : phase = .awaitingSyntax ∨ ¬ Gap true text) :
    (readNext phase schema).run text =
      ((readItem phase schema).run text).map some := by
  rcases hNote : (noteComments .topLevel).run text with
    ⟨error | _, middle, before⟩
  · rw [readNext, readItem, bind_of_error hNote,
      bind_of_error hNote]
    rfl
  rw [readNext, readItem, bind_of_ok hNote,
    bind_of_ok hNote, readWord_eq, bind_assoc]
  rcases hWord : nextWord.run middle with
    ⟨error | word, behind, records⟩
  · rw [bind_of_error hWord, bind_of_error hWord]
    rfl
  rw [bind_of_ok hWord, bind_of_ok hWord]
  cases word with
  | some keyword =>
      rw [pure_bind, readAfter]
      rcases hRead :
          (readKeyword phase schema keyword).run behind with
        ⟨error | declared, rest, after⟩
      · rw [bind_of_error hRead]
        rfl
      · rw [bind_of_ok hRead, pure_eq]
        simp [Outcome.after, Outcome.map, Except.map]
  | none =>
      rw [fail_bind, readAfter]
      rcases hItem with hPhase | hGap
      · rw [if_pos hPhase]
        rfl
      · rcases noteComments_eq_ok_iff.mp hNote with
          ⟨comments, hSkip, _⟩
        have hMiddle : middle = [] :=
          (gap_of_nextWord hWord).eq_nil_of_ungapped
            (ungapped_of_skipGap hSkip)
        subst hMiddle
        exact absurd (noteComments_end_iff.mp ⟨_, hNote⟩) hGap

theorem isSome_version_of_readSyntax
    (hRead :
      (readSyntax schema).run text =
        ⟨.ok declared, rest, records⟩) :
    declared.version.isSome = true := by
  rcases bind_eq_ok_iff.mp hRead with ⟨_, _, _, _, _, hRun, _⟩
  rcases bind_eq_ok_iff.mp hRun with ⟨_, _, _, _, _, hRun, _⟩
  rcases bind_eq_ok_iff.mp hRun with ⟨_, _, _, _, _, hRun, _⟩
  rcases bind_eq_ok_iff.mp hRun with
    ⟨found, _, _, _, hStep, hRun, _⟩
  rcases bind_eq_ok_iff.mp hRun with ⟨_, _, _, _, _, hRun, _⟩
  simp only [Parser.ofExcept, Outcome.mk.injEq] at hStep
  simp only [pure_eq, Outcome.mk.injEq,
    Except.ok.injEq] at hRun
  rcases SchemaFile.setVersion_eq_ok_iff.mp hStep.1 with
    ⟨_, _, rfl⟩
  rw [← hRun.1]
  rfl

theorem isSome_version_of_readDeclaration
    (hVersion : schema.version.isSome = true)
    {keyword : String}
    (hRead :
      (readDeclaration schema keyword).run text =
        ⟨.ok declared, rest, records⟩) :
    declared.version.isSome = true := by
  unfold readDeclaration at hRead
  split at hRead
  · exact isSome_version_of_readSyntax hRead
  split at hRead
  · rcases bind_eq_ok_iff.mp hRead with
      ⟨message, _, _, _, _, hPush, _⟩
    simp only [Parser.ofExcept, Outcome.mk.injEq] at hPush
    rcases SchemaFile.pushMessage_eq_ok_iff.mp hPush.1 with
      ⟨_, rfl⟩
    exact hVersion
  split at hRead
  · simp [fail] at hRead
  split at hRead
  · simp only [pure_eq, Outcome.mk.injEq,
      Except.ok.injEq] at hRead
    rwa [← hRead.1]
  · simp [fail] at hRead

/- The syntax is declared behind every declaration. -/
theorem isSome_version_of_readItem
    (hVersion :
      phase = .awaitingSyntax ∨ schema.version.isSome = true)
    (hRead :
      (readItem phase schema).run text =
        ⟨.ok declared, rest, records⟩) :
    declared.version.isSome = true := by
  rcases bind_eq_ok_iff.mp hRead with ⟨_, _, _, _, _, hItem, _⟩
  rcases bind_eq_ok_iff.mp hItem with
    ⟨keyword, middle, _, _, _, hKeyword, _⟩
  unfold readKeyword readOpening at hKeyword
  split at hKeyword
  · split at hKeyword
    · exact isSome_version_of_readSyntax hKeyword
    · simp [fail] at hKeyword
  next hPhase =>
    exact isSome_version_of_readDeclaration
      (hVersion.resolve_left hPhase) hKeyword

end OneDeclaration

------------------------------------------------------------
-- Runs
------------------------------------------------------------

section Runs

variable {phase : Phase}
variable {schema declared : SchemaFile}
variable {text rest : List Char}
variable {records : List Record}
variable {error : ParseError}

/- A session is done when only a gap is left. -/
theorem run_of_gap
    (hRun :
      (noteComments .topLevel).run text =
        ⟨.ok (), [], records⟩) :
    (Session.mk .ready schema text).run =
      ⟨.ok schema, records⟩ := by
  have hNext : (readNext .ready schema).run text =
      ⟨.ok none, [], records⟩ :=
    readNext_of_gap (by decide) hRun
  have hStep : (Session.mk .ready schema text).step =
      ⟨.ok .done, ⟨.done, schema, []⟩, records⟩ := by
    simp only [step, hNext]
  rw [run_eq, hStep]

/- What a session that is open does with a declaration. -/
theorem step_of_item
    (hOpen : phase = .awaitingSyntax ∨ phase = .ready)
    (hItem : phase = .awaitingSyntax ∨ ¬ Gap true text) :
    (Session.mk phase schema text).step =
      match (readItem phase schema).run text with
      | ⟨.error error, rest, records⟩ =>
          ⟨.error error, ⟨.failed, schema, rest⟩,
            records ++
              [Diagnostics.topLevel.error error.message]⟩
      | ⟨.ok declared, rest, records⟩ =>
          ⟨.ok .ready, ⟨.ready, declared, rest⟩, records⟩ := by
  have hNext : (readNext phase schema).run text =
      ((readItem phase schema).run text).map some :=
    readNext_of_item hItem
  rcases hRead : (readItem phase schema).run text with
    ⟨error | declared, rest, records⟩ <;>
    rcases hOpen with rfl | rfl <;>
    simp only [step, hNext, hRead, Outcome.map, Except.map]

/- A session fails with a declaration. -/
theorem run_of_error
    (hOpen : phase = .awaitingSyntax ∨ phase = .ready)
    (hItem : phase = .awaitingSyntax ∨ ¬ Gap true text)
    (hRead :
      (readItem phase schema).run text =
        ⟨.error error, rest, records⟩) :
    (Session.mk phase schema text).run =
      ⟨.error error,
        records ++
          [Diagnostics.topLevel.error error.message]⟩ := by
  rw [run_eq, step_of_item hOpen hItem, hRead]

/- In a gap alone, the next item is missing. -/
theorem readItem_of_gap
    (phase : Phase)
    (schema : SchemaFile)
    (hGap : Gap true text) :
    ∃ records,
      (readItem phase schema).run text =
        ⟨.error (.unexpectedEnd "syntax declaration"), [],
          records⟩ := by
  rcases noteComments_end_iff.mpr hGap with ⟨before, hNote⟩
  have hWord : (readWord "syntax declaration").run [] =
      ⟨.error (.unexpectedEnd "syntax declaration"),
        [], []⟩ := rfl
  rw [readItem, bind_of_ok hNote, bind_of_error hWord]
  exact ⟨_, rfl⟩

/- A gap alone is no declaration. -/
theorem not_gap_of_item
    (hRead :
      (readItem phase schema).run text =
        ⟨.ok declared, rest, records⟩) :
    ¬ Gap true text := by
  intro hGap
  rcases readItem_of_gap phase schema hGap with
    ⟨before, hEnd⟩
  rw [hEnd] at hRead
  simp at hRead

/- A session goes on behind a declaration. -/
theorem run_of_item
    (hOpen : phase = .awaitingSyntax ∨ phase = .ready)
    (hRead :
      (readItem phase schema).run text =
        ⟨.ok declared, rest, records⟩) :
    (Session.mk phase schema text).run =
      (Session.mk .ready declared rest).run.after records := by
  rw [run_eq,
    step_of_item hOpen (.inr (not_gap_of_item hRead)), hRead]

theorem readItem_lt
    (hRead :
      (readItem phase schema).run text =
        ⟨.ok declared, rest, records⟩) :
    rest.length < text.length := by
  have hNext : (readNext phase schema).run text =
      ((readItem phase schema).run text).map some :=
    readNext_of_item (.inr (not_gap_of_item hRead))
  rw [hRead] at hNext
  exact readNext_lt hNext

/-
  Induction over the declarations that a session reads once
  the syntax is declared, from the last one to the first.
-/
theorem run_induct
    {motive : SchemaFile → List Char → Reading → Prop}
    (finished :
      ∀ {schema text records},
        (noteComments .topLevel).run text =
            ⟨.ok (), [], records⟩ →
          motive schema text ⟨.ok schema, records⟩)
    (failed :
      ∀ {schema text rest error records},
        ¬ Gap true text →
          (readItem .ready schema).run text =
              ⟨.error error, rest, records⟩ →
            motive schema text
              ⟨.error error,
                records ++
                  [Diagnostics.topLevel.error
                    error.message]⟩)
    (item :
      ∀ {schema declared text rest records},
        (readItem .ready schema).run text =
            ⟨.ok declared, rest, records⟩ →
          motive declared rest
              (Session.mk .ready declared rest).run →
            motive schema text
              ((Session.mk .ready declared rest).run.after
                records))
    (schema : SchemaFile)
    (text : List Char) :
    motive schema text (Session.mk .ready schema text).run := by
  induction hLength : text.length using Nat.strongRecOn
    generalizing schema text with
  | ind length ih =>
      subst hLength
      by_cases hGap : Gap true text
      · rcases noteComments_end_iff.mpr hGap with
          ⟨records, hNote⟩
        rw [run_of_gap hNote]
        exact finished hNote
      · rcases hRead : (readItem .ready schema).run text with
          ⟨error | declared, rest, records⟩
        · rw [run_of_error (.inr rfl) (.inr hGap) hRead]
          exact failed hGap hRead
        · rw [run_of_item (.inr rfl) hRead]
          exact item hRead
            (ih _ (readItem_lt hRead) declared rest rfl)

end Runs

end Session

end ProtoSchema
