import ProtoSchema.Proofs.Reading.Stepping
import ProtoSchema.Proofs.Reading.Viable

/-
  Schemas that are merely incomplete. If reading runs out of
  text outside a syntax declaration, then the text can be
  continued to a schema: the items before the last one are
  read again, and the last one is completed.

  Key definitions include:
    * `Session.last`
    * `Session.keyword?`

  Main theorems:
    * `Session.exists_takeSteps_last`
    * `Session.run_last_line`
    * `Session.completes_readItem`
    * `exists_readText_append`
-/

namespace ProtoSchema

namespace Session

open ProtoSchema.Parser

------------------------------------------------------------
-- The Last Session of a Run
------------------------------------------------------------

/-
  The session whose step ends the run of this one. Every
  step before it has read an item.
-/
def last (session : Session) : Session :=
  match _hStep : session.step with
  | ⟨.ok .ready, next, _⟩ => next.last
  | _ => session
termination_by session.rest.length
decreasing_by exact step_lt _hStep (by decide) (by decide)

/- The word with which the next step begins, if any. -/
def keyword? (session : Session) : Option String :=
  match
    (noteComments .topLevel >>= fun _ => nextWord).run
      session.rest
  with
  | ⟨.ok word, _, _⟩ => word
  | ⟨.error _, _, _⟩ => none

/- The same session with further lines behind its text. -/
def continued
    (session : Session)
    (more : List Char) : Session :=
  ⟨session.phase, session.schema,
    session.rest ++ '\n' :: more⟩

/- The keyword is the word that has to stand behind a gap. -/
theorem keyword?_of_readWord
    {session : Session}
    {rest behind : List Char}
    {before records : List Record}
    {reading word : String}
    (hNote :
      (noteComments .topLevel).run session.rest =
        ⟨.ok (), rest, before⟩)
    (hWord :
      (readWord reading).run rest =
        ⟨.ok word, behind, records⟩) :
    session.keyword? = some word := by
  rw [readWord_eq] at hWord
  rcases bind_eq_ok_iff.mp hWord with
    ⟨found, middle, _, _, hNext, hFound, _⟩
  cases found with
  | none => simp [fail] at hFound
  | some found =>
      simp only [pure_eq, Outcome.mk.injEq,
        Except.ok.injEq] at hFound
      rw [keyword?, bind_of_ok hNote, hNext, hFound.1]
      rfl

/- A step that leaves a session ready has read an item. -/
theorem item_of_step
    {session next : Session}
    {records : List Record}
    (hStep : session.step = ⟨.ok .ready, next, records⟩) :
    ∃ declared rest,
      ¬ session.phase.Ended ∧
        next = ⟨.ready, declared, rest⟩ ∧
        (readItem session.phase session.schema).run
            session.rest =
          ⟨.ok declared, rest, records⟩ := by
  have hSteps := session.steps_step
  generalize session.step = step at hSteps hStep
  cases hSteps with
  | ended hEnded =>
      simp only [Step.mk.injEq, Except.ok.injEq] at hStep
      rw [hStep.1] at hEnded
      simp [Phase.Ended] at hEnded
  | failed _ _ => simp at hStep
  | finished _ _ => simp at hStep
  | item hOpen hRead =>
      simp only [Step.mk.injEq, true_and] at hStep
      rcases hStep with ⟨hNext, hRecords⟩
      rw [hRecords] at hRead
      exact ⟨_, _, hOpen, hNext.symm, hRead⟩

/- The first step and the steps behind it. -/
theorem session_takeSteps_succ
    (session : Session)
    (count : Nat) :
    (session.takeSteps (count + 1)).session =
      (session.step.session.takeSteps count).session := by
  induction count with
  | zero => rfl
  | succ count ih =>
      rw [takeSteps, ih]
      rfl

/- The last session is reached by steps. -/
theorem exists_takeSteps_last (session : Session) :
    ∃ count,
      session.last = (session.takeSteps count).session := by
  fun_induction last session with
  | case1 session next records hStep ih =>
      rcases ih with ⟨count, hLast⟩
      refine ⟨count + 1, ?_⟩
      rw [session_takeSteps_succ, hStep]
      exact hLast
  | case2 session _ => exact ⟨0, rfl⟩

/- No item is left for its step to read. -/
theorem step_last_ne (session : Session) :
    session.last.step.result ≠ .ok .ready := by
  fun_induction last session with
  | case1 session next records hStep ih => exact ih
  | case2 session hNot =>
      intro hReady
      rcases hStep : session.step with
        ⟨result, next, records⟩
      rw [hStep] at hReady
      change result = .ok .ready at hReady
      subst hReady
      exact hNot next records hStep

/- The run gives what the last session gives. -/
theorem run_last (session : Session) :
    session.run.result = session.last.run.result := by
  fun_induction last session with
  | case1 session next records hStep ih =>
      rw [run_eq, hStep]
      exact ih
  | case2 session _ => rfl

/- So it does when further lines follow the text. -/
theorem run_last_line
    (session : Session)
    (more : List Char) :
    (session.continued more).run.result =
      (session.last.continued more).run.result := by
  fun_induction last session with
  | case1 session next records hStep ih =>
      rcases item_of_step hStep with
        ⟨declared, rest, hOpen, hNext, hRead⟩
      subst hNext
      -- a line that follows does not change what has been read
      have hLine :=
        (compositional_steady.readItem session.phase
          session.schema).settled.of_ok hRead more
      rw [continued,
        run_of_item (Phase.not_ended_iff.mp hOpen) hLine]
      exact ih
  | case2 session _ => rfl

/- A run that fails does so in an item of its last session. -/
theorem readItem_last
    {session : Session}
    {reading : String}
    (hEnd :
      session.run.result =
        .error (.unexpectedEnd reading)) :
    ¬ session.last.phase.Ended ∧
      ((readItem session.last.phase session.last.schema).run
        session.last.rest).Unfinished := by
  have hSteps := session.last.steps_step
  have hLast := session.step_last_ne
  rw [run_last, run_eq] at hEnd
  generalize session.last.step = step at hSteps hLast hEnd
  cases hSteps with
  | ended hEnded =>
      rcases hEnded with hPhase | hPhase
      · simp [hPhase] at hEnd
      · simp [hPhase] at hEnd
  | failed hOpen hRead =>
      refine ⟨hOpen, ?_⟩
      rw [hRead]
      exact ⟨reading, hEnd⟩
  | finished _ _ => simp at hEnd
  | item _ _ => exact absurd rfl hLast

------------------------------------------------------------
-- Completing an Item
------------------------------------------------------------

section Completing

variable {phase : Phase}
variable {schema : SchemaFile}

/-
  Whatever a keyword begins can be completed, but a syntax
  declaration, whose version is judged behind it only.
-/
theorem completable_readKeyword
    (hVersion :
      phase = .awaitingSyntax ∨ schema.version.isSome = true)
    {keyword : String}
    (hKeyword : keyword ≠ "syntax") :
    Completable (readKeyword phase schema keyword) := by
  unfold readKeyword
  split
  · rw [readOpening, if_neg hKeyword]
    exact completable_fail (by simp)
  next hPhase =>
    have hDeclared := hVersion.resolve_left hPhase
    rw [readDeclaration, if_neg hKeyword]
    split
    · have hPush : ∀ message,
          Viable (ofExcept (schema.pushMessage message)) := by
        intro message
        rw [SchemaFile.pushMessage_eq_ok_iff.mpr
          ⟨hDeclared, rfl⟩]
        exact viable_pure _
      exact ((viable_readMessage _).bind hPush).completable
    split
    · exact completable_fail (by simp)
    split
    · exact (viable_pure schema).completable
    · exact completable_fail (by simp)

/- Behind a gap, an item can be begun in every open phase. -/
theorem completes_readItem_of_gap
    {session : Session}
    (hSound : session.Sound)
    (hOpen : ¬ session.phase.Ended)
    (hGap : Gap true session.rest) :
    Completes (readItem session.phase session.schema)
      session.rest := by
  rcases session with ⟨phase, schema, text⟩
  have hNote := gapSteady_noteComments .topLevel
  rcases Phase.not_ended_iff.mp hOpen with hPhase | hPhase
  · change phase = .awaitingSyntax at hPhase
    subst hPhase
    rcases hSound.opening rfl with ⟨hVersion, hMessages⟩
    have hEmpty : schema = .empty := by
      cases schema
      simp_all [SchemaFile.empty]
    subst hEmpty
    have hFront : Ungapped "syntax=\"proto3\";".toList := by
      decide
    exact .of_gap hNote hGap hFront rfl
  · change phase = .ready at hPhase
    subst hPhase
    have hFront : Ungapped [';'] := by decide
    exact .of_gap hNote hGap hFront rfl

/- An item that has run out of text can be completed. -/
theorem completes_readItem
    {session : Session}
    (hSound : session.Sound)
    (hOpen : ¬ session.phase.Ended)
    (hKeyword : session.keyword? ≠ some "syntax")
    (hEnd :
      ((readItem session.phase session.schema).run
        session.rest).Unfinished) :
    Completes (readItem session.phase session.schema)
      session.rest := by
  have hGapSteady := gapSteady_noteComments .topLevel
  rcases bind_unfinished_iff.mp hEnd with
    hEnd | ⟨_, rest, records, hNote, hEnd⟩
  · exact absurd hEnd (not_unfinished_noteComments _ _)
  by_cases hRest : rest = []
  · subst hRest
    exact completes_readItem_of_gap hSound hOpen
      (hGapSteady.gap_of_nil hNote)
  apply Completes.behind_gap hGapSteady hNote hRest
  rcases bind_unfinished_iff.mp hEnd with
    hWord | ⟨word, behind, _, hWord, hEnd⟩
  · -- no word is missing where something stands behind a gap
    rcases hGapSteady.skips.mp ⟨_, _, hNote⟩ with
      ⟨comments, hSkip⟩
    have hNil := (gap_of_readWord hWord).eq_nil_of_ungapped
      (ungapped_of_skipGap hSkip)
    exact absurd hNil hRest
  · have hFound : session.keyword? = some word :=
      keyword?_of_readWord hNote hWord
    have hVersion :
        session.phase = .awaitingSyntax ∨
          session.schema.version.isSome = true := by
      rcases Phase.not_ended_iff.mp hOpen with
        hPhase | hPhase
      · exact .inl hPhase
      · right
        rw [hSound.declared (.inl hPhase)]
        rfl
    have hOther : word ≠ "syntax" := by
      intro hEq
      apply hKeyword
      rw [hFound, hEq]
    exact .bind_of_ok (settled_readWord _) hWord
      (completable_readKeyword hVersion hOther _ hEnd)

end Completing

end Session

------------------------------------------------------------
-- Incomplete Texts
------------------------------------------------------------

/-
  A text that has ended too early is merely incomplete, unless
  it ended in a syntax declaration: it is the front of a text
  that is read as a schema. So a text that cannot be mended is
  never said to have ended.
-/
theorem exists_readText_append
    {text reading : String}
    (hEnd :
      (readText text).result =
        .error (.unexpectedEnd reading))
    (hOutside :
      (Session.start text).last.keyword? ≠ some "syntax") :
    ∃ more schema,
      (readText (text ++ more)).result = .ok schema := by
  rcases Session.readItem_last hEnd with ⟨hOpen, hItem⟩
  have hSound : (Session.start text).last.Sound := by
    rcases (Session.start text).exists_takeSteps_last with
      ⟨count, hLast⟩
    rw [hLast]
    exact Session.sound_takeSteps text count
  rcases Session.completes_readItem hSound hOpen hOutside
      hItem with
    ⟨more, declared, records, hMore⟩
  refine ⟨String.ofList ('\n' :: more), declared, ?_⟩
  have hStart :
      Session.start (text ++ String.ofList ('\n' :: more)) =
        (Session.start text).continued more := by
    simp [Session.start, Session.continued]
  have hDone : (Parser.noteComments .topLevel).run [] =
      ⟨.ok (), [], []⟩ := rfl
  rw [readText, hStart, Session.run_last_line,
    Session.continued,
    Session.run_of_item (Phase.not_ended_iff.mp hOpen) hMore,
    Session.run_of_gap hDone]
  rfl

/- An enum that has ended with the name of a constant. -/
theorem exists_readText_append_enumValue :
    let text :=
      "syntax = \"proto3\";\nmessage A \x7b enum B \x7b C"
    (readText text).result =
        .error (.unexpectedEnd
          "'=' after enum value \"C\"") ∧
      (Session.start text).last.keyword? = some "message" ∧
        ∃ more schema,
          (readText (text ++ more)).result = .ok schema := by
  intro text
  have hEnd :
      (readText text).result =
        .error (.unexpectedEnd
          "'=' after enum value \"C\"") := by
    decide +kernel
  have hKeyword :
      (Session.start text).last.keyword? =
        some "message" := by
    decide +kernel
  have hOutside :
      (Session.start text).last.keyword? ≠ some "syntax" := by
    rw [hKeyword]
    decide
  exact ⟨hEnd, hKeyword,
    exists_readText_append hEnd hOutside⟩

end ProtoSchema
