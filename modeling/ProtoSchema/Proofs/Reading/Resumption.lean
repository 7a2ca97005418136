import ProtoSchema.Proofs.Reading.Steady

/-
  Sessions over the front of a text and over the whole of
  it. Where the text is cut cleanly, the session over the
  whole text goes through what the one over the front did.

  Key definitions include:
    * `Session.Resumes`

  Main theorems:
    * `Session.resumes_of_error`
    * `Session.resumes_of_item`
    * `Session.run_resumes`
    * `Session.start_resumes`
-/

namespace ProtoSchema

namespace Session

open ProtoSchema.Parser

/-
  How reading goes on behind the front of a text, by what
  the front gave: behind a schema, from the gap at the end
  of the front; behind an error, not at all, unless the
  front had only ended too early.
-/
def Resumes
    (session : Session)
    (back : List Char) :
    Except ParseError SchemaFile → Prop
  | .ok final =>
      ∃ gap,
        Gap true gap ∧
          (Session.mk session.phase session.schema
              (session.rest ++ back)).run.result =
            (Session.mk .ready final
              (gap ++ back)).run.result
  | .error error =>
      (∃ reading, error = .unexpectedEnd reading) ∨
        (Session.mk session.phase session.schema
            (session.rest ++ back)).run.result =
          .error error

section Items

variable {phase : Phase}
variable {schema declared : SchemaFile}
variable {front rest back : List Char}
variable {records : List Record}
variable {error : ParseError}

/- An item that fails is final, or the front ended in it. -/
theorem resumes_of_error
    (hOpen : phase = .awaitingSyntax ∨ phase = .ready)
    (hRead :
      (readItem phase schema).run front =
        ⟨.error error, rest, records⟩)
    (hCut : CleanCut front back) :
    (Session.mk phase schema front).Resumes back
      (.error error) := by
  have hResumed :=
    compositional_steady.readItem phase schema front back hCut
  rw [hRead] at hResumed
  rcases hResumed.of_error with hEnd | hWhole
  · exact .inl hEnd
  by_cases hGap : Gap true (front ++ back)
  · left
    rcases readItem_of_gap phase schema hGap with
      ⟨records', hEnd⟩
    rw [hEnd] at hWhole
    simp only [Outcome.mk.injEq, Except.error.injEq]
      at hWhole
    exact ⟨_, hWhole.1.symm⟩
  · right
    rw [run_of_error hOpen (.inr hGap) hWhole]

/-
  An item that is read is read again, and so on. The cut is
  still clean behind it.
-/
theorem resumes_of_item
    (hOpen : phase = .awaitingSyntax ∨ phase = .ready)
    (hRead :
      (readItem phase schema).run front =
        ⟨.ok declared, rest, records⟩)
    (hCut : CleanCut front back)
    {result : Except ParseError SchemaFile}
    (hRest :
      CleanCut rest back →
        (Session.mk .ready declared rest).Resumes back
          result) :
    (Session.mk phase schema front).Resumes back result := by
  have hResumed :=
    compositional_steady.readItem phase schema front back hCut
  rw [hRead] at hResumed
  rcases hResumed.of_ok with ⟨hWhole, hCutRest⟩
  have hRun :
      (Session.mk phase schema (front ++ back)).run.result =
        (Session.mk .ready declared
          (rest ++ back)).run.result := by
    rw [run_of_item hOpen hWhole]
    rfl
  cases result with
  | error error =>
      rcases hRest hCutRest with hEnd | hRest
      · exact .inl hEnd
      · exact .inr (hRun.trans hRest)
  | ok final =>
      rcases hRest hCutRest with ⟨gap, hGap, hRest⟩
      exact ⟨gap, hGap, hRun.trans hRest⟩

end Items

/- A run is resumed from where the front leaves it. -/
theorem run_resumes
    (schema : SchemaFile)
    {front back : List Char}
    (hCut : CleanCut front back) :
    (Session.mk .ready schema front).Resumes back
      (Session.mk .ready schema front).run.result := by
  revert hCut
  refine run_induct
    (motive := fun schema front reading =>
      CleanCut front back →
        (Session.mk .ready schema front).Resumes back
          reading.result)
    ?_ ?_ ?_ schema front
  · intro schema front records hNote _
    exact ⟨front, noteComments_end_iff.mp ⟨_, hNote⟩, rfl⟩
  · intro schema front rest error records _ hRead hCut
    exact resumes_of_error (.inr rfl) hRead hCut
  · intro schema declared front rest records hRead ih hCut
    exact resumes_of_item (.inr rfl) hRead hCut ih

/- The same of a session at the front of its text. -/
theorem start_resumes
    {front : String}
    {back : List Char}
    (hCut : CleanCut front.toList back) :
    (Session.start front).Resumes back
      (readText front).result := by
  unfold readText Session.start
  rcases hOpen :
      (readItem .awaitingSyntax .empty).run front.toList with
    ⟨error | declared, rest, records⟩
  · rw [run_of_error (.inl rfl) (.inl rfl) hOpen]
    exact resumes_of_error (.inl rfl) hOpen hCut
  · rw [run_of_item (.inl rfl) hOpen]
    exact resumes_of_item (.inl rfl) hOpen hCut
      (run_resumes declared)

end Session

end ProtoSchema
