import ProtoSchema.Proofs.Grammar.Acceptance
import ProtoSchema.Proofs.Reading.Resumption

/-
  Truncated texts. Whatever is cut off the end of a schema,
  what remains is a schema of its first messages, or no
  schema; and if the cut is clean, then the only error is
  that the text has ended.

  Main theorems:
    * `FileForm.exists_mark`
    * `Session.messages_of_run`
    * `readText_truncated`
-/

namespace ProtoSchema

open Grammar

------------------------------------------------------------
-- The End of a Schema
------------------------------------------------------------

namespace Grammar

/- Messages and semicolons end with a mark, if there are any. -/
theorem Entries.exists_mark
    {lexemes : List Lexeme}
    {messages : List Message}
    (h : Entries MessageForm lexemes messages) :
    lexemes = [] ∨
      ∃ before sign, lexemes = before ++ [.mark sign] := by
  induction h with
  | nil => exact .inl rfl
  | stray _ ih =>
      right
      rcases ih with hNil | ⟨before, sign, hLexemes⟩
      · subst hNil
        exact ⟨[], .semicolon, rfl⟩
      · subst hLexemes
        exact ⟨.mark .semicolon :: before, sign, rfl⟩
  | @entry first rest message messages hFirst _ ih =>
      right
      rcases ih with hNil | ⟨before, sign, hLexemes⟩
      · subst hNil
        cases hFirst with
        | intro hBlock =>
            cases hBlock with
            | @intro name body _ _ _ =>
                exact
                  ⟨keyword "message" (by decide) ::
                    .word name :: .mark .openBrace :: body,
                    .closeBrace, by simp⟩
      · subst hLexemes
        exact ⟨first ++ before, sign,
          (List.append_assoc _ _ _).symm⟩

/- So does every file. -/
theorem FileForm.exists_mark
    {lexemes : List Lexeme}
    {schema : SchemaFile}
    (h : FileForm lexemes schema) :
    ∃ before sign, lexemes = before ++ [.mark sign] := by
  cases h with
  | intro hItems =>
      rcases hItems.exists_mark with
        hNil | ⟨before, sign, hLexemes⟩
      · subst hNil
        exact
          ⟨[keyword "syntax" (by decide), .mark .equals,
            .quoted proto3], .semicolon, rfl⟩
      · subst hLexemes
        exact ⟨syntaxDeclaration ++ before, sign,
          (List.append_assoc _ _ _).symm⟩

end Grammar

/- A schema may be cut off where it ends. -/
theorem cleanCut_of_readText
    {front : String}
    {schema : SchemaFile}
    (hRead : (readText front).result = .ok schema)
    (back : List Char) : CleanCut front.toList back := by
  rcases exists_fileForm_of_readText hRead with
    ⟨lexemes, hForm, hText⟩
  rcases hForm.exists_mark with ⟨before, sign, hLexemes⟩
  rw [hLexemes] at hText
  exact hText.cleanCut back

/- A run adds its messages behind those that were there. -/
theorem Session.messages_of_run
    {schema final : SchemaFile}
    {text : List Char}
    (hVersion : schema.version.isSome = true)
    (hRun :
      (Session.mk .ready schema text).run.result =
        .ok final) :
    schema.messages <+: final.messages := by
  rcases exists_entries_of_run hVersion hRun with
    ⟨_, messages, _, _, hFinal⟩
  subst hFinal
  exact List.prefix_append schema.messages messages

------------------------------------------------------------
-- Truncation
------------------------------------------------------------

/-
  Truncation is always noticed and never alters what is read.
  If the front of a schema is a schema, then its messages are
  the first of the whole. If moreover neither a bare word nor
  the slashes that open a comment stand across the cut, then
  the front is such a schema, or has ended too early.
-/
theorem readText_truncated
    {front back : String}
    {schema : SchemaFile}
    (hRead : (readText (front ++ back)).result = .ok schema) :
    (∀ found,
        (readText front).result = .ok found →
          found.version = some .proto3 ∧
            found.messages <+: schema.messages) ∧
      (¬ CutsWord front.toList back.toList →
        ¬ CutsSlashes front.toList back.toList →
          (∃ found, (readText front).result = .ok found) ∨
            ∃ reading,
              (readText front).result =
                .error (.unexpectedEnd reading)) := by
  have hWhole :
      (Session.mk .awaitingSyntax .empty
        (front.toList ++ back.toList)).run.result =
          .ok schema := by
    rw [← String.toList_append]
    exact hRead
  constructor
  · intro found hFound
    have hResumes :=
      Session.start_resumes
        (cleanCut_of_readText hFound back.toList)
    rw [hFound] at hResumes
    rcases hResumes with ⟨gap, _, hRest⟩
    have hVersion := version_of_readText hFound
    refine ⟨hVersion, ?_⟩
    apply Session.messages_of_run ?_
      (hRest.symm.trans hWhole)
    rw [hVersion]
    rfl
  · intro hWord hSlashes
    have hResumes := Session.start_resumes ⟨hWord, hSlashes⟩
    cases hFront : (readText front).result with
    | ok found => exact .inl ⟨found, rfl⟩
    | error error =>
        right
        rw [hFront] at hResumes
        rcases hResumes with ⟨reading, hEnd⟩ | hError
        · exact ⟨reading, by rw [hEnd]⟩
        · have hBoth := hError.symm.trans hWhole
          simp at hBoth

/- A schema of two messages, cut in the comment between. -/
theorem readText_truncated_comment :
    let front := "syntax = \"proto3\";message A\x7b\x7d// all"
    let back := " of A\nmessage B\x7bA a = 1;\x7d"
    ∃ schema,
      (readText (front ++ back)).result = .ok schema ∧
        [⟨"A", []⟩] <+: schema.messages ∧
        ((∃ found, (readText front).result = .ok found) ∨
          ∃ reading,
            (readText front).result =
              .error (.unexpectedEnd reading)) := by
  intro front back
  have hRead :
      (readText (front ++ back)).result =
        .ok ⟨some .proto3,
          [⟨"A", []⟩,
            ⟨"B", [.field ⟨"a", "A", 1, false⟩]⟩]⟩ := by
    decide +kernel
  have hFound :
      (readText front).result =
        .ok ⟨some .proto3, [⟨"A", []⟩]⟩ := by
    decide +kernel
  have hWord : ¬ CutsWord front.toList back.toList := by
    decide
  have hSlashes :
      ¬ CutsSlashes front.toList back.toList := by
    decide
  rcases readText_truncated hRead with ⟨hMessages, hKind⟩
  exact ⟨_, hRead, (hMessages _ hFound).2,
    hKind hWord hSlashes⟩

end ProtoSchema
