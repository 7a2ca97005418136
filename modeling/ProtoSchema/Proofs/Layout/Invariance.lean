import ProtoSchema.Proofs.Grammar.Form
import ProtoSchema.Proofs.Layout.Alike
import ProtoSchema.Proofs.Reading.Compositional

/-
  Layout never matters: texts that spell the same lexemes
  are read with the same result, be it a schema or an error,
  and with the same records but for traces.

  Main theorems:
    * `Parser.compositional_layoutFree`
    * `Session.layoutFree_readItem`
    * `Session.run_agrees`
    * `Alike.readText_agrees`
    * `readText_eq_of_spells`
-/

namespace ProtoSchema

open Grammar

namespace Parser

/- The pieces of every parser are free of layout. -/
theorem compositional_layoutFree :
    Compositional (fun _ parser => LayoutFree parser) where
  pure := layoutFree_pure
  fail := layoutFree_fail
  write := layoutFree_write
  ofExcept := layoutFree_ofExcept
  bind := LayoutFree.bind
  expect := layoutFree_expect
  readQuoted := layoutFree_readQuoted
  readWord := LayoutFree.readWord_bind
  noteComments := fun hNext hQuote place reading =>
    (LayoutFree.readWord_bind hNext hQuote
      reading).here.noteComments place
  readTurn := fun hEntry _ _ place =>
    (hEntry.turnHere _).noteComments place
  untilClosed := LayoutFree.untilClosed

end Parser

------------------------------------------------------------
-- Whole Texts
------------------------------------------------------------

/- The results are the same, and so are the reported records. -/
structure Reading.Agrees (left right : Reading) : Prop where
  result : left.result = right.result
  reports : reported left.records = reported right.records

theorem Reading.Agrees.after
    {left right : Reading}
    (h : left.Agrees right)
    {before before' : List Record}
    (hBefore : reported before = reported before') :
    (left.after before).Agrees (right.after before') where
  result := h.result
  reports := by
    show reported (before ++ left.records) =
      reported (before' ++ right.records)
    rw [reported_append, reported_append, hBefore, h.reports]

namespace Session

open ProtoSchema.Parser

theorem layoutFree_readItem
    (phase : Phase)
    (schema : SchemaFile) :
    LayoutFree (readItem phase schema) :=
  compositional_layoutFree.readItem phase schema

/- Sessions over alike texts agree to the end. -/
theorem run_agrees
    {schema : SchemaFile}
    {left right : List Char}
    (hAlike : Alike left right) :
    (Session.mk .ready schema left).run.Agrees
      (Session.mk .ready schema right).run := by
  revert right
  refine run_induct
    (motive := fun schema left reading =>
      ∀ {right},
        Alike left right →
          reading.Agrees
            (Session.mk .ready schema right).run)
    ?_ ?_ ?_ schema left
  · intro schema left records hNote right hAlike
    have hGap : Gap true right :=
      hAlike.gap_iff.mp (noteComments_end_iff.mp ⟨_, hNote⟩)
    rcases noteComments_end_iff.mpr hGap with
      ⟨records', hNote'⟩
    rw [run_of_gap hNote']
    refine ⟨rfl, ?_⟩
    rw [reported_of_noteComments hNote,
      reported_of_noteComments hNote']
  · intro schema left rest error records hItem hRead right
      hAlike
    have hItem' : ¬ Gap true right :=
      fun hGap => hItem (hAlike.gap_iff.mpr hGap)
    have hAgrees :=
      layoutFree_readItem .ready schema _ _ hAlike
    rw [hRead] at hAgrees
    rcases hAgrees.of_error with
      ⟨rest', records', hRead', hReports⟩
    rw [run_of_error (.inr rfl) (.inr hItem') hRead']
    refine ⟨rfl, ?_⟩
    rw [reported_append, reported_append, hReports]
  · intro schema declared left rest records hRead ih right
      hAlike
    have hAgrees :=
      layoutFree_readItem .ready schema _ _ hAlike
    rw [hRead] at hAgrees
    rcases hAgrees.of_ok with
      ⟨rest', records', hRead', hReports, hRest⟩
    rw [run_of_item (.inr rfl) hRead']
    exact (ih hRest).after hReports

end Session

/- Texts that are alike are read alike. -/
theorem Alike.readText_agrees
    {left right : String}
    (hAlike : Alike left.toList right.toList) :
    (readText left).Agrees (readText right) := by
  have hAgrees :=
    Session.layoutFree_readItem .awaitingSyntax .empty
      _ _ hAlike
  unfold readText Session.start
  rcases hLeft :
      (Session.readItem .awaitingSyntax .empty).run
        left.toList with
    ⟨error | declared, rest, records⟩
  · rw [hLeft] at hAgrees
    rcases hAgrees.of_error with
      ⟨rest', records', hRight, hReports⟩
    rw [Session.run_of_error (.inl rfl) (.inl rfl) hLeft,
      Session.run_of_error (.inl rfl) (.inl rfl) hRight]
    refine ⟨rfl, ?_⟩
    rw [reported_append, reported_append, hReports]
  · rw [hLeft] at hAgrees
    rcases hAgrees.of_ok with
      ⟨rest', records', hRight, hReports, hRest⟩
    rw [Session.run_of_item (.inl rfl) hLeft,
      Session.run_of_item (.inl rfl) hRight]
    exact (Session.run_agrees hRest).after hReports

/-
  Two texts that spell the same lexemes, well-formed or not,
  are read with the same result and the same records, traces
  left aside.
-/
theorem readText_eq_of_spells
    {lexemes : List Lexeme}
    {left right : String}
    (hLeft : Spells lexemes left.toList)
    (hRight : Spells lexemes right.toList) :
    (readText left).result = (readText right).result ∧
      (readText left).records.filter (·.level ≠ .trace) =
        (readText right).records.filter
          (·.level ≠ .trace) := by
  have hAlike : Alike left.toList right.toList :=
    ⟨lexemes, hLeft, hRight⟩
  have hAgrees := hAlike.readText_agrees
  exact ⟨hAgrees.result, hAgrees.reports⟩

/- One declaration, set in two ways. -/
theorem readText_eq_of_spells_syntax :
    Spells syntaxDeclaration
        "syntax = \"proto3\";".toList ∧
      Spells syntaxDeclaration
        "syntax=\"proto3\"; // end".toList ∧
      (readText "syntax = \"proto3\";").result =
        (readText "syntax=\"proto3\"; // end").result ∧
      (readText "syntax = \"proto3\";").records.filter
          (·.level ≠ .trace) =
        (readText
          "syntax=\"proto3\"; // end").records.filter
          (·.level ≠ .trace) := by
  have hEmpty : Spells [] [] := .finish .empty
  have hLeft : Spells syntaxDeclaration
      "syntax = \"proto3\";".toList := by
    simpa using spells_syntaxDeclaration hEmpty
  have hComment : Spells [] " // end".toList :=
    .finish (.blank (by decide)
      (.unfinished rfl (by decide)))
  have hRight : Spells syntaxDeclaration
      ("syntax".toList ++ '=' :: '"' ::
        ("proto3".toList ++ '"' :: ';' ::
          " // end".toList)) :=
    (((hComment.mark_cons .semicolon).quoted_append
      proto3).mark_cons .equals).word_append (by decide)
        (.ofIdentifier "syntax" (by decide))
  exact ⟨hLeft, hRight, readText_eq_of_spells hLeft hRight⟩

end ProtoSchema
