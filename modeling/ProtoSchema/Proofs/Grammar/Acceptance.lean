import ProtoSchema.Proofs.Grammar.Declaration
import ProtoSchema.Proofs.Reading.Run

/-
  Reading a schema accepts exactly the texts that spell a
  file of the grammar, and answers with what it denotes.

  Key definitions include:
    * `ItemForm`

  Main theorems:
    * `Session.recognizes_readItem_opening`
    * `Session.recognizes_readItem_ready`
    * `exists_fileForm_of_readText`
    * `readText_of_fileForm`
    * `readText_eq_ok_iff_fileForm`
-/

namespace ProtoSchema

open Grammar
open ProtoSchema.Parser

------------------------------------------------------------
-- Declarations
------------------------------------------------------------

namespace Parser

theorem recognizes_ofExcept
    {α : Type}
    (step : Except ParseError α) :
    Recognizes (ofExcept step)
      (fun lexemes value =>
        lexemes = [] ∧ step = .ok value) where
  sound := by
    intro text rest value records following hRun hRest
    simp only [ofExcept, Outcome.mk.injEq] at hRun
    rcases hRun with ⟨hStep, rfl, _⟩
    exact ⟨[], ⟨rfl, hStep⟩, hRest⟩
  complete := by
    intro text lexemes following value h hText
    rcases h with ⟨rfl, hStep⟩
    exact ⟨text, [], by simp [ofExcept, hStep], hText⟩

theorem recognizes_readSyntax (schema : SchemaFile) :
    Recognizes (readSyntax schema)
      (fun lexemes declared =>
        (schema.version = none ∧
          declared = ⟨some .proto3, schema.messages⟩) ∧
          lexemes =
            [.mark .equals, .quoted proto3,
              .mark .semicolon]) := by
  refine (((Recognizes.readQuoted _).bind fun version =>
    ((recognizes_ofExcept (schema.setVersion version)).bind
      fun declared =>
        (recognizes_pure declared).write_bind _).expect_bind
          .semicolon _).expect_bind .equals _).congr
    fun lexemes declared => ?_
  constructor
  · intro h
    rcases h with
      ⟨_, ⟨_, _, _, ⟨quotation, rfl, rfl⟩,
        ⟨_, ⟨found, _, _, ⟨rfl, hStep⟩, ⟨rfl, rfl⟩, rfl⟩,
          rfl⟩, rfl⟩, rfl⟩
    rcases SchemaFile.setVersion_eq_ok_iff.mp hStep with
      ⟨hVersion, hName, rfl⟩
    have hQuotation : quotation = proto3 :=
      Quotation.ext_text (hName.trans text_proto3.symm)
    subst hQuotation
    exact ⟨⟨hVersion, rfl⟩, rfl⟩
  · intro h
    rcases h with ⟨⟨hVersion, rfl⟩, rfl⟩
    have hStep : schema.setVersion proto3.text =
        .ok ⟨some .proto3, schema.messages⟩ :=
      SchemaFile.setVersion_eq_ok_iff.mpr
        ⟨hVersion, text_proto3, rfl⟩
    exact ⟨_, ⟨_, _, _, ⟨proto3, rfl, rfl⟩,
      ⟨_, ⟨_, _, _, ⟨rfl, hStep⟩, ⟨rfl, rfl⟩, rfl⟩,
        rfl⟩, rfl⟩, rfl⟩

end Parser

------------------------------------------------------------
-- Items
------------------------------------------------------------

/-
  What an item behind the syntax declaration makes of a
  schema: a stray semicolon leaves it, a message is put at
  its end.
-/
inductive ItemForm
    (schema : SchemaFile) :
    List Lexeme → SchemaFile → Prop where
  | stray : ItemForm schema [.mark .semicolon] schema
  | message
      {lexemes : List Lexeme}
      {message : Message}
      (hMessage : MessageForm lexemes message) :
      ItemForm schema lexemes
        ⟨schema.version, schema.messages ++ [message]⟩

namespace Session

theorem recognizes_noteComments (place : Diagnostics) :
    Recognizes (noteComments place)
      (fun lexemes _ => lexemes = []) := by
  have h := Recognizes.of_gap (skipsGap_noteComments place)
    fun _ => (recognizes_pure ()).here
  have hPure :
      (noteComments place >>= fun _ => pure ()) =
        noteComments place := bind_pure _
  rw [hPure] at h
  exact h.congr fun lexemes value => by simp

/- Before the syntax declaration nothing else is read. -/
theorem recognizes_readItem_opening :
    Recognizes (readItem .awaitingSyntax .empty)
      (fun lexemes declared =>
        declared = ⟨some .proto3, []⟩ ∧
          lexemes = syntaxDeclaration) := by
  have hRead : ∀ word : BareWord,
      Recognizes
        (readKeyword .awaitingSyntax .empty word.text)
        (fun lexemes declared =>
          word.text = "syntax" ∧
            declared = ⟨some .proto3, []⟩ ∧
              lexemes =
                [.mark .equals, .quoted proto3,
                  .mark .semicolon]) := by
    intro word
    rw [readKeyword, if_pos rfl, readOpening]
    by_cases hSyntax : word.text = "syntax"
    · rw [if_pos hSyntax]
      exact (recognizes_readSyntax .empty).congr
        fun lexemes declared => by
          simp [hSyntax, SchemaFile.empty]
    · rw [if_neg hSyntax]
      exact recognizes_fail _ fun _ _ h => hSyntax h.1
  have hRefused : ∀ c, isDelimiter c = true →
      ∃ error,
        readKeyword .awaitingSyntax .empty
          (String.singleton c) = fail error := by
    intro c hChar
    rw [readKeyword, if_pos rfl, readOpening]
    rcases isDelimiter_iff.mp hChar with
      rfl | rfl | rfl | rfl | rfl | rfl <;>
      exact ⟨_, if_neg (by decide)⟩
  refine ((recognizes_noteComments .topLevel).bind fun _ =>
    Recognizes.readWord_bind _ hRead hRefused).congr
    fun lexemes declared => ?_
  constructor
  · intro h
    rcases h with
      ⟨_, _, _, rfl, ⟨word, _, ⟨hText, rfl, rfl⟩, rfl⟩, rfl⟩
    rw [word_eq_keyword hText (by decide)]
    exact ⟨rfl, rfl⟩
  · intro h
    rcases h with ⟨rfl, rfl⟩
    exact ⟨(), [], _, rfl,
      ⟨.ofIdentifier "syntax" (by decide), _,
        ⟨BareWord.text_ofIdentifier _ _, rfl, rfl⟩, rfl⟩,
      rfl⟩

/- A bare word is no delimiter. -/
theorem text_ne_semicolon (word : BareWord) :
    word.text ≠ ";" := by
  intro hText
  have hChars := congrArg String.toList hText
  rw [BareWord.toList_text] at hChars
  have hChar := word.wordChars ';' (by rw [hChars]; decide)
  exact absurd hChar (by decide)

/- Of the words, only `message` begins an item. -/
theorem recognizes_readDeclaration
    {schema : SchemaFile}
    (hVersion : schema.version.isSome = true)
    (word : BareWord) :
    Recognizes (readDeclaration schema word.text)
      (fun lexemes declared =>
        word.text = "message" ∧
          ∃ message : Message,
            Block MemberForm lexemes message.name
                message.members ∧
              declared =
                ⟨schema.version,
                  schema.messages ++ [message]⟩) := by
  unfold readDeclaration
  by_cases hSyntax : word.text = "syntax"
  · rw [if_pos hSyntax]
    refine (recognizes_readSyntax schema).congr
      fun lexemes declared => ?_
    rw [hSyntax]
    constructor
    · intro h
      rcases h with ⟨⟨hNone, _⟩, _⟩
      simp [hNone] at hVersion
    · intro h
      rcases h with ⟨hMessage, _⟩
      exact absurd hMessage (by decide)
  rw [if_neg hSyntax]
  by_cases hMessage : word.text = "message"
  · rw [if_pos hMessage]
    refine ((recognizes_readMessage .topLevel).bind
      fun message => recognizes_ofExcept
        (schema.pushMessage message)).congr
      fun lexemes declared => ?_
    constructor
    · intro h
      rcases h with
        ⟨message, before, _, hBlock, ⟨rfl, hPush⟩, rfl⟩
      rcases SchemaFile.pushMessage_eq_ok_iff.mp hPush with
        ⟨_, rfl⟩
      exact ⟨hMessage, message,
        by rwa [List.append_nil], rfl⟩
    · intro h
      rcases h with ⟨_, message, hBlock, rfl⟩
      exact ⟨message, lexemes, [], hBlock,
        ⟨rfl, SchemaFile.pushMessage_eq_ok_iff.mpr
          ⟨hVersion, rfl⟩⟩, (List.append_nil _).symm⟩
  rw [if_neg hMessage]
  by_cases hRefused : isRefused word.text = true
  · rw [if_pos hRefused]
    exact recognizes_fail _ fun _ _ h => hMessage h.1
  · rw [if_neg hRefused, if_neg (text_ne_semicolon word)]
    exact recognizes_fail _ fun _ _ h => hMessage h.1

/- Of the marks, only a semicolon stands between items. -/
theorem recognizes_readDeclaration_mark
    (schema : SchemaFile)
    (sign : Mark) :
    Recognizes
      (readDeclaration schema (String.singleton sign.char))
      (fun lexemes declared =>
        sign = .semicolon ∧
          lexemes = [] ∧ declared = schema) := by
  cases sign with
  | semicolon =>
      exact (recognizes_pure schema).congr
        fun lexemes declared => by simp
  | openBrace => exact recognizes_fail _ (by simp)
  | closeBrace => exact recognizes_fail _ (by simp)
  | equals => exact recognizes_fail _ (by simp)

/- Behind the syntax declaration items are read. -/
theorem recognizes_readItem_ready
    {schema : SchemaFile}
    (hVersion : schema.version.isSome = true) :
    Recognizes (readItem .ready schema) (ItemForm schema) := by
  refine ((recognizes_noteComments .topLevel).bind fun _ =>
    Recognizes.readWord_bind_mark _
      (recognizes_readDeclaration hVersion)
      (recognizes_readDeclaration_mark schema)
      ⟨_, rfl⟩).congr fun lexemes declared => ?_
  constructor
  · intro h
    rcases h with
      ⟨_, _, _, rfl,
        ⟨word, after, ⟨hText, message, hBlock, rfl⟩, rfl⟩ |
        ⟨sign, after, ⟨rfl, rfl, rfl⟩, rfl⟩, rfl⟩
    · rw [word_eq_keyword hText (by decide)]
      exact .message (.intro hBlock)
    · exact .stray
  · intro h
    rcases h with _ | ⟨⟨hBlock⟩⟩
    · exact ⟨(), [], _, rfl,
        .inr ⟨.semicolon, [], ⟨rfl, rfl, rfl⟩, rfl⟩, rfl⟩
    · exact ⟨(), [], _, rfl,
        .inl ⟨.ofIdentifier "message" (by decide), _,
          ⟨BareWord.text_ofIdentifier _ _, _, hBlock, rfl⟩,
          rfl⟩, rfl⟩

------------------------------------------------------------
-- Runs
------------------------------------------------------------

/- A run that succeeds has read items to the end. -/
theorem exists_entries_of_run
    {schema result : SchemaFile}
    {text : List Char}
    (hVersion : schema.version.isSome = true)
    (hRun :
      (Session.mk .ready schema text).run.result =
        .ok result) :
    ∃ items messages,
      Entries MessageForm items messages ∧
        Spells items text ∧
          result =
            ⟨schema.version,
              schema.messages ++ messages⟩ := by
  revert hVersion result
  refine run_induct
    (motive := fun schema text reading =>
      ∀ {result : SchemaFile},
        schema.version.isSome = true →
          reading.result = .ok result →
            ∃ items messages,
              Entries MessageForm items messages ∧
                Spells items text ∧
                  result =
                    ⟨schema.version,
                      schema.messages ++ messages⟩)
    ?_ ?_ ?_ schema text
  · intro schema text records hNote result hVersion hRun
    simp only [Except.ok.injEq] at hRun
    subst hRun
    exact ⟨[], [], .nil,
      .finish (noteComments_end_iff.mp ⟨_, hNote⟩), by simp⟩
  · intro schema text rest error records _ _ result _ hRun
    simp at hRun
  · intro schema declared text rest records hRead ih result
      hVersion hRun
    rcases
        ih (isSome_version_of_readItem (.inr hVersion) hRead)
          hRun with
      ⟨items, messages, hItems, hRest, rfl⟩
    rcases
        (recognizes_readItem_ready hVersion).sound hRead hRest with
      ⟨first, hFirst, hText⟩
    cases hFirst with
    | stray =>
        exact ⟨_, messages, .stray hItems, hText, rfl⟩
    | @message first message hMessage =>
        refine ⟨_, message :: messages,
          .entry hMessage hItems, hText, ?_⟩
        rw [List.append_assoc]
        rfl

/- Items are read to the end. -/
theorem run_of_entries
    {items : List Lexeme}
    {messages : List Message}
    (hItems : Entries MessageForm items messages)
    {schema : SchemaFile}
    {text : List Char}
    (hVersion : schema.version.isSome = true)
    (hText : Spells items text) :
    (Session.mk .ready schema text).run.result =
      .ok ⟨schema.version, schema.messages ++ messages⟩ := by
  induction hItems generalizing schema text with
  | nil =>
      have hGap : Gap true text := by
        cases hText with
        | finish hGap => exact hGap
      rcases noteComments_end_iff.mpr hGap with ⟨records, hNote⟩
      rw [run_of_gap hNote, List.append_nil]
  | @stray items messages _ ih =>
      have hStray :
          Spells ([.mark .semicolon] ++ items) text := hText
      rcases
          (recognizes_readItem_ready hVersion).complete
            .stray hStray with
        ⟨rest, records, hRead, hRest⟩
      rw [run_of_item (.inr rfl) hRead]
      exact ih hVersion hRest
  | @entry first items message messages hFirst _ ih =>
      rcases
          (recognizes_readItem_ready hVersion).complete
            (.message hFirst) hText with
        ⟨rest, records, hRead, hRest⟩
      rw [run_of_item (.inr rfl) hRead]
      have hRun :
          (Session.mk .ready
            ⟨schema.version, schema.messages ++ [message]⟩
            rest).run.result =
            .ok ⟨schema.version,
              schema.messages ++ [message] ++ messages⟩ :=
        ih hVersion hRest
      rw [List.append_assoc] at hRun
      exact hRun

end Session

------------------------------------------------------------
-- Whole Texts
------------------------------------------------------------

/- A schema that is read is denoted by what its text spells. -/
theorem exists_fileForm_of_readText
    {text : String}
    {schema : SchemaFile}
    (hRead : (readText text).result = .ok schema) :
    ∃ lexemes,
      FileForm lexemes schema ∧
        Spells lexemes text.toList := by
  unfold readText Session.start at hRead
  rcases hOpen :
      (Session.readItem .awaitingSyntax .empty).run
        text.toList with
    ⟨error | declared, rest, records⟩
  · rw [Session.run_of_error (.inl rfl) (.inl rfl) hOpen]
      at hRead
    simp at hRead
  · have hVersion :=
      Session.isSome_version_of_readItem (.inl rfl) hOpen
    rw [Session.run_of_item (.inl rfl) hOpen] at hRead
    rcases Session.exists_entries_of_run hVersion hRead with
      ⟨items, messages, hItems, hRest, rfl⟩
    rcases
        Session.recognizes_readItem_opening.sound hOpen hRest with
      ⟨_, ⟨rfl, rfl⟩, hText⟩
    exact ⟨_, .intro hItems, hText⟩

/- A text that is read has declared its syntax. -/
theorem version_of_readText
    {text : String}
    {schema : SchemaFile}
    (hRead : (readText text).result = .ok schema) :
    schema.version = some .proto3 := by
  rcases exists_fileForm_of_readText hRead with
    ⟨lexemes, hForm, _⟩
  cases hForm with
  | intro _ => rfl

/- A text that spells a file is read as what it denotes. -/
theorem readText_of_fileForm
    {lexemes : List Lexeme}
    {schema : SchemaFile}
    (hForm : FileForm lexemes schema)
    {text : String}
    (hText : Spells lexemes text.toList) :
    (readText text).result = .ok schema := by
  cases hForm with
  | @intro items messages hItems =>
      rcases
          Session.recognizes_readItem_opening.complete
            ⟨rfl, rfl⟩ hText with
        ⟨rest, records, hOpen, hRest⟩
      unfold readText Session.start
      rw [Session.run_of_item (.inl rfl) hOpen]
      exact Session.run_of_entries hItems rfl hRest

/-
  Reading succeeds exactly on the texts that spell a file of
  the grammar, and gives the schema that the file denotes.
-/
theorem readText_eq_ok_iff_fileForm
    (text : String)
    (schema : SchemaFile) :
    (readText text).result = .ok schema ↔
      ∃ lexemes,
        FileForm lexemes schema ∧
          Spells lexemes text.toList := by
  constructor
  · exact exists_fileForm_of_readText
  · intro h
    rcases h with ⟨lexemes, hForm, hText⟩
    exact readText_of_fileForm hForm hText

end ProtoSchema
