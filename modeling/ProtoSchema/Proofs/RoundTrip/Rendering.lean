import ProtoSchema.Proofs.Grammar.Acceptance
import ProtoSchema.Proofs.RoundTrip.Decimal
import ProtoSchema.Proofs.RoundTrip.Expressible
import ProtoSchema.Schema.Render

/-
  The canonical text of an expressible schema spells a file
  that denotes the schema. Reading therefore undoes
  rendering on exactly the schemas that reading produces.

  Key definitions include:
    * `Writes`

  Main theorems:
    * `writes_join`
    * `writes_renderBlock`
    * `Member.writes_render`
    * `SchemaFile.exists_fileForm_render`
    * `SchemaFile.expressible_iff_readText`
-/

namespace ProtoSchema

open Grammar

------------------------------------------------------------
-- Writing
------------------------------------------------------------

/-
  Put in front of any spelling, the text spells lexemes of
  the given form.
-/
def Writes
    (text : String)
    (form : List Lexeme → Prop) : Prop :=
  ∀ (following : List Lexeme) (rest : List Char),
    Spells following rest →
      ∃ lexemes,
        form lexemes ∧
          Spells (lexemes ++ following)
            (text.toList ++ rest)

theorem Writes.imp
    {text : String}
    {form other : List Lexeme → Prop}
    (h : Writes text form)
    (hForm : ∀ lexemes, form lexemes → other lexemes) :
    Writes text other := by
  intro following rest hRest
  rcases h _ _ hRest with ⟨lexemes, hLexemes, hText⟩
  exact ⟨lexemes, hForm lexemes hLexemes, hText⟩

/- A line may be indented. -/
theorem Writes.indented
    {line : String}
    {form : List Lexeme → Prop}
    (h : Writes line form)
    (depth : Nat) : Writes (indented depth line) form := by
  intro following rest hRest
  rcases h _ _ (hRest.blank_cons (c := '\n') (by decide)) with
    ⟨lexemes, hLexemes, hText⟩
  refine ⟨lexemes, hLexemes, ?_⟩
  have hLine := hText.spaces_append (4 * depth)
  simpa [ProtoSchema.indented] using hLine

/- An empty line may stand in front. -/
theorem Writes.emptyLine
    {text : String}
    {form : List Lexeme → Prop}
    (h : Writes text form) : Writes ("\n" ++ text) form := by
  intro following rest hRest
  rcases h _ _ hRest with ⟨lexemes, hLexemes, hText⟩
  refine ⟨lexemes, hLexemes, ?_⟩
  simpa using hText.blank_cons (c := '\n') (by decide)

/- Entries are written one after the other. -/
theorem writes_join
    {α : Type}
    {form : List Lexeme → α → Prop}
    {render : α → String}
    {entries : List α}
    (hEntries : ∀ entry ∈ entries,
      Writes (render entry) (form · entry)) :
    Writes (String.join (entries.map render))
      (Entries form · entries) := by
  induction entries with
  | nil =>
      intro following rest hRest
      exact ⟨[], .nil, by simpa using hRest⟩
  | cons entry entries ih =>
      intro following rest hRest
      rcases
          ih (fun other hMem => hEntries other
            (List.mem_cons_of_mem entry hMem)) _ _ hRest with
        ⟨after, hAfter, hText⟩
      rcases hEntries entry List.mem_cons_self _ _ hText with
        ⟨first, hFirst, hAll⟩
      refine ⟨first ++ after, .entry hFirst hAfter, ?_⟩
      rw [List.map_cons, String.join_cons,
        String.toList_append, List.append_assoc,
        List.append_assoc]
      exact hAll

/- A block is written from its keyword to its last brace. -/
theorem writes_renderBlock
    {α : Type}
    {form : List Lexeme → α → Prop}
    {render : α → String}
    {entries : List α}
    {name : String}
    (word : String)
    (hWord : isIdentifier word.toList = true)
    (hName : isIdentifier name.toList = true)
    (hEntries : ∀ entry ∈ entries,
      Writes (render entry) (form · entry))
    (depth : Nat) :
    Writes
      (renderBlock depth word name (entries.map render))
      (fun lexemes => ∃ block,
        lexemes = keyword word hWord :: block ∧
          Block form block name entries) := by
  intro following rest hRest
  have hClose := ((hRest.blank_cons (c := '\n')
    (by decide)).mark_cons .closeBrace).spaces_append
      (4 * depth)
  rcases writes_join hEntries _ _ hClose with
    ⟨body, hBody, hText⟩
  have hOpen := ((((hText.blank_cons (c := '\n')
    (by decide)).mark_cons .openBrace).spaced_append
      (.ofIdentifier name hName)).spaced_append
        (.ofIdentifier word hWord)).spaces_append (4 * depth)
  have hBlock : Block form
      (.word (.ofIdentifier name hName) ::
        .mark .openBrace :: (body ++ [.mark .closeBrace]))
      (BareWord.ofIdentifier name hName).text entries :=
    .intro hName hBody
  rw [BareWord.text_ofIdentifier] at hBlock
  refine ⟨_, ⟨_, rfl, hBlock⟩, ?_⟩
  simpa [renderBlock, indented, Mark.char, keyword,
    BareWord.ofIdentifier] using hOpen

------------------------------------------------------------
-- Declarations
------------------------------------------------------------

/- The end of every declaration of a number. -/
theorem writes_assignment
    {name : String}
    (hName : isIdentifier name.toList = true)
    (number : Int64) :
    Writes
      (name ++ " = " ++ Numeral.write number ++ ";")
      (Assignment · name number) := by
  intro following rest hRest
  have hDigits := (hRest.mark_cons .semicolon).word_append
    (by decide) (Numeral.bareWord number)
  have hText := ((hDigits.blank_cons (c := ' ')
    (by decide)).mark_cons .equals).spaced_append
      (.ofIdentifier name hName)
  have hValue :
      Numeral.read? (Numeral.bareWord number).chars =
        some number := by
    rw [← Numeral.toList_write]
    exact Numeral.read?_write number
  have hForm : Assignment
      [.word (.ofIdentifier name hName), .mark .equals,
        .word (Numeral.bareWord number), .mark .semicolon]
      (BareWord.ofIdentifier name hName).text number :=
    .intro hName hValue
  rw [BareWord.text_ofIdentifier] at hForm
  refine ⟨_, hForm, ?_⟩
  simpa [Mark.char, Numeral.toList_write,
    BareWord.ofIdentifier] using hText

/- A word in front of the rest of a line. -/
theorem Writes.word
    {line : String}
    {form : List Lexeme → Prop}
    (h : Writes line form)
    (word : BareWord) :
    Writes (word.text ++ " " ++ line)
      (fun lexemes => ∃ after,
        lexemes = .word word :: after ∧ form after) := by
  intro following rest hRest
  rcases h _ _ hRest with ⟨after, hAfter, hText⟩
  refine ⟨_, ⟨after, rfl, hAfter⟩, ?_⟩
  simpa using hText.spaced_append word

theorem EnumValue.writes_render
    {value : EnumValue}
    (hValue : value.Expressible)
    (depth : Nat) :
    Writes (value.render depth) (EnumValueForm · value) :=
  ((writes_assignment hValue value.value).imp
    fun _ => .intro).indented depth

/- What a field holds, but for the keyword `repeated`. -/
theorem writes_typeAndName
    {type name : String}
    (hType : isTypeReference type.toList = true)
    (hName : isIdentifier name.toList = true)
    (number : Int64) :
    Writes
      (type ++ " " ++
        (name ++ " = " ++ Numeral.write number ++ ";"))
      (fun lexemes => ∃ after,
        lexemes = .word (.ofTypeReference type hType) ::
          after ∧ Assignment after name number) := by
  have hLine := (writes_assignment hName number).word
    (.ofTypeReference type hType)
  rwa [BareWord.text_ofTypeReference] at hLine

theorem Field.writes_render_alternative
    {field : Field}
    (hField : field.AlternativeExpressible)
    (depth : Nat) :
    Writes (field.render depth) (AlternativeForm · field) := by
  rcases field with ⟨name, type, number, repeated⟩
  rcases hField with ⟨hName, hType, rfl, hAllowed⟩
  have hForm : ∀ lexemes,
      (∃ after,
        lexemes = .word (.ofTypeReference type hType) ::
          after ∧ Assignment after name number) →
        AlternativeForm lexemes
          ⟨name, type, number, false⟩ := by
    intro lexemes hLexemes
    rcases hLexemes with ⟨after, rfl, hAfter⟩
    have hLine : AlternativeForm
        (.word (.ofTypeReference type hType) :: after)
        ⟨name, (BareWord.ofTypeReference type hType).text,
          number, false⟩ :=
      .intro hType (by simpa using hAllowed) hAfter
    rwa [BareWord.text_ofTypeReference] at hLine
  have hLine :=
    (writes_typeAndName hType hName number).imp hForm
  simpa [Field.render, String.append_assoc]
    using hLine.indented depth

theorem Field.writes_render_plain
    {type name : String}
    (hType : isTypeReference type.toList = true)
    (hName : isIdentifier name.toList = true)
    (hAllowed : type ∉ memberKeywords)
    (number : Int64)
    (depth : Nat) :
    Writes (Field.render depth ⟨name, type, number, false⟩)
      (MemberForm ·
        (.field ⟨name, type, number, false⟩)) := by
  have hForm : ∀ lexemes,
      (∃ after,
        lexemes = .word (.ofTypeReference type hType) ::
          after ∧ Assignment after name number) →
        MemberForm lexemes
          (.field ⟨name, type, number, false⟩) := by
    intro lexemes hLexemes
    rcases hLexemes with ⟨after, rfl, hAfter⟩
    have hPlain : MemberForm
        (.word (.ofTypeReference type hType) :: after)
        (.field ⟨name,
          (BareWord.ofTypeReference type hType).text,
          number, false⟩) :=
      .field hType (by simpa using hAllowed) hAfter
    rwa [BareWord.text_ofTypeReference] at hPlain
  have hLine :=
    (writes_typeAndName hType hName number).imp hForm
  simpa [Field.render, String.append_assoc]
    using hLine.indented depth

theorem Field.writes_render_repeated
    {type name : String}
    (hType : isTypeReference type.toList = true)
    (hName : isIdentifier name.toList = true)
    (number : Int64)
    (depth : Nat) :
    Writes (Field.render depth ⟨name, type, number, true⟩)
      (MemberForm ·
        (.field ⟨name, type, number, true⟩)) := by
  have hForm : ∀ lexemes,
      (∃ rest,
        lexemes = .word
            (.ofIdentifier "repeated" (by decide)) ::
              rest ∧
          ∃ after,
            rest =
                .word (.ofTypeReference type hType) ::
                  after ∧
              Assignment after name number) →
        MemberForm lexemes
          (.field ⟨name, type, number, true⟩) := by
    intro lexemes hLexemes
    rcases hLexemes with ⟨_, rfl, after, rfl, hAfter⟩
    have hRepeated : MemberForm
        (keyword "repeated" (by decide) ::
          .word (.ofTypeReference type hType) :: after)
        (.field ⟨name,
          (BareWord.ofTypeReference type hType).text,
          number, true⟩) :=
      .repeated hType hAfter
    rwa [BareWord.text_ofTypeReference] at hRepeated
  have hLine := ((writes_typeAndName hType hName
    number).word _).imp hForm
  simpa [Field.render, String.append_assoc]
    using hLine.indented depth

theorem Field.writes_render_member
    {field : Field}
    (hField : field.MemberExpressible)
    (depth : Nat) :
    Writes (field.render depth)
      (MemberForm · (.field field)) := by
  rcases field with ⟨name, type, number, repeated⟩
  rcases hField with ⟨hName, hType, hAllowed⟩
  cases repeated with
  | false =>
      exact Field.writes_render_plain hType hName
        (hAllowed rfl) number depth
  | true =>
      exact Field.writes_render_repeated hType hName
        number depth

theorem Enum.writes_render
    {enum : Enum}
    (hEnum : enum.Expressible)
    (depth : Nat) :
    Writes (enum.render depth)
      (MemberForm · (.enum enum)) := by
  refine (writes_renderBlock "enum" (by decide) hEnum.1
    (fun value hMem => EnumValue.writes_render
      (hEnum.2 value hMem) (depth + 1)) depth).imp ?_
  intro lexemes h
  rcases h with ⟨block, rfl, hBlock⟩
  exact .enum hBlock

theorem Oneof.writes_render
    {oneof : Oneof}
    (hOneof : oneof.Expressible)
    (depth : Nat) :
    Writes (oneof.render depth)
      (MemberForm · (.oneof oneof)) := by
  refine (writes_renderBlock "oneof" (by decide) hOneof.1
    (fun field hMem => Field.writes_render_alternative
      (hOneof.2 field hMem) (depth + 1)) depth).imp ?_
  intro lexemes h
  rcases h with ⟨block, rfl, hBlock⟩
  exact .oneof hBlock

theorem Member.writes_render
    {member : Member}
    (hMember : member.Expressible)
    (depth : Nat) :
    Writes (member.render depth) (MemberForm · member) := by
  cases member with
  | field declared =>
      exact Field.writes_render_member hMember depth
  | enum declared => exact Enum.writes_render hMember depth
  | oneof declared => exact Oneof.writes_render hMember depth

theorem Message.writes_render
    {message : Message}
    (hMessage : message.Expressible)
    (depth : Nat) :
    Writes (message.render depth)
      (MessageForm · message) := by
  refine (writes_renderBlock "message" (by decide) hMessage.1
    (fun member hMem => Member.writes_render
      (hMessage.2 member hMem) (depth + 1)) depth).imp ?_
  intro lexemes h
  rcases h with ⟨block, rfl, hBlock⟩
  exact .intro hBlock

------------------------------------------------------------
-- Whole Schemas
------------------------------------------------------------

/- An expressible schema is denoted by its canonical text. -/
theorem SchemaFile.exists_fileForm_render
    {schema : SchemaFile}
    (hSchema : schema.Expressible) :
    ∃ lexemes,
      FileForm lexemes schema ∧
        Spells lexemes schema.render.toList := by
  rcases schema with ⟨version, messages⟩
  rcases hSchema with ⟨rfl, hMessages⟩
  have hItems : Writes
      (String.join (messages.map fun message =>
        "\n" ++ message.render 0))
      (Entries MessageForm · messages) :=
    writes_join fun message hMem =>
      (Message.writes_render (hMessages message hMem)
        0).emptyLine
  rcases hItems _ _ (.finish .empty) with
    ⟨items, hEntries, hText⟩
  rw [List.append_nil, List.append_nil] at hText
  have hFile := spells_syntaxDeclaration
    (hText.blank_cons (c := '\n') (by decide))
  refine ⟨_, .intro hEntries, ?_⟩
  simpa [SchemaFile.render, SyntaxVersion.name] using hFile

/-
  The expressible schemas are those that reading produces,
  and those whose canonical text is read as themselves.
-/
theorem SchemaFile.expressible_iff_readText
    (schema : SchemaFile) :
    (schema.Expressible ↔
        ∃ text, (readText text).result = .ok schema) ∧
      (schema.Expressible ↔
        (readText schema.render).result = .ok schema) := by
  have hRendered :
      schema.Expressible →
        (readText schema.render).result = .ok schema := by
    intro hSchema
    rcases schema.exists_fileForm_render hSchema with
      ⟨lexemes, hForm, hText⟩
    exact readText_of_fileForm hForm hText
  have hProduced :
      (∃ text, (readText text).result = .ok schema) →
        schema.Expressible := by
    intro hText
    rcases hText with ⟨text, hRead⟩
    rcases exists_fileForm_of_readText hRead with
      ⟨lexemes, hForm, _⟩
    exact hForm.expressible
  constructor
  · constructor
    · intro hSchema
      exact ⟨schema.render, hRendered hSchema⟩
    · exact hProduced
  · constructor
    · exact hRendered
    · intro hRead
      exact hProduced ⟨schema.render, hRead⟩

end ProtoSchema
