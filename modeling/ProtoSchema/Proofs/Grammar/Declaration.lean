import ProtoSchema.Parser.Declaration
import ProtoSchema.Proofs.Grammar.Recognition
import ProtoSchema.Proofs.Reading.Turns

/-
  The parsers of declarations recognize the forms of the
  grammar: fields, constants, blocks, members, messages.

  Key definitions include:
    * `TurnForm`

  Main theorems:
    * `Recognizes.assignment`
    * `Recognizes.untilClosed`
    * `Recognizes.readBlock`
    * `recognizes_readMember`
    * `recognizes_readMessage`
-/

namespace ProtoSchema

namespace Parser

open Grammar

variable {α : Type}

------------------------------------------------------------
-- Assignments
------------------------------------------------------------

/-
  A name, an equals sign, an integer and a semicolon, and a
  record of what they declare. The contexts of the errors
  do not matter.
-/
theorem Recognizes.assignment
    (naming : String)
    (afterName afterNumber counting : String → String)
    (record : String → Int64 → Record)
    (declare : String → Int64 → α) :
    Recognizes
      (do
        let name ← readIdentifier naming
        Parser.expect '=' (afterName name)
        let number ← readInteger (counting name)
        Parser.expect ';' (afterNumber name)
        write (record name number)
        pure (declare name number))
      (fun lexemes value =>
        ∃ name number,
          Assignment lexemes name number ∧
            value = declare name number) := by
  refine (Recognizes.readWordOf_bind naming
    (fun _ => isIdentifier_delimiter) fun word =>
      (Recognizes.readInteger_bind (counting word.text)
        fun number =>
          ((recognizes_pure
            (declare word.text number)).write_bind
              (record word.text number)).expect_bind
                .semicolon (afterNumber word.text)).expect_bind
                  .equals (afterName word.text)).congr
    fun lexemes value => ?_
  constructor
  · intro h
    rcases h with
      ⟨word, _, ⟨hName, _, ⟨digits, _, ⟨number, hNumber, _,
        ⟨rfl, rfl⟩, rfl⟩, rfl⟩, rfl⟩, rfl⟩
    exact ⟨word.text, number, .intro hName hNumber, rfl⟩
  · intro h
    rcases h with ⟨name, number, hAssignment, rfl⟩
    cases hAssignment with
    | @intro word digits number hName hNumber =>
        exact ⟨word, _, ⟨hName, _, ⟨digits, _,
          ⟨number, hNumber, _, ⟨rfl, rfl⟩, rfl⟩, rfl⟩, rfl⟩,
          rfl⟩

theorem recognizes_readField
    (place : Diagnostics)
    (owner : String)
    (typeName : String)
    (repeated : Bool) :
    Recognizes (readField place owner typeName repeated)
      (FieldForm typeName repeated) :=
  Recognizes.assignment _ _ _ _
    (fun name number =>
      fieldRecord place ⟨name, typeName, number, repeated⟩)
    (Field.mk · typeName · repeated)

theorem recognizes_readEnumValue
    (place : Diagnostics)
    (owner : String) :
    Recognizes (readEnumValue place owner) EnumValueForm := by
  refine (Recognizes.assignment _ _ _ _
    (fun name number => enumValueRecord place ⟨name, number⟩)
    EnumValue.mk).congr fun lexemes value => ?_
  constructor
  · intro h
    rcases h with ⟨name, number, hAssignment, rfl⟩
    exact .intro hAssignment
  · intro h
    rcases h with ⟨hAssignment⟩
    exact ⟨_, _, hAssignment, rfl⟩

------------------------------------------------------------
-- Turns and Blocks
------------------------------------------------------------

/- What a turn of a block reads. -/
inductive TurnForm
    (form : List Lexeme → α → Prop) :
    List Lexeme → Turn α → Prop where
  | closed : TurnForm form [.mark .closeBrace] .closed
  | skipped : TurnForm form [.mark .semicolon] .skipped
  | entry
      {lexemes : List Lexeme}
      {value : α}
      (hEntry : form lexemes value) :
      TurnForm form lexemes (.entry value)

section Blocks

variable {entry : Parser α}
variable {form : List Lexeme → α → Prop}

/-
  The character at the front tells the kind of the turn,
  because every entry begins with a bare word.
-/
theorem RecognizesHere.turnHere
    (hEntry : Recognizes entry form)
    (hWord :
      ∀ lexemes value,
        form lexemes value → StartsWithWord lexemes)
    (reading : String) :
    RecognizesHere (turnHere reading entry)
      (TurnForm form) where
  sound := by
    intro text rest turn records following _ hRun hRest
    rcases turnHere_ok hRun with
      ⟨rfl, rfl⟩ | ⟨rfl, rfl⟩ | ⟨value, rfl, hRead⟩
    · exact ⟨_, .closed,
        .cons (.mark .closeBrace) hRest⟩
    · exact ⟨_, .skipped,
        .cons (.mark .semicolon) hRest⟩
    · rcases hEntry.sound hRead hRest with
        ⟨lexemes, hForm, hText⟩
      exact ⟨lexemes, .entry hForm, hText⟩
  complete := by
    intro text lexemes following turn hFront hForm hText
    cases hForm with
    | closed =>
        rcases hText.exists_rest hFront with ⟨rest, rfl, hRest⟩
        exact ⟨rest, [], rfl, hRest⟩
    | skipped =>
        rcases hText.exists_rest hFront with ⟨rest, rfl, hRest⟩
        exact ⟨rest, [], rfl, hRest⟩
    | @entry lexemes value hValue =>
        rcases hEntry.complete hValue hText with
          ⟨rest, records, hRead, hRest⟩
        rcases hWord _ _ hValue with ⟨word, tail, rfl⟩
        rcases hText.exists_rest hFront with ⟨after, hAfter, _⟩
        rcases word.exists_cons with
          ⟨c, chars, hChars, hChar, _⟩
        have hCons : text = c :: (chars ++ after) := by
          simp [hAfter, Lexeme.chars, hChars]
        have hBrace : c ≠ '\x7d' := by
          intro hEq
          subst hEq
          exact absurd hChar (by decide)
        have hSemicolon : c ≠ ';' := by
          intro hEq
          subst hEq
          exact absurd hChar (by decide)
        refine ⟨rest, records, ?_, hRest⟩
        rw [hCons, turnHere_of_entry hBrace hSemicolon,
          ← hCons, hRead]
        rfl

theorem Recognizes.readTurn
    (hEntry : Recognizes entry form)
    (hWord :
      ∀ lexemes value,
        form lexemes value → StartsWithWord lexemes)
    (kind : BlockKind)
    (name : String)
    (place : Diagnostics) :
    Recognizes (readTurn kind name place entry)
      (TurnForm form) :=
  .of_gap (skipsGap_noteComments place) fun _ =>
    .turnHere hEntry hWord _

section Loop

variable {turn : Parser (Turn α)}
variable {following : List Lexeme}

/- The entries that a loop reads stand before its end. -/
theorem Recognizes.exists_entries
    (h : Recognizes turn (TurnForm form))
    (hTurn : turn.Advances)
    (text : List Char) :
    ∀ {entries rest records},
      (Parser.untilClosed turn hTurn).run text =
          ⟨.ok entries, rest, records⟩ →
        Spells following rest →
          ∃ body,
            Entries form body entries ∧
              Spells
                (body ++ [.mark .closeBrace] ++ following)
                text := by
  refine untilClosed_induct hTurn
    (motive := fun text outcome =>
      ∀ {entries rest records},
        outcome = ⟨.ok entries, rest, records⟩ →
          Spells following rest →
            ∃ body,
              Entries form body entries ∧
                Spells
                  (body ++ [.mark .closeBrace] ++ following)
                  text)
    ?_ ?_ ?_ ?_ text
  · intro text rest error records hRead entries rest'
      records' hEq
    simp at hEq
  · intro text rest records hRead entries rest' records'
      hEq hRest
    simp only [Outcome.mk.injEq, Except.ok.injEq] at hEq
    rcases hEq with ⟨rfl, rfl, _⟩
    rcases h.sound hRead hRest with ⟨_, ⟨⟩, hText⟩
    exact ⟨[], .nil, hText⟩
  · intro text rest records hRead ih entries rest' records'
      hEq hRest
    rcases hLoop : (Parser.untilClosed turn hTurn).run rest
      with ⟨result, rest'', records''⟩
    rw [hLoop] at hEq ih
    simp only [Outcome.after, Outcome.mk.injEq] at hEq
    rcases hEq with ⟨rfl, rfl, _⟩
    rcases ih rfl hRest with ⟨body, hBody, hMiddle⟩
    rcases h.sound hRead hMiddle with ⟨_, ⟨⟩, hText⟩
    exact ⟨_, .stray hBody, hText⟩
  · intro text rest value records hRead ih entries rest'
      records' hEq hRest
    rcases hLoop : (Parser.untilClosed turn hTurn).run rest
      with ⟨error | values, rest'', records''⟩
    · simp [hLoop, Outcome.after, Outcome.map,
        Except.map] at hEq
    · rw [hLoop] at hEq ih
      simp only [Outcome.after, Outcome.map, Except.map,
        Outcome.mk.injEq, Except.ok.injEq] at hEq
      rcases hEq with ⟨rfl, rfl, _⟩
      rcases ih rfl hRest with ⟨body, hBody, hMiddle⟩
      rcases h.sound hRead hMiddle with
        ⟨lexemes, hForm, hText⟩
      cases hForm with
      | entry hValue =>
          refine ⟨_, .entry hValue hBody, ?_⟩
          simpa using hText

/- Entries before the end of a block are read by a loop. -/
theorem Recognizes.untilClosed_of_entries
    (h : Recognizes turn (TurnForm form))
    (hTurn : turn.Advances)
    {body : List Lexeme}
    {entries : List α}
    (hBody : Entries form body entries)
    {text : List Char}
    (hText :
      Spells (body ++ [.mark .closeBrace] ++ following)
        text) :
    ∃ rest records,
      (Parser.untilClosed turn hTurn).run text =
          ⟨.ok entries, rest, records⟩ ∧
        Spells following rest := by
  induction hBody generalizing text with
  | nil =>
      rcases h.complete .closed hText with
        ⟨rest, records, hRead, hRest⟩
      exact ⟨rest, records,
        untilClosed_of_closed hTurn hRead, hRest⟩
  | @stray body entries _ ih =>
      rcases h.complete .skipped hText with
        ⟨middle, _, hRead, hMiddle⟩
      rcases ih hMiddle with ⟨rest, records, hLoop, hRest⟩
      have hRun := untilClosed_of_skipped hTurn hRead
      rw [hLoop] at hRun
      exact ⟨rest, _, hRun, hRest⟩
  | @entry first body value entries hFirst _ ih =>
      have hEntry : Spells
          (first ++
            (body ++ [.mark .closeBrace] ++ following))
          text := by
        simpa using hText
      rcases h.complete (.entry hFirst) hEntry with
        ⟨middle, _, hRead, hMiddle⟩
      rcases ih hMiddle with ⟨rest, records, hLoop, hRest⟩
      have hRun := untilClosed_of_entry hTurn hRead
      rw [hLoop] at hRun
      exact ⟨rest, _, hRun, hRest⟩

/- The turns of a block read its entries and its end. -/
theorem Recognizes.untilClosed
    (h : Recognizes turn (TurnForm form))
    (hTurn : turn.Advances) :
    Recognizes (untilClosed turn hTurn)
      (fun lexemes entries =>
        ∃ body,
          Entries form body entries ∧
            lexemes = body ++ [.mark .closeBrace]) where
  sound := by
    intro text rest entries records following hRun hRest
    rcases h.exists_entries hTurn text hRun hRest with
      ⟨body, hBody, hText⟩
    exact ⟨_, ⟨body, hBody, rfl⟩, hText⟩
  complete := by
    intro text lexemes following entries hForm hText
    rcases hForm with ⟨body, hBody, rfl⟩
    exact h.untilClosed_of_entries hTurn hBody hText

end Loop

/- A block is read whole. -/
theorem Recognizes.readBlock
    {entry : String → Parser α}
    (hEntry : ∀ name, Recognizes (entry name) form)
    (hWord :
      ∀ lexemes value,
        form lexemes value → StartsWithWord lexemes)
    (kind : BlockKind)
    (place : Diagnostics)
    (hAdvances : ∀ name, (entry name).Advances) :
    Recognizes (readBlock kind place entry hAdvances)
      (fun lexemes block =>
        Block form lexemes block.1 block.2) := by
  refine (Recognizes.readWordOf_bind _
    (fun _ => isIdentifier_delimiter) fun word =>
      ((((Recognizes.readTurn (hEntry word.text) hWord kind
        word.text place.nested).untilClosed
          (readTurn_advances kind word.text place.nested
            (hAdvances word.text))).map
              (Prod.mk word.text)).write_bind
                _).expect_bind .openBrace _).congr
    fun lexemes block => ?_
  constructor
  · intro h
    rcases h with
      ⟨word, _, ⟨hName, _,
        ⟨entries, ⟨body, hBody, rfl⟩, rfl⟩, rfl⟩, rfl⟩
    exact .intro hName hBody
  · rcases block with ⟨name, entries⟩
    intro h
    rcases h with ⟨hName, hBody⟩
    exact ⟨_, _, ⟨hName, _, ⟨entries, ⟨_, hBody, rfl⟩, rfl⟩,
      rfl⟩, rfl⟩

end Blocks

theorem recognizes_readEnum (place : Diagnostics) :
    Recognizes (readEnum place)
      (fun lexemes enum =>
        Block EnumValueForm lexemes enum.name enum.values) := by
  refine ((Recognizes.readBlock
    (recognizes_readEnumValue place.nested)
    (fun _ _ => EnumValueForm.startsWithWord) .enum place
    (readEnumValue_advances place.nested)).map
      fun block => Enum.mk block.1 block.2).congr
    fun lexemes enum => ?_
  constructor
  · intro h
    rcases h with ⟨block, hBlock, rfl⟩
    exact hBlock
  · intro hBlock
    exact ⟨(enum.name, enum.values), hBlock, rfl⟩

------------------------------------------------------------
-- Fields by Their Types
------------------------------------------------------------

/- A word is a type before anything after it is read. -/
theorem Recognizes.requireType_bind
    {next : String → Parser α}
    {word : BareWord}
    {form : List Lexeme → α → Prop}
    (hNext : Recognizes (next word.text) form)
    (owner : String) :
    Recognizes (requireType owner word.text >>= next)
      (fun lexemes value =>
        isTypeReference word.chars = true ∧
          form lexemes value) := by
  rw [requireType, BareWord.toList_text]
  by_cases hType : isTypeReference word.chars = true
  · rw [if_pos hType, pure_bind]
    exact hNext.congr fun lexemes value =>
      (and_iff_right hType).symm
  · rw [if_neg hType, fail_bind]
    exact recognizes_fail _ fun _ _ h => hType h.1

/- No delimiter is a type. -/
theorem requireType_delimiter
    {c : Char}
    (hChar : isDelimiter c = true)
    (owner : String) :
    ∃ error,
      requireType owner (String.singleton c) =
        fail error := by
  rw [requireType, String.toList_singleton,
    isTypeReference_delimiter hChar]
  exact ⟨_, rfl⟩

theorem barredFromOneof_iff (word : String) :
    barredFromOneof word = true ↔ word ∈ oneofKeywords := by
  simp [barredFromOneof, oneofKeywords, or_assoc]

theorem recognizes_readAlternative
    (place : Diagnostics)
    (owner : String) :
    Recognizes (readAlternative place owner)
      AlternativeForm := by
  have hRead : ∀ word : BareWord,
      Recognizes
        (if barredFromOneof word.text then
          fail (.notInOneof owner word.text)
        else do
          let typeName ← requireType owner word.text
          readField place owner typeName false)
        (fun lexemes field =>
          word.text ∉ oneofKeywords ∧
            isTypeReference word.chars = true ∧
              FieldForm word.text false lexemes field) := by
    intro word
    by_cases hBarred : barredFromOneof word.text = true
    · rw [if_pos hBarred]
      exact recognizes_fail _ fun _ _ h =>
        h.1 ((barredFromOneof_iff _).mp hBarred)
    · rw [if_neg hBarred]
      exact ((recognizes_readField place owner word.text
        false).requireType_bind owner).congr
          fun lexemes field =>
            (and_iff_right fun hMem =>
              hBarred ((barredFromOneof_iff _).mpr hMem)).symm
  refine (Recognizes.readWord_bind _ hRead
    fun c hChar => ?_).congr fun lexemes field => ?_
  · by_cases hBarred :
        barredFromOneof (String.singleton c) = true
    · rw [if_pos hBarred]
      exact ⟨_, rfl⟩
    · rw [if_neg hBarred]
      rcases requireType_delimiter hChar owner with
        ⟨error, hFail⟩
      exact ⟨error, by rw [hFail, fail_bind]⟩
  · constructor
    · intro h
      rcases h with
        ⟨word, after,
          ⟨hAllowed, hType, name, number, hRest, rfl⟩, rfl⟩
      exact .intro hType hAllowed hRest
    · intro h
      rcases h with ⟨hType, hAllowed, hRest⟩
      exact ⟨_, _, ⟨hAllowed, hType, _, _, hRest, rfl⟩, rfl⟩

theorem recognizes_readOneof (place : Diagnostics) :
    Recognizes (readOneof place)
      (fun lexemes oneof =>
        Block AlternativeForm lexemes oneof.name
          oneof.fields) := by
  refine ((Recognizes.readBlock
    (recognizes_readAlternative place.nested)
    (fun _ _ => AlternativeForm.startsWithWord) .oneof place
    (readAlternative_advances place.nested)).map
      fun block => Oneof.mk block.1 block.2).congr
    fun lexemes oneof => ?_
  constructor
  · intro h
    rcases h with ⟨block, hBlock, rfl⟩
    exact hBlock
  · intro hBlock
    exact ⟨(oneof.name, oneof.fields), hBlock, rfl⟩

------------------------------------------------------------
-- Members and Messages
------------------------------------------------------------

/- The first word of a member decides what it is. -/
theorem recognizes_readMemberAfter
    (place : Diagnostics)
    (owner : String)
    (word : BareWord) :
    Recognizes (readMemberAfter place owner word.text)
      (fun lexemes member =>
        MemberForm (.word word :: lexemes) member) := by
  unfold readMemberAfter
  by_cases hEnum : word.text = "enum"
  · rw [if_pos hEnum]
    exact ((recognizes_readEnum place).map
      Member.enum).congr fun lexemes member =>
        (memberForm_enum_iff hEnum).symm
  rw [if_neg hEnum]
  by_cases hOneof : word.text = "oneof"
  · rw [if_pos hOneof]
    exact ((recognizes_readOneof place).map
      Member.oneof).congr fun lexemes member =>
        (memberForm_oneof_iff hOneof).symm
  rw [if_neg hOneof]
  by_cases hMessage : word.text = "message"
  · rw [if_pos hMessage]
    exact recognizes_fail _ fun lexemes member =>
      not_memberForm_message hMessage
  rw [if_neg hMessage]
  by_cases hRepeated : word.text = "repeated"
  · rw [if_pos hRepeated]
    exact (Recognizes.readWordOf_bind _
      (fun _ => isTypeReference_delimiter) fun type =>
        (recognizes_readField place owner type.text
          true).map Member.field).congr
      fun lexemes member =>
        (memberForm_repeated_iff hRepeated).symm
  rw [if_neg hRepeated]
  have hAllowed : word.text ∉ memberKeywords := by
    simp [memberKeywords, hEnum, hOneof, hMessage, hRepeated]
  exact (((recognizes_readField place owner word.text
    false).map Member.field).requireType_bind owner).congr
    fun lexemes member =>
      (memberForm_type_iff hAllowed).symm

/- No member begins with a delimiter. -/
theorem readMemberAfter_delimiter
    {c : Char}
    (hChar : isDelimiter c = true)
    (place : Diagnostics)
    (owner : String) :
    ∃ error,
      readMemberAfter place owner (String.singleton c) =
        fail error := by
  rcases requireType_delimiter hChar owner with ⟨error, hFail⟩
  refine ⟨error, ?_⟩
  unfold readMemberAfter
  rcases isDelimiter_iff.mp hChar with
    rfl | rfl | rfl | rfl | rfl | rfl <;>
    rw [if_neg (by decide), if_neg (by decide),
      if_neg (by decide), if_neg (by decide), hFail,
      fail_bind]

theorem recognizes_readMember
    (place : Diagnostics)
    (owner : String) :
    Recognizes (readMember place owner) MemberForm := by
  refine (Recognizes.readWord_bind _
    (recognizes_readMemberAfter place owner)
    fun c hChar =>
      readMemberAfter_delimiter hChar place owner).congr
    fun lexemes member => ?_
  constructor
  · intro h
    rcases h with ⟨word, after, hMember, rfl⟩
    exact hMember
  · intro hMember
    rcases hMember.startsWithWord with ⟨word, after, rfl⟩
    exact ⟨word, after, hMember, rfl⟩

theorem recognizes_readMessage (place : Diagnostics) :
    Recognizes (readMessage place)
      (fun lexemes message =>
        Block MemberForm lexemes message.name
          message.members) := by
  refine ((Recognizes.readBlock
    (recognizes_readMember place.nested)
    (fun _ _ => MemberForm.startsWithWord) .message place
    (readMember_advances place.nested)).map
      fun block => Message.mk block.1 block.2).congr
    fun lexemes message => ?_
  constructor
  · intro h
    rcases h with ⟨block, hBlock, rfl⟩
    exact hBlock
  · intro hBlock
    exact ⟨(message.name, message.members), hBlock, rfl⟩

end Parser

end ProtoSchema
