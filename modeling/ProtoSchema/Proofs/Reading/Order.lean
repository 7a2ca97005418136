import ProtoSchema.Proofs.Reading.Run
import ProtoSchema.Proofs.Reading.Turns

/-
  Nothing is out of order behind the syntax declaration: of
  all errors, that one is raised only before it.

  Key definitions include:
    * `Parser.KeepsOrder`

  Main theorems:
    * `Parser.KeepsOrder.bind`
    * `Parser.KeepsOrder.untilClosed`
    * `Parser.keepsOrder_readMessage`
    * `Session.keepsOrder_readItem`
-/

namespace ProtoSchema

namespace Parser

variable {α β : Type}

/- The parser never finds a declaration out of order. -/
def KeepsOrder (parser : Parser α) : Prop :=
  ∀ text keyword,
    (parser.run text).result ≠ .error (.outOfOrder keyword)

------------------------------------------------------------
-- Sequencing
------------------------------------------------------------

theorem keepsOrder_pure (value : α) :
    KeepsOrder (pure value) := by
  intro text keyword
  simp [pure_eq]

theorem keepsOrder_write (record : Record) :
    KeepsOrder (write record) := by
  intro text keyword
  simp [write]

theorem keepsOrder_fail
    {error : ParseError}
    (hError : ∀ keyword, error ≠ .outOfOrder keyword) :
    KeepsOrder (fail error : Parser α) := by
  intro text keyword hResult
  exact hError keyword (Except.error.inj hResult)

theorem keepsOrder_ofExcept
    {step : Except ParseError α}
    (hStep : ∀ keyword, step ≠ .error (.outOfOrder keyword)) :
    KeepsOrder (ofExcept step) :=
  fun _ => hStep

theorem KeepsOrder.bind
    {parser : Parser α}
    {next : α → Parser β}
    (hFirst : KeepsOrder parser)
    (hNext : ∀ value, KeepsOrder (next value)) :
    KeepsOrder (parser >>= next) := by
  intro text keyword
  have hError := hFirst text keyword
  rcases hRun : parser.run text with
    ⟨error | value, rest, records⟩
  · rw [hRun] at hError
    rw [bind_of_error hRun]
    exact fun hResult => hError (by simpa using hResult)
  · rw [bind_of_ok hRun]
    exact hNext value rest keyword

------------------------------------------------------------
-- Basic Parsers
------------------------------------------------------------

theorem keepsOrder_skipGap : KeepsOrder skipGap := by
  intro text keyword
  simp only [skipGap]
  split
  · simp
  · simp

theorem keepsOrder_noteComments (place : Diagnostics) :
    KeepsOrder (noteComments place) := by
  apply keepsOrder_skipGap.bind
  intro comments
  split
  · exact keepsOrder_write _
  · exact keepsOrder_pure _

theorem keepsOrder_expect
    (c : Char)
    (context : String) : KeepsOrder (expect c context) := by
  apply keepsOrder_skipGap.bind
  intro _ text keyword
  simp only [require]
  split
  · simp
  · split
    · simp
    · simp

theorem keepsOrder_readWord (reading : String) :
    KeepsOrder (readWord reading) := by
  apply keepsOrder_skipGap.bind
  intro _
  apply KeepsOrder.bind
  · intro text keyword
    simp only [takeWord]
    split
    · simp
    · split
      · simp
      · simp
  · intro word
    cases word with
    | some word => exact keepsOrder_pure word
    | none => exact keepsOrder_fail (by simp)

theorem keepsOrder_readWordOf
    (form : List Char → Bool)
    (reading : String) :
    KeepsOrder (readWordOf form reading) := by
  apply (keepsOrder_readWord reading).bind
  intro word
  split
  · exact keepsOrder_pure word
  · exact keepsOrder_fail (by simp)

theorem keepsOrder_readInteger (reading : String) :
    KeepsOrder (readInteger reading) := by
  apply (keepsOrder_readWord reading).bind
  intro word
  split
  · exact keepsOrder_pure _
  · exact keepsOrder_fail (by simp)

theorem keepsOrder_readQuoted (reading : String) :
    KeepsOrder (readQuoted reading) := by
  apply (keepsOrder_expect _ _).bind
  intro _ text keyword
  simp only [takeQuoted]
  split
  · simp
  · simp

theorem keepsOrder_requireType
    (owner : String)
    (word : String) :
    KeepsOrder (requireType owner word) := by
  unfold requireType
  split
  · exact keepsOrder_pure word
  · exact keepsOrder_fail (by simp)

------------------------------------------------------------
-- Blocks
------------------------------------------------------------

theorem KeepsOrder.readTurn
    {entry : Parser α}
    (hEntry : KeepsOrder entry)
    (kind : BlockKind)
    (name : String)
    (place : Diagnostics) :
    KeepsOrder (readTurn kind name place entry) := by
  apply (keepsOrder_noteComments place).bind
  intro _ text keyword
  simp only [turnHere]
  split
  · simp
  · simp
  · simp
  · have hError := hEntry text keyword
    rcases hRun : entry.run text with
      ⟨error | value, rest, records⟩
    · rw [hRun] at hError
      exact fun hResult => hError
        (by simpa [Outcome.map, Except.map] using hResult)
    · simp [Outcome.map, Except.map]

theorem KeepsOrder.untilClosed
    {turn : Parser (Turn α)}
    (h : KeepsOrder turn)
    (hTurn : turn.Advances) :
    KeepsOrder (untilClosed turn hTurn) := by
  intro text keyword
  refine untilClosed_induct hTurn
    (motive := fun _ outcome =>
      outcome.result ≠ .error (.outOfOrder keyword))
    ?_ ?_ ?_ ?_ text
  · intro text rest error records hRead
    have hError := h text keyword
    rw [hRead] at hError
    exact fun hResult => hError (by simpa using hResult)
  · intro text rest records _
    simp
  · intro text rest records _ ih
    exact ih
  · intro text rest value records _ ih
    rcases hLoop : (Parser.untilClosed turn hTurn).run rest
      with ⟨error | values, rest', records'⟩
    · rw [hLoop] at ih
      exact fun hResult => ih (by
        simpa [Outcome.after, Outcome.map, Except.map]
          using hResult)
    · simp [Outcome.after, Outcome.map, Except.map]

theorem keepsOrder_readBlock
    {entry : String → Parser α}
    (h : ∀ name, KeepsOrder (entry name))
    (kind : BlockKind)
    (place : Diagnostics)
    (hEntry : ∀ name, (entry name).Advances) :
    KeepsOrder (readBlock kind place entry hEntry) := by
  refine (keepsOrder_readWordOf _ _).bind fun name => ?_
  refine (keepsOrder_expect _ _).bind fun _ => ?_
  refine (keepsOrder_write _).bind fun _ => ?_
  have hTurn := (h name).readTurn kind name place.nested
  exact (hTurn.untilClosed _).bind fun _ =>
    keepsOrder_pure _

------------------------------------------------------------
-- Declarations
------------------------------------------------------------

/- A name, an equals sign, an integer and a semicolon. -/
theorem keepsOrder_assignment
    (naming : String)
    (afterName afterNumber counting : String → String)
    (record : String → Int64 → Record)
    (declare : String → Int64 → α) :
    KeepsOrder
      (do
        let name ← readIdentifier naming
        expect '=' (afterName name)
        let number ← readInteger (counting name)
        expect ';' (afterNumber name)
        write (record name number)
        pure (declare name number)) := by
  refine (keepsOrder_readWordOf _ _).bind fun _ => ?_
  refine (keepsOrder_expect _ _).bind fun _ => ?_
  refine (keepsOrder_readInteger _).bind fun _ => ?_
  refine (keepsOrder_expect _ _).bind fun _ => ?_
  exact (keepsOrder_write _).bind fun _ => keepsOrder_pure _

theorem keepsOrder_readField
    (place : Diagnostics)
    (owner : String)
    (typeName : String)
    (repeated : Bool) :
    KeepsOrder
      (readField place owner typeName repeated) :=
  keepsOrder_assignment _ _ _ _
    (fun name number =>
      fieldRecord place ⟨name, typeName, number, repeated⟩)
    (Field.mk · typeName · repeated)

theorem keepsOrder_readEnumValue
    (place : Diagnostics)
    (owner : String) :
    KeepsOrder (readEnumValue place owner) :=
  keepsOrder_assignment _ _ _ _
    (fun name number => enumValueRecord place ⟨name, number⟩)
    EnumValue.mk

theorem keepsOrder_readEnum (place : Diagnostics) :
    KeepsOrder (readEnum place) := by
  have hBlock := keepsOrder_readBlock
    (keepsOrder_readEnumValue place.nested) .enum place
    (readEnumValue_advances _)
  exact hBlock.bind fun _ => keepsOrder_pure _

theorem keepsOrder_readAlternative
    (place : Diagnostics)
    (owner : String) :
    KeepsOrder (readAlternative place owner) := by
  refine (keepsOrder_readWord _).bind fun word => ?_
  split
  · exact keepsOrder_fail (by simp)
  · exact (keepsOrder_requireType owner word).bind
      fun _ => keepsOrder_readField _ _ _ _

theorem keepsOrder_readOneof (place : Diagnostics) :
    KeepsOrder (readOneof place) := by
  have hBlock := keepsOrder_readBlock
    (keepsOrder_readAlternative place.nested) .oneof place
    (readAlternative_advances _)
  exact hBlock.bind fun _ => keepsOrder_pure _

theorem keepsOrder_readMember
    (place : Diagnostics)
    (owner : String) :
    KeepsOrder (readMember place owner) := by
  refine (keepsOrder_readWord _).bind fun word => ?_
  unfold readMemberAfter
  split
  · exact (keepsOrder_readEnum place).bind fun _ =>
      keepsOrder_pure _
  split
  · exact (keepsOrder_readOneof place).bind fun _ =>
      keepsOrder_pure _
  split
  · exact keepsOrder_fail (by simp)
  split
  · refine (keepsOrder_readWordOf _ _).bind fun _ => ?_
    exact (keepsOrder_readField _ _ _ _).bind fun _ =>
      keepsOrder_pure _
  · refine (keepsOrder_requireType owner word).bind
      fun _ => ?_
    exact (keepsOrder_readField _ _ _ _).bind fun _ =>
      keepsOrder_pure _

theorem keepsOrder_readMessage (place : Diagnostics) :
    KeepsOrder (readMessage place) := by
  have hBlock := keepsOrder_readBlock
    (keepsOrder_readMember place.nested) .message place
    (readMember_advances _)
  exact hBlock.bind fun _ => keepsOrder_pure _

theorem keepsOrder_readSyntax (schema : SchemaFile) :
    KeepsOrder (readSyntax schema) := by
  refine (keepsOrder_expect _ _).bind fun _ => ?_
  refine (keepsOrder_readQuoted _).bind fun version => ?_
  refine (keepsOrder_expect _ _).bind fun _ => ?_
  have hStep : ∀ keyword,
      schema.setVersion version ≠
        .error (.outOfOrder keyword) := by
    intro keyword
    unfold SchemaFile.setVersion
    split
    · simp
    · split
      · simp
      · simp
  refine (keepsOrder_ofExcept hStep).bind fun _ => ?_
  exact (keepsOrder_write _).bind fun _ => keepsOrder_pure _

/- A message is in order once the syntax is declared. -/
theorem keepsOrder_readDeclaration
    {schema : SchemaFile}
    (hVersion : schema.version.isSome = true)
    (keyword : String) :
    KeepsOrder (readDeclaration schema keyword) := by
  unfold readDeclaration
  split
  · exact keepsOrder_readSyntax schema
  split
  · refine (keepsOrder_readMessage _).bind fun message => ?_
    apply keepsOrder_ofExcept
    simp [SchemaFile.pushMessage, hVersion]
  split
  · exact keepsOrder_fail (by simp)
  split
  · exact keepsOrder_pure schema
  · exact keepsOrder_fail (by simp)

end Parser

namespace Session

open ProtoSchema.Parser

theorem keepsOrder_readItem
    {schema : SchemaFile}
    (hVersion : schema.version.isSome = true) :
    KeepsOrder (readItem .ready schema) := by
  refine (keepsOrder_noteComments _).bind fun _ => ?_
  refine (keepsOrder_readWord _).bind fun keyword => ?_
  rw [readKeyword, if_neg (by decide)]
  exact keepsOrder_readDeclaration hVersion keyword

end Session

end ProtoSchema
