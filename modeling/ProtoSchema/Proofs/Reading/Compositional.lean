import ProtoSchema.Proofs.Layout.Lexeme
import ProtoSchema.Proofs.Reading.Run

/-
  Properties of parsers that pass from the basic parsers to
  all that are composed of them. A property is established
  once for the pieces; then it holds of every declaration
  and of every item of a schema.

  Key definitions include:
    * `Compositional`

  Main theorems:
    * `Compositional.readBlock`
    * `Compositional.readMessage`
    * `Compositional.readItem`
-/

namespace ProtoSchema

namespace Parser

/-
  What has to be shown of the pieces. A word is only read
  together with what is made of it, and nothing is ever made
  of a double quote.
-/
structure Compositional
    (property : ∀ α : Type, Parser α → Prop) : Prop where
  pure {α : Type} (value : α) : property α (pure value)
  fail {α : Type} (error : ParseError) :
    property α (fail error)
  write (record : Record) : property Unit (write record)
  ofExcept {α : Type} (step : Except ParseError α) :
    property α (ofExcept step)
  bind {α β : Type}
    {parser : Parser α}
    {next : α → Parser β}
    (hFirst : property α parser)
    (hNext : ∀ value, property β (next value)) :
    property β (parser >>= next)
  expect (sign : Mark) (context : String) :
    property Unit (expect sign.char context)
  readQuoted (reading : String) :
    property String (readQuoted reading)
  readWord {β : Type}
    {next : String → Parser β}
    (hNext : ∀ word, property β (next word))
    (hQuote :
      ∃ error, next (String.singleton '"') = .fail error)
    (reading : String) :
    property β (readWord reading >>= next)
  noteComments {β : Type}
    {next : String → Parser β}
    (hNext : ∀ word, property β (next word))
    (hQuote :
      ∃ error, next (String.singleton '"') = .fail error)
    (place : Diagnostics)
    (reading : String) :
    property β
      (noteComments place >>= fun _ =>
        Parser.readWord reading >>= next)
  readTurn {α : Type}
    {entry : Parser α}
    (hEntry : property α entry)
    (kind : BlockKind)
    (name : String)
    (place : Diagnostics) :
    property (Turn α) (readTurn kind name place entry)
  untilClosed {α : Type}
    {turn : Parser (Turn α)}
    (h : property (Turn α) turn)
    (hTurn : turn.Advances) :
    property (List α) (untilClosed turn hTurn)

namespace Compositional

variable {property : ∀ α : Type, Parser α → Prop}

------------------------------------------------------------
-- Words of a Form
------------------------------------------------------------

theorem readWordOf
    (h : Compositional property)
    {form : List Char → Bool}
    (hForm : form ['"'] = false)
    (reading : String) :
    property String (readWordOf form reading) := by
  apply h.readWord
  · intro word
    split
    · exact h.pure word
    · exact h.fail _
  · refine ⟨_, if_neg ?_⟩
    rw [String.toList_singleton, hForm]
    decide

theorem readIdentifier
    (h : Compositional property)
    (reading : String) :
    property String (readIdentifier reading) :=
  h.readWordOf (by decide) reading

theorem readType
    (h : Compositional property)
    (reading : String) :
    property String (readType reading) :=
  h.readWordOf (by decide) reading

theorem readInteger
    (h : Compositional property)
    (reading : String) :
    property Int64 (readInteger reading) := by
  apply h.readWord
  · intro word
    split
    · exact h.pure _
    · exact h.fail _
  · exact ⟨_, rfl⟩

theorem requireType
    (h : Compositional property)
    (owner : String)
    (word : String) :
    property String (requireType owner word) := by
  unfold Parser.requireType
  split
  · exact h.pure word
  · exact h.fail _

------------------------------------------------------------
-- Blocks
------------------------------------------------------------

theorem readBlock
    (h : Compositional property)
    {α : Type}
    {entry : String → Parser α}
    (hProperty : ∀ name, property α (entry name))
    (kind : BlockKind)
    (place : Diagnostics)
    (hEntry : ∀ name, (entry name).Advances) :
    property (String × List α)
      (readBlock kind place entry hEntry) := by
  refine h.bind (h.readIdentifier _) fun name => ?_
  refine h.bind (h.expect .openBrace _) fun _ => ?_
  refine h.bind (h.write _) fun _ => ?_
  have hTurn :=
    h.readTurn (hProperty name) kind name place.nested
  exact h.bind (h.untilClosed hTurn _) fun _ => h.pure _

------------------------------------------------------------
-- Declarations
------------------------------------------------------------

theorem readField
    (h : Compositional property)
    (place : Diagnostics)
    (owner : String)
    (typeName : String)
    (repeated : Bool) :
    property Field
      (readField place owner typeName repeated) := by
  refine h.bind (h.readIdentifier _) fun name => ?_
  refine h.bind (h.expect .equals _) fun _ => ?_
  refine h.bind (h.readInteger _) fun number => ?_
  refine h.bind (h.expect .semicolon _) fun _ => ?_
  exact h.bind (h.write _) fun _ => h.pure _

theorem readEnumValue
    (h : Compositional property)
    (place : Diagnostics)
    (owner : String) :
    property EnumValue (readEnumValue place owner) := by
  refine h.bind (h.readIdentifier _) fun name => ?_
  refine h.bind (h.expect .equals _) fun _ => ?_
  refine h.bind (h.readInteger _) fun number => ?_
  refine h.bind (h.expect .semicolon _) fun _ => ?_
  exact h.bind (h.write _) fun _ => h.pure _

theorem readEnum
    (h : Compositional property)
    (place : Diagnostics) :
    property Enum (readEnum place) := by
  have hBlock := h.readBlock (h.readEnumValue place.nested)
    .enum place (readEnumValue_advances _)
  exact h.bind hBlock fun _ => h.pure _

theorem readAlternative
    (h : Compositional property)
    (place : Diagnostics)
    (owner : String) :
    property Field (readAlternative place owner) := by
  apply h.readWord
  · intro word
    split
    · exact h.fail _
    · exact h.bind (h.requireType owner word)
        fun typeName =>
          h.readField place owner typeName false
  · exact ⟨_, rfl⟩

theorem readOneof
    (h : Compositional property)
    (place : Diagnostics) :
    property Oneof (readOneof place) := by
  have hBlock := h.readBlock
    (h.readAlternative place.nested) .oneof place
    (readAlternative_advances _)
  exact h.bind hBlock fun _ => h.pure _

theorem readMemberAfter
    (h : Compositional property)
    (place : Diagnostics)
    (owner : String)
    (word : String) :
    property Member (readMemberAfter place owner word) := by
  unfold Parser.readMemberAfter
  split
  · exact h.bind (h.readEnum place) fun _ => h.pure _
  split
  · exact h.bind (h.readOneof place) fun _ => h.pure _
  split
  · exact h.fail _
  split
  · refine h.bind (h.readType _) fun typeName => ?_
    exact h.bind (h.readField place owner typeName true)
      fun _ => h.pure _
  · refine h.bind (h.requireType owner word)
      fun typeName => ?_
    exact h.bind (h.readField place owner typeName false)
      fun _ => h.pure _

theorem readMember
    (h : Compositional property)
    (place : Diagnostics)
    (owner : String) :
    property Member (readMember place owner) := by
  apply h.readWord
  · exact h.readMemberAfter place owner
  · exact ⟨_, rfl⟩

theorem readMessage
    (h : Compositional property)
    (place : Diagnostics) :
    property Message (readMessage place) := by
  have hBlock := h.readBlock (h.readMember place.nested)
    .message place (readMember_advances _)
  exact h.bind hBlock fun _ => h.pure _

theorem readSyntax
    (h : Compositional property)
    (schema : SchemaFile) :
    property SchemaFile (readSyntax schema) := by
  refine h.bind (h.expect .equals _) fun _ => ?_
  refine h.bind (h.readQuoted _) fun version => ?_
  refine h.bind (h.expect .semicolon _) fun _ => ?_
  refine h.bind (h.ofExcept _) fun declared => ?_
  exact h.bind (h.write _) fun _ => h.pure _

------------------------------------------------------------
-- Items
------------------------------------------------------------

theorem readOpening
    (h : Compositional property)
    (schema : SchemaFile)
    (keyword : String) :
    property SchemaFile (readOpening schema keyword) := by
  unfold Parser.readOpening
  split
  · exact h.readSyntax schema
  · exact h.fail _

theorem readDeclaration
    (h : Compositional property)
    (schema : SchemaFile)
    (keyword : String) :
    property SchemaFile
      (readDeclaration schema keyword) := by
  unfold Parser.readDeclaration
  split
  · exact h.readSyntax schema
  split
  · exact h.bind (h.readMessage .topLevel)
      fun _ => h.ofExcept _
  split
  · exact h.fail _
  split
  · exact h.pure schema
  · exact h.fail _

/- No item begins with a double quote. -/
theorem readItem
    (h : Compositional property)
    (phase : Phase)
    (schema : SchemaFile) :
    property SchemaFile (Session.readItem phase schema) := by
  apply h.noteComments
  · intro word
    unfold Session.readKeyword
    split
    · exact h.readOpening schema word
    · exact h.readDeclaration schema word
  · unfold Session.readKeyword
    split
    · exact ⟨_, rfl⟩
    · exact ⟨_, rfl⟩

end Compositional

end Parser

end ProtoSchema
