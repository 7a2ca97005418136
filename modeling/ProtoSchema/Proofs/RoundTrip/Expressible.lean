import ProtoSchema.Proofs.Grammar.Form

/-
  The schemas that some text declares. The grammar bounds
  the names, the types and the places of keywords; numbers
  and the lengths of lists are free.

  Key definitions include:
    * `Field.MemberExpressible`
    * `Field.AlternativeExpressible`
    * `Member.Expressible`
    * `SchemaFile.Expressible`

  Main theorems:
    * `Grammar.Entries.forall_mem`
    * `Grammar.FileForm.expressible`
-/

namespace ProtoSchema

open Grammar

------------------------------------------------------------
-- Expressible Schemas
------------------------------------------------------------

/- A field that a message can declare. -/
def Field.MemberExpressible (field : Field) : Prop :=
  isIdentifier field.name.toList = true ∧
    isTypeReference field.typeName.toList = true ∧
      (field.repeated = false →
        field.typeName ∉ memberKeywords)

/- A field that a oneof can declare. -/
def Field.AlternativeExpressible (field : Field) : Prop :=
  isIdentifier field.name.toList = true ∧
    isTypeReference field.typeName.toList = true ∧
      field.repeated = false ∧
        field.typeName ∉ oneofKeywords

/- A constant that an enum can declare. -/
def EnumValue.Expressible (value : EnumValue) : Prop :=
  isIdentifier value.name.toList = true

/- An enum that a message can declare. -/
def Enum.Expressible (enum : Enum) : Prop :=
  isIdentifier enum.name.toList = true ∧
    ∀ value ∈ enum.values, value.Expressible

/- A oneof that a message can declare. -/
def Oneof.Expressible (oneof : Oneof) : Prop :=
  isIdentifier oneof.name.toList = true ∧
    ∀ field ∈ oneof.fields, field.AlternativeExpressible

/- A member that a message can declare. -/
def Member.Expressible : Member → Prop
  | .field declared => declared.MemberExpressible
  | .enum declared => declared.Expressible
  | .oneof declared => declared.Expressible

/- A message that a schema can declare. -/
def Message.Expressible (message : Message) : Prop :=
  isIdentifier message.name.toList = true ∧
    ∀ member ∈ message.members, member.Expressible

/- A schema that a text can declare. -/
def SchemaFile.Expressible (schema : SchemaFile) : Prop :=
  schema.version = some .proto3 ∧
    ∀ message ∈ schema.messages, message.Expressible

------------------------------------------------------------
-- Decidability
------------------------------------------------------------

instance : DecidablePred Field.MemberExpressible :=
  fun _ => inferInstanceAs (Decidable (_ ∧ _ ∧ (_ → _)))

instance : DecidablePred Field.AlternativeExpressible :=
  fun _ => inferInstanceAs (Decidable (_ ∧ _ ∧ _ ∧ _))

instance : DecidablePred EnumValue.Expressible :=
  fun value => inferInstanceAs
    (Decidable (isIdentifier value.name.toList = true))

instance : DecidablePred Enum.Expressible :=
  fun enum => inferInstanceAs
    (Decidable (_ ∧ ∀ value ∈ enum.values, _))

instance : DecidablePred Oneof.Expressible :=
  fun oneof => inferInstanceAs
    (Decidable (_ ∧ ∀ field ∈ oneof.fields, _))

instance : DecidablePred Member.Expressible
  | .field declared =>
      inferInstanceAs (Decidable declared.MemberExpressible)
  | .enum declared =>
      inferInstanceAs (Decidable declared.Expressible)
  | .oneof declared =>
      inferInstanceAs (Decidable declared.Expressible)

instance : DecidablePred Message.Expressible :=
  fun message => inferInstanceAs
    (Decidable (_ ∧ ∀ member ∈ message.members, _))

instance : DecidablePred SchemaFile.Expressible :=
  fun schema => inferInstanceAs
    (Decidable (_ ∧ ∀ message ∈ schema.messages, _))

------------------------------------------------------------
-- Denotations
------------------------------------------------------------

namespace Grammar

/- What holds of every form holds of every entry. -/
theorem Entries.forall_mem
    {α : Type}
    {form : List Lexeme → α → Prop}
    {property : α → Prop}
    {lexemes : List Lexeme}
    {entries : List α}
    (h : Entries form lexemes entries)
    (hForm : ∀ lexemes value,
      form lexemes value → property value) :
    ∀ value ∈ entries, property value := by
  induction h with
  | nil => simp
  | stray _ ih => exact ih
  | entry hFirst _ ih =>
      intro other hMem
      rcases List.mem_cons.mp hMem with rfl | hRest
      · exact hForm _ _ hFirst
      · exact ih other hRest

theorem Block.name_and_forall_mem
    {α : Type}
    {form : List Lexeme → α → Prop}
    {property : α → Prop}
    {lexemes : List Lexeme}
    {name : String}
    {entries : List α}
    (h : Block form lexemes name entries)
    (hForm : ∀ lexemes value,
      form lexemes value → property value) :
    isIdentifier name.toList = true ∧
      ∀ value ∈ entries, property value := by
  cases h with
  | intro hName hBody =>
      rw [BareWord.toList_text]
      exact ⟨hName, hBody.forall_mem hForm⟩

theorem Assignment.isIdentifier_name
    {lexemes : List Lexeme}
    {name : String}
    {value : Int64}
    (h : Assignment lexemes name value) :
    isIdentifier name.toList = true := by
  cases h with
  | intro hName _ => rwa [BareWord.toList_text]

theorem EnumValueForm.expressible
    {lexemes : List Lexeme}
    {value : EnumValue}
    (h : EnumValueForm lexemes value) :
    value.Expressible := by
  cases h with
  | intro hRest => exact hRest.isIdentifier_name

theorem AlternativeForm.expressible
    {lexemes : List Lexeme}
    {field : Field}
    (h : AlternativeForm lexemes field) :
    field.AlternativeExpressible := by
  cases h with
  | intro hType hAllowed hRest =>
      refine ⟨hRest.isIdentifier_name, ?_, rfl, hAllowed⟩
      rwa [BareWord.toList_text]

theorem MemberForm.expressible
    {lexemes : List Lexeme}
    {member : Member}
    (h : MemberForm lexemes member) :
    member.Expressible := by
  cases h with
  | field hType hAllowed hRest =>
      refine ⟨hRest.isIdentifier_name, ?_,
        fun _ => hAllowed⟩
      rwa [BareWord.toList_text]
  | repeated hType hRest =>
      refine ⟨hRest.isIdentifier_name, ?_, by simp⟩
      rwa [BareWord.toList_text]
  | enum hBlock =>
      exact hBlock.name_and_forall_mem
        fun _ _ => EnumValueForm.expressible
  | oneof hBlock =>
      exact hBlock.name_and_forall_mem
        fun _ _ => AlternativeForm.expressible

/- What is a keyword elsewhere may follow `repeated`. -/
example :
    Field.MemberExpressible ⟨"kind", "enum", 1, true⟩ ∧
      ¬ Field.MemberExpressible
        ⟨"kind", "enum", 1, false⟩ := by
  decide

theorem MessageForm.expressible
    {lexemes : List Lexeme}
    {message : Message}
    (h : MessageForm lexemes message) :
    message.Expressible := by
  cases h with
  | intro hBlock =>
      exact hBlock.name_and_forall_mem
        fun _ _ => MemberForm.expressible

/- Only expressible schemas are denoted. -/
theorem FileForm.expressible
    {lexemes : List Lexeme}
    {schema : SchemaFile}
    (h : FileForm lexemes schema) :
    schema.Expressible := by
  cases h with
  | intro hItems =>
      exact ⟨rfl, hItems.forall_mem
        fun _ _ => MessageForm.expressible⟩

end Grammar

end ProtoSchema
