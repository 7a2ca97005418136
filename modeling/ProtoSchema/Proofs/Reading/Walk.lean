import ProtoSchema.Proofs.Reading.Account
import ProtoSchema.Proofs.Reading.Run

/-
  The account of a reading. On success its debug records are
  a walk over the schema that was read, on failure its last
  record is the only error; and no reading writes anything
  but these and traces of comments.

  Key definitions include:
    * `Message.account`
    * `SchemaFile.account`
    * `Reading.Accounted`

  Main theorems:
    * `Parser.accounts_readMessage`
    * `Session.accounts_readItem_ready`
    * `Session.run_accounted`
    * `readText_accounted`
-/

namespace ProtoSchema

------------------------------------------------------------
-- The Walk over a Schema
------------------------------------------------------------

/- A field is told by one line. -/
def Field.account
    (depth : Nat)
    (field : Field) : Record :=
  let name := field.name
  let typeName := field.typeName
  let number := Numeral.write field.number
  ⟨.debug, depth,
    if field.repeated then
      s!"Field {name} is of type repeated {typeName}" ++
        s!" (id = {number})"
    else
      s!"Field {name} is of type {typeName}" ++
        s!" (id = {number})"⟩

/- So is a constant of an enum. -/
def EnumValue.account
    (depth : Nat)
    (value : EnumValue) : Record :=
  let name := value.name
  let number := Numeral.write value.value
  ⟨.debug, depth, s!"Value {name} = {number}"⟩

def Enum.account
    (depth : Nat)
    (enum : Enum) : List Record :=
  accountBlock depth "enum" enum.name
    (enum.values.map (EnumValue.account (depth + 1)))

def Oneof.account
    (depth : Nat)
    (oneof : Oneof) : List Record :=
  accountBlock depth "oneof" oneof.name
    (oneof.fields.map (Field.account (depth + 1)))

def Member.account
    (depth : Nat) : Member → List Record
  | .field declared => [declared.account depth]
  | .enum declared => declared.account depth
  | .oneof declared => declared.account depth

def Message.account
    (depth : Nat)
    (message : Message) : List Record :=
  accountBlock depth "message" message.name
    (message.members.flatMap (Member.account (depth + 1)))

/-
  A whole schema: the syntax declaration, and the messages
  in their order, each with what it contains.
-/
def SchemaFile.account (schema : SchemaFile) : List Record :=
  ⟨.debug, 0, "Valid syntax declaration"⟩ ::
    schema.messages.flatMap (Message.account 0)

namespace Parser

------------------------------------------------------------
-- Declarations
------------------------------------------------------------

theorem quiet_requireType
    (owner : String)
    (word : String) : Quiet (requireType owner word) := by
  unfold requireType
  split
  · exact quiet_pure word
  · exact quiet_fail _

/- The record of a field is its account. -/
theorem fieldRecord_eq
    (place : Diagnostics)
    (field : Field) :
    fieldRecord place field = field.account place.depth := by
  rcases field with ⟨name, typeName, number, repeated⟩
  cases repeated with
  | true =>
      simp [fieldRecord, Field.account, Diagnostics.debug,
        String.append_assoc, toString]
  | false =>
      simp [fieldRecord, Field.account, Diagnostics.debug,
        String.append_assoc, toString]

theorem enumValueRecord_eq
    (place : Diagnostics)
    (value : EnumValue) :
    enumValueRecord place value =
      value.account place.depth := by
  simp [enumValueRecord, EnumValue.account,
    Diagnostics.debug, String.append_assoc, toString]

theorem accounts_readField
    (place : Diagnostics)
    (hDepth : place.depth ≤ 2)
    (owner : String)
    (typeName : String)
    (repeated : Bool) :
    Accounts (readField place owner typeName repeated)
      fun field told => told = [field.account place.depth] := by
  refine (quiet_readWordOf _ _).bind_accounts fun name => ?_
  refine (quiet_expect _ _).bind_accounts fun _ => ?_
  refine (quiet_readInteger _).bind_accounts fun number => ?_
  refine (quiet_expect _ _).bind_accounts fun _ => ?_
  apply Accounts.debug_bind hDepth
  apply accounts_pure
  rw [← fieldRecord_eq]
  rfl

theorem accounts_readEnumValue
    (place : Diagnostics)
    (hDepth : place.depth ≤ 2)
    (owner : String) :
    Accounts (readEnumValue place owner) fun value told =>
      told = [value.account place.depth] := by
  refine (quiet_readWordOf _ _).bind_accounts fun name => ?_
  refine (quiet_expect _ _).bind_accounts fun _ => ?_
  refine (quiet_readInteger _).bind_accounts fun number => ?_
  refine (quiet_expect _ _).bind_accounts fun _ => ?_
  apply Accounts.debug_bind hDepth
  apply accounts_pure
  rw [← enumValueRecord_eq]
  rfl

theorem accounts_readEnum
    (place : Diagnostics)
    (hDepth : place.depth + 1 ≤ 2) :
    Accounts (readEnum place) fun enum told =>
      told = enum.account place.depth := by
  have hBlock := Accounts.readBlock
    (accounts_readEnumValue place.nested hDepth)
    .enum place hDepth (readEnumValue_advances _)
  apply hBlock.bind
  rintro ⟨name, values⟩ _ rfl
  apply accounts_pure
  rw [List.append_nil, ← List.map_eq_flatMap]
  rfl

theorem accounts_readAlternative
    (place : Diagnostics)
    (hDepth : place.depth ≤ 2)
    (owner : String) :
    Accounts (readAlternative place owner) fun field told =>
      told = [field.account place.depth] := by
  refine (quiet_readWord _).bind_accounts fun word => ?_
  split
  · exact accounts_fail _
  · refine (quiet_requireType owner word).bind_accounts
      fun typeName => ?_
    exact
      accounts_readField place hDepth owner typeName false

theorem accounts_readOneof
    (place : Diagnostics)
    (hDepth : place.depth + 1 ≤ 2) :
    Accounts (readOneof place) fun oneof told =>
      told = oneof.account place.depth := by
  have hBlock := Accounts.readBlock
    (accounts_readAlternative place.nested hDepth)
    .oneof place hDepth (readAlternative_advances _)
  apply hBlock.bind
  rintro ⟨name, fields⟩ _ rfl
  apply accounts_pure
  rw [List.append_nil, ← List.map_eq_flatMap]
  rfl

theorem accounts_readMember
    (place : Diagnostics)
    (hDepth : place.depth + 1 ≤ 2)
    (owner : String) :
    Accounts (readMember place owner) fun member told =>
      told = member.account place.depth := by
  have hField : ∀ typeName repeated,
      Accounts
        (do
          let field ←
            readField place owner typeName repeated
          pure (Member.field field))
        fun member told =>
          told = member.account place.depth := by
    intro typeName repeated
    apply (accounts_readField place
      (Nat.le_of_succ_le hDepth) owner typeName
        repeated).bind
    rintro field _ rfl
    exact accounts_pure rfl
  refine (quiet_readWord _).bind_accounts fun word => ?_
  unfold readMemberAfter
  split
  · apply (accounts_readEnum place hDepth).bind
    rintro enum _ rfl
    exact accounts_pure (List.append_nil _)
  split
  · apply (accounts_readOneof place hDepth).bind
    rintro oneof _ rfl
    exact accounts_pure (List.append_nil _)
  split
  · exact accounts_fail _
  split
  · refine (quiet_readWordOf _ _).bind_accounts
      fun typeName => ?_
    exact hField typeName true
  · refine (quiet_requireType owner word).bind_accounts
      fun typeName => ?_
    exact hField typeName false

theorem accounts_readMessage :
    Accounts (readMessage .topLevel) fun message told =>
      told = message.account 0 := by
  have hDepth : Diagnostics.topLevel.nested.depth + 1 ≤ 2 :=
    Nat.le_refl 2
  have hBlock := Accounts.readBlock
    (accounts_readMember Diagnostics.topLevel.nested hDepth)
    .message .topLevel (by decide) (readMember_advances _)
  apply hBlock.bind
  rintro ⟨name, members⟩ _ rfl
  exact accounts_pure (List.append_nil _)

/- A schema that has a version is given no other. -/
theorem accounts_readSyntax (schema : SchemaFile) :
    Accounts (readSyntax schema) fun declared told =>
      schema.version = none ∧
        declared = ⟨some .proto3, schema.messages⟩ ∧
          told = [⟨.debug, 0, "Valid syntax declaration"⟩] := by
  refine (quiet_expect _ _).bind_accounts fun _ => ?_
  refine (quiet_readQuoted _).bind_accounts fun version => ?_
  refine (quiet_expect _ _).bind_accounts fun _ => ?_
  apply Accounts.ofExcept_bind
  intro declared hDeclared
  rcases SchemaFile.setVersion_eq_ok_iff.mp hDeclared with
    ⟨hVersion, _, rfl⟩
  apply Accounts.debug_bind (by decide)
  exact accounts_pure ⟨hVersion, rfl, rfl⟩

/-
  Behind the syntax declaration, what is told is told of the
  messages that a declaration adds.
-/
theorem accounts_readDeclaration
    {schema : SchemaFile}
    (hVersion : schema.version.isSome = true)
    (keyword : String) :
    Accounts (readDeclaration schema keyword)
      fun declared told =>
        ∃ added,
          declared =
              ⟨schema.version, schema.messages ++ added⟩ ∧
            told = added.flatMap (Message.account 0) := by
  unfold readDeclaration
  split
  · apply (accounts_readSyntax schema).imp
    rintro _ _ ⟨hNone, _⟩
    simp [hNone] at hVersion
  split
  · apply accounts_readMessage.bind
    rintro message _ rfl
    intro text
    apply Outcome.Accounted.of_nil rfl
    intro declared hPush
    rcases SchemaFile.pushMessage_eq_ok_iff.mp hPush with
      ⟨_, rfl⟩
    exact ⟨[message], rfl, by simp⟩
  split
  · exact accounts_fail _
  split
  · exact accounts_pure ⟨[], by simp, rfl⟩
  · exact accounts_fail _

end Parser

------------------------------------------------------------
-- Items
------------------------------------------------------------

namespace Session

open ProtoSchema.Parser

/- The syntax declaration is told before anything else. -/
theorem accounts_readItem_opening :
    Accounts (readItem .awaitingSyntax .empty)
      fun declared told =>
        declared = ⟨some .proto3, []⟩ ∧
          told = [⟨.debug, 0, "Valid syntax declaration"⟩] := by
  apply (accounts_noteComments .topLevel (by decide)).bind
  rintro _ _ rfl
  refine (quiet_readWord _).bind_accounts fun keyword => ?_
  rw [readKeyword, if_pos rfl, readOpening]
  split
  · apply (accounts_readSyntax .empty).imp
    rintro _ _ ⟨_, rfl, rfl⟩
    exact ⟨rfl, rfl⟩
  · exact accounts_fail _

theorem accounts_readItem_ready
    {schema : SchemaFile}
    (hVersion : schema.version.isSome = true) :
    Accounts (readItem .ready schema) fun declared told =>
      ∃ added,
        declared =
            ⟨schema.version, schema.messages ++ added⟩ ∧
          told = added.flatMap (Message.account 0) := by
  apply (accounts_noteComments .topLevel (by decide)).bind
  rintro _ _ rfl
  refine (quiet_readWord _).bind_accounts fun keyword => ?_
  rw [readKeyword, if_neg (by decide)]
  exact accounts_readDeclaration hVersion keyword

end Session

------------------------------------------------------------
-- Whole Readings
------------------------------------------------------------

/-
  The account of a whole reading: regular to the end, and
  related to the schema, or regular up to the last record,
  which tells the error.
-/
structure Reading.Accounted
    (reading : Reading)
    (told : SchemaFile → List Record → Prop) : Prop where
  succeeded :
    ∀ schema,
      reading.result = .ok schema →
        (∀ record ∈ reading.records, record.Regular) ∧
          told schema (debugged reading.records)
  failed :
    ∀ error,
      reading.result = .error error →
        ∃ before,
          reading.records =
              before ++
                [Diagnostics.topLevel.error error.message] ∧
            ∀ record ∈ before, record.Regular

namespace Reading.Accounted

variable {told : SchemaFile → List Record → Prop}

theorem of_ok
    {schema : SchemaFile}
    {records : List Record}
    (hRegular : ∀ record ∈ records, record.Regular)
    (hTold : told schema (debugged records)) :
    Reading.Accounted ⟨.ok schema, records⟩ told := by
  refine ⟨fun found hFound => ?_, by simp⟩
  rw [← Except.ok.inj hFound]
  exact ⟨hRegular, hTold⟩

theorem of_error
    {error : ParseError}
    {before : List Record}
    (hRegular : ∀ record ∈ before, record.Regular) :
    Reading.Accounted
      ⟨.error error,
        before ++
          [Diagnostics.topLevel.error error.message]⟩
      told := by
  refine ⟨by simp, fun found hFound => ?_⟩
  rw [← Except.error.inj hFound]
  exact ⟨before, rfl, hRegular⟩

theorem imp
    {reading : Reading}
    {claimed : SchemaFile → List Record → Prop}
    (h : reading.Accounted told)
    (hClaimed :
      ∀ schema records,
        told schema records → claimed schema records) :
    reading.Accounted claimed where
  succeeded := fun schema hSchema =>
    ⟨(h.succeeded schema hSchema).1,
      hClaimed schema _ (h.succeeded schema hSchema).2⟩
  failed := h.failed

/- Regular records may be put in front. -/
theorem after
    {reading : Reading}
    {before : List Record}
    (h :
      reading.Accounted fun schema after =>
        told schema (debugged before ++ after))
    (hBefore : ∀ record ∈ before, record.Regular) :
    (reading.after before).Accounted told := by
  have hBoth : ∀ {after},
      (∀ record ∈ after, record.Regular) →
        ∀ record ∈ before ++ after, record.Regular := by
    intro after hAfter record hRecord
    rcases List.mem_append.mp hRecord with hMem | hMem
    · exact hBefore record hMem
    · exact hAfter record hMem
  constructor
  · intro schema hSchema
    rcases h.succeeded schema hSchema with
      ⟨hRegular, hTold⟩
    rw [← debugged_append] at hTold
    exact ⟨hBoth hRegular, hTold⟩
  · intro error hError
    rcases h.failed error hError with
      ⟨between, hRecords, hRegular⟩
    refine ⟨before ++ between, ?_, hBoth hRegular⟩
    rw [List.append_assoc, ← hRecords]
    rfl

end Reading.Accounted

namespace Session

open ProtoSchema.Parser

/-
  A session that is ready tells of the messages that it adds
  to its schema.
-/
theorem run_accounted
    (schema : SchemaFile)
    (hVersion : schema.version.isSome = true)
    (text : List Char) :
    (Session.mk .ready schema text).run.Accounted
      fun found told =>
        ∃ added,
          found =
              ⟨schema.version, schema.messages ++ added⟩ ∧
            told = added.flatMap (Message.account 0) := by
  revert hVersion
  refine run_induct
    (motive := fun schema _ reading =>
      schema.version.isSome = true →
        reading.Accounted fun found told =>
          ∃ added,
            found =
                ⟨schema.version, schema.messages ++ added⟩ ∧
              told = added.flatMap (Message.account 0))
    ?_ ?_ ?_ schema text
  · intro schema text records hNote _
    have hGap :=
      accounts_noteComments .topLevel (by decide) text
    rw [hNote] at hGap
    apply Reading.Accounted.of_ok hGap.regular
    exact ⟨[], by simp, hGap.told () rfl⟩
  · intro schema text rest error records _ hRead hVersion
    have hItem := accounts_readItem_ready hVersion text
    rw [hRead] at hItem
    exact .of_error hItem.regular
  · intro schema declared text rest records hRead ih hVersion
    have hItem := accounts_readItem_ready hVersion text
    rw [hRead] at hItem
    rcases hItem.told declared rfl with
      ⟨first, rfl, hFirst⟩
    have hRest := ih hVersion
    refine .after ?_ hItem.regular
    refine hRest.imp fun found told hTold => ?_
    rcases hTold with ⟨added, rfl, rfl⟩
    refine ⟨first ++ added, by simp, ?_⟩
    rw [List.flatMap_append, hFirst]

end Session

/- Every text is read with a full account. -/
theorem readText_tells (text : String) :
    (readText text).Accounted fun schema told =>
      told = schema.account := by
  have hOpening :=
    Session.accounts_readItem_opening text.toList
  unfold readText Session.start
  rcases hRead :
      (Session.readItem .awaitingSyntax .empty).run
        text.toList with
    ⟨error | declared, rest, records⟩
  · rw [hRead] at hOpening
    rw [Session.run_of_error (.inl rfl) (.inl rfl) hRead]
    exact .of_error hOpening.regular
  · rw [hRead] at hOpening
    rcases hOpening.told declared rfl with ⟨rfl, hTold⟩
    rw [Session.run_of_item (.inl rfl) hRead]
    have hRun :=
      Session.run_accounted ⟨some .proto3, []⟩ rfl rest
    refine .after ?_ hOpening.regular
    refine hRun.imp fun found told hRest => ?_
    rcases hRest with ⟨added, rfl, rfl⟩
    rw [hTold]
    rfl

/-
  The records are a faithful account of the reading. If it
  succeeds, there is no error among them, and its debug
  records are the walk over the schema; if it fails, the
  error is told once, at the end and outside of all blocks.
  Nothing is told of more than two blocks deep, and the only
  traces are those of comments.
-/
theorem readText_accounted (text : String) :
    let reading := readText text
    (∀ schema,
      reading.result = .ok schema →
        (∀ record ∈ reading.records,
            record.level ≠ .error) ∧
          reading.records.filter (·.level = .debug) =
            schema.account) ∧
      (∀ error,
        reading.result = .error error →
          ∃ before,
            reading.records =
                before ++ [⟨.error, 0, error.message⟩] ∧
              ∀ record ∈ before, record.level ≠ .error) ∧
      ∀ record ∈ reading.records,
        record.depth ≤ 2 ∧
          (record.level = .trace →
            record.message = "Got comment") := by
  intro reading
  have hTells : reading.Accounted fun schema told =>
      told = schema.account := readText_tells text
  refine ⟨?_, ?_, ?_⟩
  · intro schema hSchema
    rcases hTells.succeeded schema hSchema with
      ⟨hRegular, hTold⟩
    exact ⟨fun record hRecord =>
      (hRegular record hRecord).level, hTold⟩
  · intro error hError
    rcases hTells.failed error hError with
      ⟨before, hRecords, hRegular⟩
    exact ⟨before, hRecords, fun record hRecord =>
      (hRegular record hRecord).level⟩
  · intro record hRecord
    rcases hResult : reading.result with error | schema
    · rcases hTells.failed error hResult with
        ⟨before, hRecords, hRegular⟩
      rw [hRecords] at hRecord
      rcases List.mem_append.mp hRecord with hMem | hLast
      · exact ⟨(hRegular record hMem).depth,
          (hRegular record hMem).trace⟩
      · rw [List.mem_singleton.mp hLast]
        simp [Diagnostics.error, Diagnostics.topLevel]
    · rcases hTells.succeeded schema hResult with
        ⟨hRegular, _⟩
      exact ⟨(hRegular record hRecord).depth,
        (hRegular record hRecord).trace⟩

/- A text with nested blocks, and the start of one. -/
theorem readText_accounted_nested :
    let schema : SchemaFile :=
      ⟨some .proto3,
        [⟨"M",
          [.enum ⟨"E", [⟨"A", 0⟩]⟩,
            .oneof ⟨"o", [⟨"x", "T", 1, false⟩]⟩,
            .field ⟨"y", "T", 16, true⟩]⟩]⟩
    let opening := "syntax=\"proto3\";message M\x7b// c\n"
    let text :=
      opening ++
        "enum E\x7bA=0;\x7doneof o\x7bT x=1;\x7d" ++
          "repeated T y=0x10;\x7d"
    let reading := readText text
    let broken := readText opening
    let error := ParseError.unexpectedEnd "body of message \"M\""
    reading.result = .ok schema ∧
      reading.records.filter (·.level = .debug) =
        [⟨.debug, 0, "Valid syntax declaration"⟩,
          ⟨.debug, 0, "Processing message \"M\""⟩,
          ⟨.debug, 1, "Processing enum \"E\""⟩,
          ⟨.debug, 2, "Value A = 0"⟩,
          ⟨.debug, 1, "Processing oneof \"o\""⟩,
          ⟨.debug, 2, "Field x is of type T (id = 1)"⟩,
          ⟨.debug, 1,
            "Field y is of type repeated T (id = 16)"⟩] ∧
      broken.result = .error error ∧
      (∃ before,
        broken.records =
            before ++ [⟨.error, 0, error.message⟩] ∧
          ∀ record ∈ before, record.level ≠ .error) := by
  intro schema opening text reading broken error
  have hReading : reading.result = .ok schema := by
    decide +kernel
  have hBroken : broken.result = .error error := by
    decide +kernel
  have hTold :=
    ((readText_accounted text).1 schema hReading).2
  refine ⟨hReading, ?_, hBroken,
    (readText_accounted opening).2.1 error hBroken⟩
  rw [hTold]
  decide +kernel

end ProtoSchema
