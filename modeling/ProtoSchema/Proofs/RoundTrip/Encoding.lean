import ProtoSchema.Proofs.Json.Variation
import ProtoSchema.Schema.Json

/-
  The JSON form of a schema loses nothing: both of its texts
  are read as the schema, whatever the schema holds, and so
  is a text with the entries of objects in another order,
  with entries that no declaration has, and with blanks
  anywhere between the tokens.

  Main theorems:
    * `Field.ofJson?_of_varies`
    * `Enum.ofJson?_of_varies`
    * `Oneof.ofJson?_of_varies`
    * `Member.ofJson?_of_varies`
    * `Message.ofJson?_of_varies`
    * `SchemaFile.ofJson?_of_varies`
    * `SchemaFile.ofJsonText?_encoded`
-/

namespace ProtoSchema

open Json

------------------------------------------------------------
-- Parts of Declarations
------------------------------------------------------------

theorem inRange_toInt (number : Int64) :
    InRange number.toInt :=
  ⟨number.minValue_le_toInt, number.toInt_le⟩

theorem Json.int64?_toInt (number : Int64) :
    Json.int64? (.int number.toInt) = some number := by
  have hRange := inRange_toInt number
  rw [InRange] at hRange
  rw [Json.int64?, Numeral.int64?, if_pos hRange,
    Int64.ofInt_toInt]

/- A list is read item by item. -/
theorem listOf?_of_varies
    {α : Type}
    {toJson : α → Json}
    {item? : Json → Option α}
    (hItem :
      ∀ {a json'}, Varies (toJson a) json' →
        item? json' = some a)
    {as : List α}
    {json' : Json}
    (hVaries : Varies (.arr (as.map toJson)) json') :
    json'.listOf? item? = some as := by
  cases hVaries with
  | scalar hScalar => exact absurd hScalar id
  | @list _ items' hItems =>
      have hAll : items'.mapM item? = some as := by
        induction as generalizing items' with
        | nil =>
            cases hItems
            rfl
        | cons a rest ih =>
            cases hItems with
            | cons hFirst hRest =>
                rw [List.mapM_cons, hItem hFirst, ih hRest]
                rfl
      exact hAll

/-
  A declaration of a name and a list has both in every
  variation of it.
-/
theorem record?_of_named
    {key name : String}
    (hKey : "name" ≠ key)
    {list json' : Json}
    (hVaries :
      Varies (.obj [("name", .str name), (key, list)])
        json') :
    ∃ list',
      json'.record? ["name", key] =
          some [some (.str name), some list'] ∧
        Varies list list' := by
  have hKeys :
      (keysOf [("name", .str name), (key, list)]).Nodup := by
    simp [keysOf, hKey]
  rcases hVaries.exists_values hKeys with
    ⟨values, hRecord, hValues⟩
  cases hValues with
  | cons hName hRest =>
      cases hRest with
      | @cons _ list' _ _ hList hNil =>
          cases hNil
          cases hName.eq_of_isScalar trivial
          exact ⟨list', hRecord, hList⟩

------------------------------------------------------------
-- Fields and Values
------------------------------------------------------------

theorem Field.isScalar_entries (field : Field) :
    ∀ entry ∈ field.entries, entry.2.IsScalar := by
  simp [Field.entries, IsScalar, inRange_toInt]

/-
  A declaration is read from every variation of its JSON
  form.
-/
theorem Field.ofJson?_of_varies
    {field : Field}
    {json' : Json}
    (hVaries : Varies field.toJson json') :
    Field.ofJson? json' = some field := by
  have hKeys : (keysOf field.entries).Nodup := by
    simp [keysOf, Field.entries]
  rcases hVaries.exists_values hKeys with
    ⟨values, hRecord, hValues⟩
  have hScalar :
      ∀ value ∈ field.entries.map (·.2), value.IsScalar := by
    intro value hMem
    rcases List.mem_map.mp hMem with ⟨entry, hEntry, rfl⟩
    exact field.isScalar_entries entry hEntry
  cases hValues.eq_of_isScalar hScalar
  simp only [keysOf, Field.entries, List.map_cons,
    List.map_nil] at hRecord
  simp [Field.ofJson?, hRecord, Json.string?, Json.bool?,
    Json.int64?_toInt]

theorem EnumValue.ofJson?_of_varies
    {value : EnumValue}
    {json' : Json}
    (hVaries : Varies value.toJson json') :
    EnumValue.ofJson? json' = some value := by
  rcases record?_of_named (by decide) hVaries with
    ⟨number, hRecord, hNumber⟩
  cases hNumber.eq_of_isScalar (inRange_toInt value.value)
  simp [EnumValue.ofJson?, hRecord, Json.string?,
    Json.int64?_toInt]

------------------------------------------------------------
-- Members
------------------------------------------------------------

theorem Enum.ofJson?_of_varies
    {enum : Enum}
    {json' : Json}
    (hVaries : Varies (.obj enum.entries) json') :
    Enum.ofJson? json' = some enum := by
  rcases record?_of_named (by decide) hVaries with
    ⟨list, hRecord, hList⟩
  have hValues :=
    listOf?_of_varies EnumValue.ofJson?_of_varies hList
  simp [Enum.ofJson?, hRecord, Json.string?, hValues]

theorem Oneof.ofJson?_of_varies
    {oneof : Oneof}
    {json' : Json}
    (hVaries : Varies (.obj oneof.entries) json') :
    Oneof.ofJson? json' = some oneof := by
  rcases record?_of_named (by decide) hVaries with
    ⟨list, hRecord, hList⟩
  have hFields :=
    listOf?_of_varies Field.ofJson?_of_varies hList
  simp [Oneof.ofJson?, hRecord, Json.string?, hFields]

/-
  A member is read by its kind from its other parts, in
  whatever order they stand with the kind.
-/
theorem Member.ofJson?_tagged
    {kind : String}
    {parts : List (String × Json)}
    {json' : Json}
    (hKind : "kind" ∉ keysOf parts)
    (hFits :
      Fits Member.maxDepth
        (.obj (("kind", .str kind) :: parts)))
    (hVaries :
      Varies (.obj (("kind", .str kind) :: parts)) json') :
    ∃ parts',
      Varies (.obj parts) parts' ∧
        Member.ofJson? json' =
          Member.ofKind? kind parts' := by
  rcases hVaries.fits hFits with ⟨hUsable, hDepth⟩
  rcases hVaries.peel hKind with
    ⟨value, entries', rfl, hFound, hValue, hParts⟩
  cases hValue.eq_of_isScalar trivial
  refine ⟨_, hParts, ?_⟩
  simp [Member.ofJson?, hUsable, hDepth, hFound,
    Json.string?]

theorem Field.fits
    (field : Field)
    {bound : Nat}
    (hBound : 0 < bound) : Fits bound field.toJson := by
  refine fits_obj.mpr ⟨hBound, ?_⟩
  intro entry hMem
  exact (field.isScalar_entries entry hMem).fits _

theorem EnumValue.fits
    (value : EnumValue)
    {bound : Nat}
    (hBound : 0 < bound) : Fits bound value.toJson := by
  refine fits_obj.mpr ⟨hBound, ?_⟩
  simp only [List.forall_mem_cons]
  refine ⟨?_, ?_, fun _ hMem => nomatch hMem⟩
  · exact ⟨rfl, Nat.zero_le _⟩
  · exact ⟨rfl, Nat.zero_le _⟩

theorem fits_map
    {α : Type}
    {toJson : α → Json}
    {bound : Nat}
    (hBound : 0 < bound)
    (hItem : ∀ a, Fits (bound - 1) (toJson a))
    (as : List α) :
    Fits bound (.arr (as.map toJson)) := by
  refine fits_arr.mpr ⟨hBound, ?_⟩
  intro item hMem
  rcases List.mem_map.mp hMem with ⟨a, _, rfl⟩
  exact hItem a

/- A member is never too deep for its reader. -/
theorem Member.fits (member : Member) :
    Fits Member.maxDepth member.toJson := by
  cases member with
  | field declared =>
      refine fits_obj.mpr ⟨by decide, ?_⟩
      refine List.forall_mem_cons.mpr ⟨?_, ?_⟩
      · exact ⟨rfl, Nat.zero_le _⟩
      · intro entry hMem
        exact (declared.isScalar_entries entry hMem).fits _
  | enum declared =>
      refine fits_obj.mpr ⟨by decide, ?_⟩
      simp only [Enum.entries, List.forall_mem_cons]
      refine ⟨?_, ?_, ?_, fun _ hMem => nomatch hMem⟩
      · exact ⟨rfl, Nat.zero_le _⟩
      · exact ⟨rfl, Nat.zero_le _⟩
      · exact fits_map (by decide)
          (fun value => value.fits (by decide)) _
  | oneof declared =>
      refine fits_obj.mpr ⟨by decide, ?_⟩
      simp only [Oneof.entries, List.forall_mem_cons]
      refine ⟨?_, ?_, ?_, fun _ hMem => nomatch hMem⟩
      · exact ⟨rfl, Nat.zero_le _⟩
      · exact ⟨rfl, Nat.zero_le _⟩
      · exact fits_map (by decide)
          (fun field => field.fits (by decide)) _

theorem Member.ofJson?_of_varies
    {member : Member}
    {json' : Json}
    (hVaries : Varies member.toJson json') :
    Member.ofJson? json' = some member := by
  cases member with
  | field declared =>
      rcases Member.ofJson?_tagged
          (by simp [keysOf, Field.entries])
          (Member.field declared).fits hVaries with
        ⟨parts, hParts, hRead⟩
      have hField : Field.ofJson? parts = some declared :=
        Field.ofJson?_of_varies hParts
      simp [hRead, Member.ofKind?, hField]
  | enum declared =>
      rcases Member.ofJson?_tagged
          (by simp [keysOf, Enum.entries])
          (Member.enum declared).fits hVaries with
        ⟨parts, hParts, hRead⟩
      have hEnum := Enum.ofJson?_of_varies hParts
      simp [hRead, Member.ofKind?, hEnum]
  | oneof declared =>
      rcases Member.ofJson?_tagged
          (by simp [keysOf, Oneof.entries])
          (Member.oneof declared).fits hVaries with
        ⟨parts, hParts, hRead⟩
      have hOneof := Oneof.ofJson?_of_varies hParts
      simp [hRead, Member.ofKind?, hOneof]

------------------------------------------------------------
-- Messages and Schemas
------------------------------------------------------------

theorem Message.ofJson?_of_varies
    {message : Message}
    {json' : Json}
    (hVaries : Varies message.toJson json') :
    Message.ofJson? json' = some message := by
  rcases record?_of_named (by decide) hVaries with
    ⟨list, hRecord, hList⟩
  have hMembers :=
    listOf?_of_varies Member.ofJson?_of_varies hList
  simp [Message.ofJson?, hRecord, Json.string?, hMembers]

theorem versionOfJson?_toJson
    (version : Option SyntaxVersion) :
    versionOfJson? (versionToJson version) =
      some version := by
  cases version with
  | none => rfl
  | some version =>
      cases version
      simp [versionToJson, versionOfJson?,
        SyntaxVersion.ofName?]

theorem isScalar_versionToJson
    (version : Option SyntaxVersion) :
    (versionToJson version).IsScalar := by
  cases version <;> exact trivial

theorem SchemaFile.ofJson?_of_varies
    {schema : SchemaFile}
    {json' : Json}
    (hVaries : Varies schema.toJson json') :
    SchemaFile.ofJson? json' = some schema := by
  rcases hVaries.exists_values (by simp [keysOf]) with
    ⟨values, hRecord, hValues⟩
  cases hValues with
  | cons hVersion hRest =>
      cases hRest with
      | cons hMessages hNil =>
          cases hNil
          cases hVersion.eq_of_isScalar
            (isScalar_versionToJson _)
          have hList := listOf?_of_varies
            Message.ofJson?_of_varies hMessages
          simp only [keysOf, List.map_cons, List.map_nil]
            at hRecord
          simp [SchemaFile.ofJson?, hRecord, hList,
            versionOfJson?_toJson]

------------------------------------------------------------
-- Written Schemas
------------------------------------------------------------

theorem itemsPlain_map
    {α : Type}
    {toJson : α → Json}
    (hItem : ∀ a, (toJson a).IsPlain)
    (as : List α) : ItemsPlain (as.map toJson) := by
  induction as with
  | nil => exact trivial
  | cons a rest ih => exact ⟨hItem a, ih⟩

theorem Field.isPlain (field : Field) :
    field.toJson.IsPlain :=
  ⟨trivial, trivial, inRange_toInt field.number, trivial,
    trivial⟩

theorem EnumValue.isPlain (value : EnumValue) :
    value.toJson.IsPlain :=
  ⟨trivial, inRange_toInt value.value, trivial⟩

theorem Member.isPlain (member : Member) :
    member.toJson.IsPlain := by
  cases member with
  | field declared => exact ⟨trivial, declared.isPlain⟩
  | enum declared =>
      have hValues : ItemsPlain
          (declared.values.map EnumValue.toJson) :=
        itemsPlain_map EnumValue.isPlain declared.values
      exact ⟨trivial, trivial, hValues, trivial⟩
  | oneof declared =>
      have hFields : ItemsPlain
          (declared.fields.map Field.toJson) :=
        itemsPlain_map Field.isPlain declared.fields
      exact ⟨trivial, trivial, hFields, trivial⟩

theorem Message.isPlain (message : Message) :
    message.toJson.IsPlain := by
  have hMembers : ItemsPlain
      (message.members.map Member.toJson) :=
    itemsPlain_map Member.isPlain message.members
  exact ⟨trivial, hMembers, trivial⟩

/- All that a schema holds has a written form. -/
theorem SchemaFile.isPlain (schema : SchemaFile) :
    schema.toJson.IsPlain := by
  have hVersion : (versionToJson schema.version).IsPlain := by
    cases schema.version <;> exact trivial
  have hMessages : ItemsPlain
      (schema.messages.map Message.toJson) :=
    itemsPlain_map Message.isPlain schema.messages
  exact ⟨hVersion, hMessages, trivial⟩

------------------------------------------------------------
-- Round Trip
------------------------------------------------------------

/- A text with the tokens of a variation of a schema. -/
theorem SchemaFile.ofJsonText?_of_spaced
    {schema : SchemaFile}
    {json : Json}
    {text : String}
    (hVaries : Varies schema.toJson json)
    (hSpaced : Spaced (tokensOf json) text.toList) :
    SchemaFile.ofJsonText? text = some schema := by
  simp [SchemaFile.ofJsonText?, read?_of_spaced hSpaced,
    SchemaFile.ofJson?_of_varies hVaries]

/-
  Both JSON texts of a schema are the tokens of its JSON
  form with blanks between them. They are read as the
  schema, and so is every text of the tokens, blanks
  anywhere between them, of a variation of that form.
-/
theorem SchemaFile.ofJsonText?_encoded
    (schema : SchemaFile) :
    (Spaced (tokensOf schema.toJson)
          schema.toCompact.toList ∧
        Spaced (tokensOf schema.toJson)
          schema.toPretty.toList) ∧
      (SchemaFile.ofJsonText? schema.toCompact =
          some schema ∧
        SchemaFile.ofJsonText? schema.toPretty =
          some schema) ∧
      ∀ json text,
        Varies schema.toJson json →
          Spaced (tokensOf json) text.toList →
            SchemaFile.ofJsonText? text = some schema := by
  have hSelf := varies_self schema.toJson schema.isPlain
  have hCompact := spaced_compact schema.isPlain
  have hPretty := spaced_pretty schema.isPlain
  refine ⟨⟨hCompact, hPretty⟩, ⟨?_, ?_⟩, ?_⟩
  · exact SchemaFile.ofJsonText?_of_spaced hSelf hCompact
  · exact SchemaFile.ofJsonText?_of_spaced hSelf hPretty
  · intro json text hVaries hSpaced
    exact SchemaFile.ofJsonText?_of_spaced hVaries hSpaced

/- A field with the least number and an escaped name. -/
def escapedField : Field :=
  ⟨"a\n😀", "T", Int64.minValue, true⟩

/- A message of this field. -/
def escapedMessage : Message :=
  ⟨"M", [.field escapedField]⟩

/- The field with its kind at the end and a further entry. -/
def reversedField : Json :=
  .obj
    [("note", .str "\""), ("repeated", .bool true),
      ("number", .int (-9223372036854775808)),
      ("type_name", .str "T"),
      ("name", .str "a\n😀"), ("kind", .str "field")]

def reversedMessage : Json :=
  .obj
    [("note", .int (-1)), ("members", .arr [reversedField]),
      ("name", .str "M")]

def reversedSchema : Json :=
  .obj
    [("note", .null), ("messages", .arr [reversedMessage]),
      ("syntax", .str "proto3")]

/- The further entry stands in front of the reversed ones. -/
theorem varies_reversed
    {entries kept : List (String × Json)}
    {key : String}
    {value : Json}
    (hKept : EntriesVary entries kept)
    (hKey : key ∉ keysOf entries)
    (hScalar : value.IsScalar) :
    Varies (.obj entries)
      (.obj ((key, value) :: kept.reverse)) := by
  have hOrder :
      ((key, value) :: kept.reverse).Perm
        (kept ++ [(key, value)]) := by
    rw [← List.reverse_concat]
    exact List.reverse_perm _
  refine .object hKept ?_ ?_ hOrder
  · simpa using hKey
  · simpa using hScalar

theorem reversedSchema_varies :
    Varies
      (SchemaFile.toJson ⟨some .proto3, [escapedMessage]⟩)
      reversedSchema := by
  have hField :
      Varies (Member.field escapedField).toJson
        reversedField :=
    varies_reversed
      (entriesVary_self _ (Member.field escapedField).isPlain)
      (by decide) trivial
  have hMessage :
      Varies escapedMessage.toJson reversedMessage :=
    varies_reversed
      (.cons (varies_self (.str "M") trivial)
        (.cons (.list (.cons hField .nil)) .nil))
      (by decide) ⟨by decide, by decide⟩
  exact varies_reversed
    (.cons (varies_self (.str "proto3") trivial)
      (.cons (.list (.cons hMessage .nil)) .nil))
    (by decide) trivial

theorem reversedSchema_isPlain :
    reversedSchema.IsPlain := by
  have hNumber : InRange (-9223372036854775808) :=
    ⟨by decide, by decide⟩
  have hField : reversedField.IsPlain :=
    ⟨trivial, trivial, hNumber, trivial, trivial, trivial,
      trivial⟩
  have hMessage : reversedMessage.IsPlain :=
    ⟨⟨by decide, by decide⟩, ⟨hField, trivial⟩, trivial,
      trivial⟩
  exact ⟨trivial, ⟨hMessage, trivial⟩, trivial, trivial⟩

theorem SchemaFile.ofJsonText?_encoded_reversed :
    Varies
        (SchemaFile.toJson ⟨some .proto3, [escapedMessage]⟩)
        reversedSchema ∧
      Spaced (tokensOf reversedSchema)
        reversedSchema.pretty.toList ∧
      SchemaFile.ofJsonText? reversedSchema.pretty =
        some ⟨some .proto3, [escapedMessage]⟩ := by
  have hSpaced := spaced_pretty reversedSchema_isPlain
  exact ⟨reversedSchema_varies, hSpaced,
    (SchemaFile.ofJsonText?_encoded _).2.2 _ _
      reversedSchema_varies hSpaced⟩

end ProtoSchema
