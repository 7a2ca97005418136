import ProtoSchema.Proofs.Checking.Validity

/-
  Lookups in a schema that passes the check. Whatever is
  declared is found under its own name, and nothing else is.

  Key definitions include:
    * `FieldPlace`
    * `Message.FieldAt`

  Main theorems:
    * `Message.mem_allFields_iff`
    * `Message.FieldAt.place_eq`
    * `Message.Valid.name_ne_of_fieldAt`
    * `Message.Valid.getField?_eq_none`
    * `SchemaFile.lookups_faithful`
-/

namespace ProtoSchema

------------------------------------------------------------
-- Distinct Entries
------------------------------------------------------------

section Distinct

variable {α β : Type}

/-
  The first entry of a key is the only one, if the keys of
  the entries are distinct.
-/
theorem find?_key_eq_some
    [DecidableEq β]
    {key : α → β}
    {entries : List α}
    {entry : α}
    (hNodup : (entries.map key).Nodup)
    (hMem : entry ∈ entries) :
    entries.find? (key · = key entry) = some entry := by
  induction entries with
  | nil => simp at hMem
  | cons first rest ih =>
      rw [List.map_cons, List.nodup_cons] at hNodup
      rcases List.mem_cons.mp hMem with rfl | hRest
      · simp
      · have hApart : key first ≠ key entry := by
          intro hKey
          rw [hKey] at hNodup
          exact hNodup.1 (List.mem_map_of_mem hRest)
        rw [List.find?_cons_of_neg (by simpa using hApart)]
        exact ih hNodup.2 hRest

/- Entries of one key stand at the same place. -/
theorem index_eq_of_nodup_map
    {key : α → β}
    {entries : List α}
    {first second : α}
    {i j : Nat}
    (hNodup : (entries.map key).Nodup)
    (hFirst : entries[i]? = some first)
    (hSecond : entries[j]? = some second)
    (hKey : key first = key second) : i = j := by
  rcases List.getElem?_eq_some_iff.mp hFirst with
    ⟨hLength, _⟩
  apply (List.getElem?_inj (by simpa using hLength)
    hNodup).mp
  simp [hFirst, hSecond, hKey]

/- What two entries hand on alike comes from one place. -/
theorem index_eq_of_nodup_flatMap
    {names : α → List β}
    {entries : List α}
    {first second : α}
    {name : β}
    {i j : Nat}
    (hNodup : (entries.flatMap names).Nodup)
    (hFirst : entries[i]? = some first)
    (hSecond : entries[j]? = some second)
    (hName : name ∈ names first)
    (hSame : name ∈ names second) : i = j := by
  have hApart := (List.nodup_flatMap.mp hNodup).2
  rw [List.pairwise_iff_getElem] at hApart
  rcases List.getElem?_eq_some_iff.mp hFirst with ⟨hi, rfl⟩
  rcases List.getElem?_eq_some_iff.mp hSecond with ⟨hj, rfl⟩
  rcases Nat.lt_trichotomy i j with h | h | h
  · exact absurd hSame (hApart i j hi hj h hName)
  · exact h
  · exact absurd hName (hApart j i hj hi h hSame)

end Distinct

------------------------------------------------------------
-- Places of Fields
------------------------------------------------------------

/-
  Where a field stands in a message: as one of the members,
  or as one of the alternatives of a member.
-/
inductive FieldPlace where
  | direct (member : Nat)
  | alternative
      (member : Nat)
      (index : Nat)
deriving DecidableEq, Repr

namespace FieldPlace

/- The member at which or in which the field stands. -/
def member : FieldPlace → Nat
  | direct member => member
  | alternative member _ => member

/- The position of the field among those of the member. -/
def index : FieldPlace → Nat
  | direct _ => 0
  | alternative _ index => index

end FieldPlace

namespace Message

variable {message : Message}

/- The field stands at the place in the message. -/
inductive FieldAt
    (message : Message) : FieldPlace → Field → Prop where
  | direct
      {member : Nat}
      {field : Field}
      (hMember :
        message.members[member]? = some (.field field)) :
      FieldAt message (.direct member) field
  | alternative
      {member index : Nat}
      {oneof : Oneof}
      {field : Field}
      (hMember :
        message.members[member]? = some (.oneof oneof))
      (hField : oneof.fields[index]? = some field) :
      FieldAt message (.alternative member index) field

/- A field that has a place is one of a member. -/
theorem FieldAt.exists_member
    {place : FieldPlace}
    {field : Field}
    (hField : message.FieldAt place field) :
    ∃ member,
      message.members[place.member]? = some member ∧
        member.fields[place.index]? = some field := by
  cases hField with
  | direct hMember => exact ⟨_, hMember, rfl⟩
  | alternative hMember hField =>
      exact ⟨_, hMember, hField⟩

/- The fields of a message are those that have a place. -/
theorem mem_allFields_iff {field : Field} :
    field ∈ message.allFields ↔
      ∃ place, message.FieldAt place field := by
  rw [Message.allFields, List.mem_flatMap]
  constructor
  · intro h
    rcases h with ⟨member, hMember, hField⟩
    rcases List.mem_iff_getElem?.mp hMember with
      ⟨position, hPosition⟩
    cases member with
    | field declared =>
        rw [Member.fields, List.mem_singleton] at hField
        subst hField
        exact ⟨_, .direct hPosition⟩
    | enum declared => simp [Member.fields] at hField
    | oneof declared =>
        rcases List.mem_iff_getElem?.mp hField with
          ⟨index, hIndex⟩
        exact ⟨_, .alternative hPosition hIndex⟩
  · intro h
    rcases h with ⟨place, hPlace⟩
    rcases hPlace.exists_member with
      ⟨member, hMember, hField⟩
    exact ⟨member, List.mem_of_getElem? hMember,
      List.mem_of_getElem? hField⟩

/-
  The place of a field is known from the member and from the
  position there, since a member is a field or a oneof.
-/
theorem FieldAt.eq_of_index
    {place other : FieldPlace}
    {field twin : Field}
    (hField : message.FieldAt place field)
    (hTwin : message.FieldAt other twin)
    (hMember : place.member = other.member)
    (hIndex : place.index = other.index) :
    place = other := by
  cases hField with
  | direct hField =>
      cases hTwin with
      | direct _ => exact congrArg _ hMember
      | alternative hTwin _ =>
          simp only [FieldPlace.member] at hMember
          simp [hMember, hTwin] at hField
  | alternative hField _ =>
      cases hTwin with
      | direct hTwin =>
          simp only [FieldPlace.member] at hMember
          simp [hMember, hTwin] at hField
      | alternative _ _ =>
          exact congrArg₂ _ hMember hIndex

/-
  If the fields of a message are told apart by a key, two
  places with fields of one key are the same place.
-/
theorem FieldAt.place_eq
    {κ : Type}
    {key : Field → κ}
    (hNodup : (message.allFields.map key).Nodup)
    {place other : FieldPlace}
    {field twin : Field}
    (hField : message.FieldAt place field)
    (hTwin : message.FieldAt other twin)
    (hKey : key field = key twin) : place = other := by
  rw [Message.allFields, List.map_flatMap] at hNodup
  rcases hField.exists_member with ⟨member, hMember, hIndex⟩
  rcases hTwin.exists_member with ⟨holder, hHolder, hOther⟩
  have hPosition : place.member = other.member :=
    index_eq_of_nodup_flatMap hNodup hMember hHolder
      (List.mem_map_of_mem (List.mem_of_getElem? hIndex))
      (hKey ▸
        List.mem_map_of_mem (List.mem_of_getElem? hOther))
  rw [hPosition, hHolder] at hMember
  cases hMember
  exact hField.eq_of_index hTwin hPosition
    (index_eq_of_nodup_map
      ((List.nodup_flatMap.mp hNodup).1 _
        (List.mem_of_getElem? hHolder))
      hIndex hOther hKey)

------------------------------------------------------------
-- Names
------------------------------------------------------------

/- The fields of a member are among those it names. -/
theorem name_mem_names
    {member : Member}
    {field : Field}
    (hField : field ∈ member.fields) :
    field.name ∈ member.names := by
  cases member with
  | field declared =>
      rw [Member.fields, List.mem_singleton] at hField
      simp [Member.names, hField]
  | enum declared => simp [Member.fields] at hField
  | oneof declared =>
      exact List.mem_cons_of_mem _ (List.mem_map_of_mem hField)

/- Fields are told apart by their names in a valid message. -/
theorem Valid.nodup_fieldNames
    (hValid : message.Valid) :
    (message.allFields.map (·.name)).Nodup := by
  have hNames :=
    message.perm_declaredNames.nodup_iff.mpr hValid.names
  refine hNames.sublist ?_
  rw [Message.allFields, List.map_flatMap]
  induction message.members with
  | nil => exact .slnil
  | cons member rest ih =>
      rw [List.flatMap_cons, List.flatMap_cons]
      refine List.Sublist.append ?_ ih
      cases member with
      | field declared => exact List.Sublist.refl _
      | enum declared => exact List.nil_sublist _
      | oneof declared => exact List.sublist_cons_self _ _

/-
  No field of a valid message has the name of one of its
  enums or oneofs.
-/
theorem Valid.name_ne_of_fieldAt
    (hValid : message.Valid)
    {member : Member}
    (hMember : member ∈ message.members)
    (hKind : ∀ declared, member ≠ .field declared)
    {place : FieldPlace}
    {field : Field}
    (hField : message.FieldAt place field) :
    field.name ≠ member.name := by
  intro hName
  have hNodup :=
    message.perm_declaredNames.nodup_iff.mpr hValid.names
  rcases List.mem_iff_getElem?.mp hMember with
    ⟨position, hPosition⟩
  rcases hField.exists_member with ⟨holder, hHolder, hIndex⟩
  have hFields := List.mem_of_getElem? hIndex
  have hNames : member.name ∈ holder.names :=
    hName ▸ name_mem_names hFields
  have hOwn : member.name ∈ member.names := by
    cases member <;> simp [Member.names, Member.name]
  -- The two clash unless the field stands inside the member.
  have hSame := index_eq_of_nodup_flatMap hNodup hPosition
    hHolder hOwn hNames
  rw [hSame, hHolder] at hPosition
  cases hPosition
  cases member with
  | field declared => exact hKind declared rfl
  | enum declared => simp [Member.fields] at hFields
  | oneof declared =>
      have hInside :=
        (List.nodup_flatMap.mp hNodup).1 _ hMember
      rw [Member.names, List.nodup_cons] at hInside
      apply hInside.1
      rw [Member.name] at hName
      rw [← hName]
      exact List.mem_map_of_mem hFields

------------------------------------------------------------
-- Lookups
------------------------------------------------------------

/- A field that is found stands in the message. -/
theorem fieldAt_of_getField?
    {name : String}
    {field : Field}
    (hFound : message.getField? name = some field) :
    field.name = name ∧
      ∃ place, message.FieldAt place field := by
  rw [Message.getField?] at hFound
  exact ⟨by simpa using List.find?_some hFound,
    mem_allFields_iff.mp (List.mem_of_find?_eq_some hFound)⟩

/- Neither an enum nor a oneof is found as a field. -/
theorem Valid.getField?_eq_none
    (hValid : message.Valid)
    {member : Member}
    (hMember : member ∈ message.members)
    (hKind : ∀ declared, member ≠ .field declared) :
    message.getField? member.name = none := by
  cases hFound : message.getField? member.name with
  | none => rfl
  | some field =>
      rcases fieldAt_of_getField? hFound with
        ⟨hName, place, hPlace⟩
      exact absurd hName
        (hValid.name_ne_of_fieldAt hMember hKind hPlace)

end Message

/-
  In a schema that passes the check, each message is found
  under its name and has it alone; each field of a message
  is found under its name, and shares neither its name nor
  its number; and no enum or oneof is found as a field. In
  any message, a field that is found has the name and stands
  in the body or in a oneof.
-/
theorem SchemaFile.lookups_faithful
    (schema : SchemaFile) :
    (schema.check = .ok () →
      (∀ index message,
        schema.messages[index]? = some message →
          schema.getMessage? message.name = some message ∧
            ∀ (other : Nat) (twin : Message),
              schema.messages[other]? = some twin →
                twin.name = message.name →
                  other = index) ∧
      ∀ message ∈ schema.messages,
        (∀ place field, message.FieldAt place field →
          message.getField? field.name = some field ∧
            ∀ (other : FieldPlace) (twin : Field),
              message.FieldAt other twin →
                twin.name = field.name ∨
                    twin.number = field.number →
                  other = place) ∧
          (∀ enum, .enum enum ∈ message.members →
            message.getField? enum.name = none) ∧
          ∀ oneof, .oneof oneof ∈ message.members →
            message.getField? oneof.name = none) ∧
    ∀ (message : Message) (name : String) (field : Field),
      message.getField? name = some field →
        field.name = name ∧
          ∃ place, message.FieldAt place field := by
  refine ⟨fun hCheck => ?_, fun message name field =>
    Message.fieldAt_of_getField?⟩
  have hSchema := schema.check_eq_ok_iff_valid.mp hCheck
  constructor
  · intro index message hMessage
    refine ⟨find?_key_eq_some hSchema.names
      (List.mem_of_getElem? hMessage), ?_⟩
    intro other twin hTwin hName
    exact index_eq_of_nodup_map hSchema.names hTwin hMessage
      hName
  · intro message hMessage
    have hValid := hSchema.messages message hMessage
    refine ⟨?_, ?_, ?_⟩
    · intro place field hField
      have hMem := Message.mem_allFields_iff.mpr ⟨place, hField⟩
      refine ⟨find?_key_eq_some hValid.nodup_fieldNames hMem,
        ?_⟩
      intro other twin hTwin hKey
      rcases hKey with hName | hNumber
      · exact hTwin.place_eq hValid.nodup_fieldNames hField
          hName
      · exact hTwin.place_eq hValid.numbers hField hNumber
    · intro enum hEnum
      exact hValid.getField?_eq_none hEnum (by simp)
    · intro oneof hOneof
      exact hValid.getField?_eq_none hOneof (by simp)

/- An alternative is found as the members beside it are. -/
theorem SchemaFile.lookups_faithful_alternative :
    let message : Message :=
      ⟨"A",
        [.oneof ⟨"c", [⟨"b", "int32", 2, false⟩]⟩,
          .enum ⟨"E", []⟩,
          .field ⟨"a", "E", 1, false⟩]⟩
    let schema : SchemaFile := ⟨some .proto3, [message]⟩
    schema.check = .ok () ∧
      message.getField? "b" =
        some ⟨"b", "int32", 2, false⟩ ∧
      message.getField? "E" = none := by
  intro message schema
  have hCheck : schema.check = .ok () := by decide
  have hMember : .enum ⟨"E", []⟩ ∈ message.members := by
    decide
  have hFound := ((lookups_faithful schema).1 hCheck).2
    message List.mem_cons_self
  have hPlace : message.FieldAt (.alternative 0 0)
      ⟨"b", "int32", 2, false⟩ :=
    .alternative rfl rfl
  exact ⟨hCheck, (hFound.1 _ _ hPlace).1,
    hFound.2.1 _ hMember⟩

end ProtoSchema
