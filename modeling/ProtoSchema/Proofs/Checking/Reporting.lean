import ProtoSchema.Proofs.Checking.Failure

/-
  What a failing check reports. The violation is one that
  the schema has, and it is the first in the order of the
  check: message by message, the name of a message before
  its members, and the members before the numbers.

  Key definitions include:
    * `Violation.Genuine`
    * `Message.Reports`
    * `SchemaFile.FailsAt`

  Main theorems:
    * `Message.check_eq_error_iff`
    * `Message.Reports.genuine`
    * `SchemaFile.check_eq_error_iff`
    * `SchemaFile.check_reports_first`
-/

namespace ProtoSchema

------------------------------------------------------------
-- Genuine Violations
------------------------------------------------------------

/-
  The schema breaks the rule that the violation names, at
  the place that it names. A name or number is duplicate in
  a list if it stands there at least twice.
-/
def Violation.Genuine
    (schema : SchemaFile) : Violation → Prop
  | .duplicateMessage name =>
      (schema.messages.map (·.name)).Duplicate name
  | .duplicateMember message name =>
      ∃ declared ∈ schema.messages,
        declared.name = message ∧
          declared.declaredNames.Duplicate name
  | .duplicateFieldNumber message number =>
      ∃ declared ∈ schema.messages,
        declared.name = message ∧
          (declared.allFields.map (·.number)).Duplicate
            number ∧
          ∀ field ∈ declared.allFields,
            field.number = number → field.InRange
  | .invalidFieldNumber message name number =>
      ∃ declared ∈ schema.messages,
        declared.name = message ∧
          ∃ field ∈ declared.allFields,
            field.name = name ∧ field.number = number ∧
              ¬ field.InRange
  | .duplicateEnumValue name value =>
      ∃ declared ∈ schema.messages,
        ∃ enum ∈ declared.enums,
          enum.name = name ∧
            (enum.values.map (·.name)).Duplicate value
  | .firstEnumValueNotZero name =>
      ∃ declared ∈ schema.messages,
        ∃ enum ∈ declared.enums,
          enum.name = name ∧
            ∃ first ∈ enum.values.head?, first.value ≠ 0

------------------------------------------------------------
-- Messages
------------------------------------------------------------

/-
  What is reported about a message that stands behind others
  of the names `earlier`. Its own name comes before anything
  in its body, and the names and enums of the body come
  before the numbers. Of the members, and of the fields, it
  is the first at fault that is reported.
-/
inductive Message.Reports
    (earlier : List String)
    (message : Message) : Violation → Prop where
  | name
      (hClash : message.name ∈ earlier) :
      Reports earlier message
        (.duplicateMessage message.name)
  | member
      {before after : List Member}
      {member : Member}
      {violation : Violation}
      (hFree : message.name ∉ earlier)
      (hMembers : message.members = before ++ member :: after)
      (hNames : (before.flatMap Member.names).Nodup)
      (hEnums :
        ∀ enum, .enum enum ∈ before → enum.Valid)
      (hMember :
        member.Reports message.name
          (before.flatMap Member.names) violation) :
      Reports earlier message violation
  | number
      {before after : List Field}
      {field : Field}
      {violation : Violation}
      (hFree : message.name ∉ earlier)
      (hNames : message.declaredNames.Nodup)
      (hEnums : ∀ enum ∈ message.enums, enum.Valid)
      (hFields :
        message.allFields = before ++ field :: after)
      (hRange : ∀ field ∈ before, field.InRange)
      (hNumbers : (before.map (·.number)).Nodup)
      (hField :
        field.Reports message.name
          (before.map (·.number)) violation) :
      Reports earlier message violation

namespace Message

variable {message : Message}
variable {violation : Violation}

theorem mem_enums_iff {enum : Enum} :
    enum ∈ message.enums ↔ .enum enum ∈ message.members := by
  simp only [Message.enums, List.mem_filterMap]
  constructor
  · intro h
    rcases h with ⟨member, hMember, hCase⟩
    cases member with
    | field declared => simp at hCase
    | oneof declared => simp at hCase
    | enum declared =>
        simp only [Option.some.injEq] at hCase
        exact hCase ▸ hMember
  · intro h
    exact ⟨_, h, rfl⟩

/- The members pass on their own if the enums are valid. -/
theorem forall_check_iff
    {members : List Member} :
    (∀ member ∈ members, member.check = .ok ()) ↔
      ∀ enum, .enum enum ∈ members → enum.Valid := by
  simpa only [mem_enums_iff] using
    Message.members_check_iff ⟨"", members⟩

/- The members of a message fail at the first at fault. -/
theorem checkMembers_eq_error_iff :
    checkMembers message.name [] message.members =
        .error violation ↔
      ∃ before member after,
        message.members = before ++ member :: after ∧
          ((before.flatMap Member.names).Nodup ∧
            ∀ enum, .enum enum ∈ before → enum.Valid) ∧
            member.Reports message.name
              (before.flatMap Member.names) violation := by
  have hSame : ∀ (before : List Member) name,
      name ∈ (before.flatMap Member.names).reverse ++ [] ↔
        name ∈ before.flatMap Member.names := by
    simp
  refine exists_first_failure_iff rfl
    (checkMembers_append message.name []) ?_ ?_
  · intro before
    simp only [checkMembers_eq_ok_iff, forall_check_iff,
      List.disjoint_nil_right, true_and]
  · intro before member
    rw [checkMembers_singleton]
    exact ⟨.congr (hSame before),
      .congr fun name => (hSame before name).symm⟩

/- The fields of a message fail at the first at fault. -/
theorem checkNumbers_eq_error_iff :
    checkNumbers message.name [] message.allFields =
        .error violation ↔
      ∃ before field after,
        message.allFields = before ++ field :: after ∧
          ((∀ field ∈ before, field.InRange) ∧
            (before.map (·.number)).Nodup) ∧
            field.Reports message.name
              (before.map (·.number)) violation := by
  have hSame : ∀ (before : List Field) number,
      number ∈ (before.map (·.number)).reverse ++ [] ↔
        number ∈ before.map (·.number) := by
    simp
  refine exists_first_failure_iff rfl
    (checkNumbers_append message.name []) ?_ ?_
  · intro before
    simp only [checkNumbers_eq_ok_iff,
      List.disjoint_nil_right, and_true]
  · intro before field
    rw [checkNumbers_singleton]
    exact ⟨.congr (hSame before),
      .congr fun number => (hSame before number).symm⟩

/-
  A message with a name of its own fails as it is reported.
-/
theorem check_eq_error_iff
    {earlier : List String}
    (hFree : message.name ∉ earlier) :
    message.check = .error violation ↔
      message.Reports earlier violation := by
  rw [Message.check, check_seq_eq_error_iff,
    checkMembers_eq_error_iff, checkNumbers_eq_error_iff,
    checkMembers_eq_ok_iff, message.members_check_iff,
    message.perm_declaredNames.nodup_iff]
  simp only [List.disjoint_nil_right, true_and]
  constructor
  · intro h
    rcases h with
      ⟨before, member, after, hMembers, ⟨hNames, hEnums⟩,
          hMember⟩ |
        ⟨⟨hNames, hEnums⟩, before, field, after, hFields,
          ⟨hRange, hNumbers⟩, hField⟩
    · exact .member hFree hMembers hNames hEnums hMember
    · exact .number hFree hNames hEnums hFields hRange
        hNumbers hField
  · intro h
    cases h with
    | name hClash => exact absurd hClash hFree
    | member _ hMembers hNames hEnums hMember =>
        exact .inl
          ⟨_, _, _, hMembers, ⟨hNames, hEnums⟩, hMember⟩
    | number _ hNames hEnums hFields hRange hNumbers
        hField =>
        exact .inr ⟨⟨hNames, hEnums⟩, _, _, _, hFields,
          ⟨hRange, hNumbers⟩, hField⟩

end Message

/- One message is checked as it is reported. -/
theorem checkMessages_singleton
    {claimed : List String}
    {message : Message}
    {violation : Violation} :
    checkMessages claimed [message] = .error violation ↔
      message.Reports claimed violation := by
  by_cases hClash : message.name ∈ claimed
  · simp only [checkMessages, claimNames, hClash,
      List.contains_eq_mem, decide_true, if_true]
    constructor
    · intro h
      cases h
      exact .name hClash
    · intro h
      cases h with
      | name _ => rfl
      | member hFree => exact absurd hClash hFree
      | number hFree => exact absurd hClash hFree
  · rw [← Message.check_eq_error_iff hClash]
    simp only [checkMessages, claimNames, hClash,
      List.contains_eq_mem, decide_false,
      Bool.false_eq_true, if_false]
    cases message.check <;> simp [bind, Except.bind]

/- The names of the messages before are claimed. -/
theorem checkMessages_append
    (claimed : List String)
    (before after : List Message) :
    checkMessages claimed (before ++ after) =
      checkMessages claimed before >>= fun _ =>
        checkMessages
          ((before.map (·.name)).reverse ++ claimed)
          after := by
  induction before generalizing claimed with
  | nil => rfl
  | cons message rest ih =>
      rw [List.cons_append, checkMessages, checkMessages]
      cases hNames : claimNames .duplicateMessage claimed
          [message.name] with
      | error violation => rfl
      | ok all =>
          rcases claimNames_eq_ok_iff.mp hNames with
            ⟨_, _, rfl⟩
          cases hMessage : message.check with
          | error violation => rfl
          | ok =>
              simpa [bind, Except.bind] using
                ih ([message.name].reverse ++ claimed)

------------------------------------------------------------
-- Schemas
------------------------------------------------------------

namespace Message.Reports

variable {message : Message}
variable {violation : Violation}

/- Only which names are declared earlier is of interest. -/
theorem congr
    {earlier others : List String}
    (hSame : ∀ name, name ∈ earlier ↔ name ∈ others)
    (hReports : message.Reports earlier violation) :
    message.Reports others violation := by
  cases hReports with
  | name hClash => exact .name ((hSame _).mp hClash)
  | member hFree hMembers hNames hEnums hMember =>
      exact .member (by rwa [← hSame]) hMembers hNames hEnums
        hMember
  | number hFree hNames hEnums hFields hRange hNumbers
      hField =>
      exact .number (by rwa [← hSame]) hNames hEnums hFields
        hRange hNumbers hField

/-
  What is reported about a message behind those before it is
  a genuine violation of the schema.
-/
theorem genuine
    {schema : SchemaFile}
    {before after : List Message}
    (hMessages :
      schema.messages = before ++ message :: after)
    (hReports :
      message.Reports (before.map (·.name)) violation) :
    violation.Genuine schema := by
  have hMem : message ∈ schema.messages := by
    simp [hMessages]
  cases hReports with
  | name hClash =>
      have hTwice := duplicate_append_cons hClash
        (after.map (·.name))
      simpa [Violation.Genuine, hMessages] using hTwice
  | @member first rest member _ _ hMembers _ _ hMember =>
      cases hMember with
      | name hName =>
          have hTwice :=
            hName.duplicate (rest.flatMap Member.names)
          have hPerm := message.perm_declaredNames
          simp only [hMembers, List.flatMap_append,
            List.flatMap_cons] at hPerm
          refine ⟨message, hMem, rfl, ?_⟩
          rw [List.duplicate_iff_two_le_count] at hTwice ⊢
          rw [← hPerm.count_eq]
          simpa using hTwice
      | @enum declared _ _ hInside =>
          have hEnum : declared ∈ message.enums := by
            simp [Message.mem_enums_iff, hMembers]
          cases hInside with
          | first hHead hFirst =>
              exact ⟨message, hMem, declared, hEnum, rfl, _,
                hHead, hFirst⟩
          | value _ hName =>
              have hTwice := hName.duplicate []
              exact ⟨message, hMem, declared, hEnum, rfl,
                by simpa using hTwice⟩
  | @number first rest field _ _ _ _ hFields _ _ hField =>
      have hField' : field ∈ message.allFields := by
        simp [hFields]
      cases hField with
      | invalid hRange =>
          exact ⟨message, hMem, rfl, field, hField', rfl,
            rfl, hRange⟩
      | duplicate hRange hTaken =>
          have hTwice := duplicate_append_cons hTaken
            (rest.map (·.number))
          refine ⟨message, hMem, rfl, ?_, ?_⟩
          · simpa [hFields] using hTwice
          · intro other _ hNumber
            rw [Field.InRange, hNumber]
            exact hRange

end Message.Reports

namespace SchemaFile

variable {schema : SchemaFile}
variable {violation : Violation}

/- The schema with no more than its first messages. -/
def cut
    (schema : SchemaFile)
    (count : Nat) : SchemaFile :=
  ⟨schema.version, schema.messages.take count⟩

/- The schema with further messages at its end. -/
def extend
    (schema : SchemaFile)
    (further : List Message) : SchemaFile :=
  ⟨schema.version, schema.messages ++ further⟩

/-
  The violation is reported as soon as the message behind
  the first `count` is there, and those pass.
-/
def FailsAt
    (schema : SchemaFile)
    (violation : Violation)
    (count : Nat) : Prop :=
  (schema.cut count).check = .ok () ∧
    (schema.cut (count + 1)).check = .error violation

/- A schema fails at the first message at fault. -/
theorem check_eq_error_iff :
    schema.check = .error violation ↔
      ∃ before message after,
        schema.messages = before ++ message :: after ∧
          checkMessages [] before = .ok () ∧
            message.Reports (before.map (·.name))
              violation := by
  have hSame : ∀ (before : List Message) name,
      name ∈ (before.map (·.name)).reverse ++ [] ↔
        name ∈ before.map (·.name) := by
    simp
  rw [SchemaFile.check]
  refine exists_first_failure_iff rfl
    (checkMessages_append []) (fun _ => Iff.rfl) ?_
  intro before message
  rw [checkMessages_singleton]
  exact ⟨.congr (hSame before),
    .congr fun name => (hSame before name).symm⟩

/- Messages behind those that fail change nothing. -/
theorem check_extend_eq_error
    (hCheck : schema.check = .error violation)
    (further : List Message) :
    (schema.extend further).check = .error violation := by
  rw [SchemaFile.check, extend, checkMessages_append]
  rw [SchemaFile.check] at hCheck
  rw [hCheck]
  rfl

/- A schema fails with any part of it that fails. -/
theorem check_cut_eq_error
    {count more : Nat}
    (hCount : count ≤ more)
    (hCheck : (schema.cut count).check = .error violation) :
    (schema.cut more).check = .error violation := by
  rcases List.take_prefix_take_left (l := schema.messages)
      hCount with ⟨further, hMore⟩
  have hExtend := check_extend_eq_error hCheck further
  rwa [extend, cut, hMore] at hExtend

/- A schema fails at no more than one message. -/
theorem FailsAt.eq
    {count other : Nat}
    (hCount : schema.FailsAt violation count)
    (hOther : schema.FailsAt violation other) :
    count = other := by
  rcases Nat.lt_trichotomy count other with h | h | h
  · have hFailed := check_cut_eq_error h hCount.2
    simp [hOther.1] at hFailed
  · exact h
  · have hFailed := check_cut_eq_error h hOther.2
    simp [hCount.1] at hFailed

/-
  A violation that is reported is genuine, and the earliest:
  the schema fails with it at exactly one message, and would
  do so whatever followed; and of that message it is the
  first fault in the order of `Message.Reports`.
-/
theorem check_reports_first
    (hCheck : schema.check = .error violation) :
    violation.Genuine schema ∧
      (∃! count, schema.FailsAt violation count) ∧
      (∀ further,
        (schema.extend further).check = .error violation) ∧
      ∀ count, schema.FailsAt violation count →
        ∃ message,
          schema.messages[count]? = some message ∧
            message.Reports
              ((schema.cut count).messages.map (·.name))
              violation := by
  rcases check_eq_error_iff.mp hCheck with
    ⟨before, message, after, hMessages, hBefore, hMessage⟩
  have hCut : schema.cut before.length =
      ⟨schema.version, before⟩ := by
    simp [cut, hMessages]
  have hNext : schema.cut (before.length + 1) =
      ⟨schema.version, before ++ [message]⟩ := by
    simp [cut, hMessages, List.take_append,
      List.take_of_length_le]
  have hFails : schema.FailsAt violation before.length := by
    constructor
    · rw [hCut]
      exact hBefore
    · rw [hNext]
      exact check_eq_error_iff.mpr
        ⟨before, message, [], rfl, hBefore, hMessage⟩
  refine ⟨hMessage.genuine hMessages,
    ⟨before.length, hFails, fun _ h => h.eq hFails⟩,
    check_extend_eq_error hCheck, ?_⟩
  intro count hCount
  rw [hCount.eq hFails, hCut]
  exact ⟨message, by simp [hMessages], hMessage⟩

/-
  The second message clashes with the first. What is wrong
  in its body, and the numbers of the third, come later.
-/
theorem check_reports_first_clash :
    let schema : SchemaFile :=
      ⟨some .proto3,
        [⟨"A", []⟩,
          ⟨"A", [.enum ⟨"E", [⟨"X", 1⟩]⟩]⟩,
          ⟨"B", [.field ⟨"b", "int32", 0, false⟩]⟩]⟩
    schema.check = .error (.duplicateMessage "A") ∧
      (∃! count,
        schema.FailsAt (.duplicateMessage "A") count) ∧
      (schema.messages.map (·.name)).Duplicate "A" := by
  intro schema
  have hCheck :
      schema.check = .error (.duplicateMessage "A") := by
    decide
  have hFirst := check_reports_first hCheck
  exact ⟨hCheck, hFirst.2.1, hFirst.1⟩

end SchemaFile

end ProtoSchema
