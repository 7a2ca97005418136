import Mathlib.Data.List.Nodup
import ProtoSchema.Schema.Check

/-
  The rules of a valid schema, stated apart from the order
  in which a check visits them. The check succeeds exactly
  on the valid schemas.

  Key definitions include:
    * `Field.InRange`
    * `Enum.Valid`
    * `Message.Valid`
    * `SchemaFile.Valid`

  Main theorems:
    * `claimNames_eq_ok_iff`
    * `checkMembers_eq_ok_iff`
    * `checkNumbers_eq_ok_iff`
    * `Message.check_eq_ok_iff`
    * `SchemaFile.check_eq_ok_iff_valid`
-/

namespace ProtoSchema

------------------------------------------------------------
-- Rules
------------------------------------------------------------

/-
  The number of the field can be encoded, and is not one of
  those reserved for the encoding itself.
-/
def Field.InRange (field : Field) : Prop :=
  1 ≤ field.number.toInt ∧
    field.number.toInt ≤ 536870911 ∧
      ¬ (19000 ≤ field.number.toInt ∧
        field.number.toInt ≤ 19999)

instance (field : Field) : Decidable field.InRange := by
  unfold Field.InRange
  infer_instance

/- What is asked of an enum. Its numbers may repeat. -/
structure Enum.Valid (enum : Enum) : Prop where
  names : (enum.values.map (·.name)).Nodup
  first : ∀ value ∈ enum.values.head?, value.value = 0

/-
  Every name that the message declares: those of its members
  and those of the fields inside its oneofs.
-/
def Message.declaredNames
    (message : Message) : List String :=
  message.members.map (·.name) ++
    message.oneofs.flatMap fun oneof =>
      oneof.fields.map (·.name)

/- What is asked of a message. -/
structure Message.Valid (message : Message) : Prop where
  names : message.declaredNames.Nodup
  numbers : (message.allFields.map (·.number)).Nodup
  inRange : ∀ field ∈ message.allFields, field.InRange
  enums : ∀ enum ∈ message.enums, enum.Valid

/- What is asked of a schema. -/
structure SchemaFile.Valid (schema : SchemaFile) : Prop where
  names : (schema.messages.map (·.name)).Nodup
  messages : ∀ message ∈ schema.messages, message.Valid

instance (enum : Enum) : Decidable enum.Valid :=
  decidable_of_iff
    ((enum.values.map (·.name)).Nodup ∧
      ∀ value ∈ enum.values.head?, value.value = 0)
    ⟨fun h => ⟨h.1, h.2⟩, fun h => ⟨h.names, h.first⟩⟩

instance (message : Message) : Decidable message.Valid :=
  decidable_of_iff
    (message.declaredNames.Nodup ∧
      (message.allFields.map (·.number)).Nodup ∧
        (∀ field ∈ message.allFields, field.InRange) ∧
          ∀ enum ∈ message.enums, enum.Valid)
    ⟨fun h => ⟨h.1, h.2.1, h.2.2.1, h.2.2.2⟩,
      fun h => ⟨h.names, h.numbers, h.inRange, h.enums⟩⟩

instance (schema : SchemaFile) : Decidable schema.Valid :=
  decidable_of_iff
    ((schema.messages.map (·.name)).Nodup ∧
      ∀ message ∈ schema.messages, message.Valid)
    ⟨fun h => ⟨h.1, h.2⟩, fun h => ⟨h.names, h.messages⟩⟩

------------------------------------------------------------
-- Checks in Sequence
------------------------------------------------------------

/- A sequence of checks succeeds if each of them does. -/
theorem check_bind_eq_ok_iff
    {α β : Type}
    {first : Except Violation α}
    {next : α → Except Violation β}
    {value : β} :
    first >>= next = .ok value ↔
      ∃ found, first = .ok found ∧
        next found = .ok value := by
  cases first with
  | error violation => simp [bind, Except.bind]
  | ok found => simp [bind, Except.bind]

/- The same of a check that has nothing to hand on. -/
theorem check_seq_eq_ok_iff
    {α : Type}
    {first : Except Violation Unit}
    {next : Unit → Except Violation α}
    {value : α} :
    first >>= next = .ok value ↔
      first = .ok () ∧ next () = .ok value := by
  rw [check_bind_eq_ok_iff]
  constructor
  · intro h
    rcases h with ⟨_, hFirst, hNext⟩
    exact ⟨hFirst, hNext⟩
  · intro h
    exact ⟨(), h⟩

/-
  Names can be claimed in turn exactly if they are distinct
  and none of them is claimed already.
-/
theorem claimNames_eq_ok_iff
    {clash : String → Violation}
    {claimed names all : List String} :
    claimNames clash claimed names = .ok all ↔
      names.Nodup ∧ names.Disjoint claimed ∧
        all = names.reverse ++ claimed := by
  induction names generalizing claimed with
  | nil => simp [claimNames, eq_comm]
  | cons name rest ih =>
      by_cases hClaimed : name ∈ claimed
      · simp [claimNames, hClaimed]
      · rw [claimNames, List.contains_eq_mem,
          decide_eq_false hClaimed, if_neg (by decide), ih]
        simp only [List.nodup_cons, List.disjoint_cons_left,
          List.disjoint_cons_right, List.reverse_cons,
          List.append_assoc, List.singleton_append]
        constructor
        · intro h
          rcases h with ⟨hRest, ⟨hName, hApart⟩, hAll⟩
          exact ⟨⟨hName, hRest⟩, ⟨hClaimed, hApart⟩, hAll⟩
        · intro h
          rcases h with
            ⟨⟨hName, hRest⟩, ⟨_, hApart⟩, hAll⟩
          exact ⟨hRest, ⟨hName, hApart⟩, hAll⟩

------------------------------------------------------------
-- Enums
------------------------------------------------------------

theorem Enum.check_eq_ok_iff (enum : Enum) :
    enum.check = .ok () ↔ enum.Valid := by
  unfold Enum.check
  cases hValues : enum.values with
  | nil =>
      simp only [true_iff]
      exact ⟨by simp [hValues], by simp [hValues]⟩
  | cons first rest =>
      dsimp only
      by_cases hFirst : first.value = 0
      · rw [if_neg (not_not.mpr hFirst),
          check_bind_eq_ok_iff]
        simp only [claimNames_eq_ok_iff]
        constructor
        · intro h
          rcases h with ⟨_, ⟨hNames, _, _⟩, _⟩
          exact ⟨by rwa [hValues],
            by simpa [hValues] using hFirst⟩
        · intro h
          have hNames := h.names
          rw [hValues] at hNames
          exact ⟨_, ⟨hNames, by simp, rfl⟩, trivial⟩
      · rw [if_pos hFirst]
        simp only [reduceCtorEq, false_iff]
        intro h
        apply hFirst
        apply h.first
        simp [hValues]

------------------------------------------------------------
-- Members
------------------------------------------------------------

/-
  The members of a message pass if the names they declare,
  taken together, are distinct and unclaimed, and if each
  member passes on its own.
-/
theorem checkMembers_eq_ok_iff
    {message : String}
    {claimed : List String}
    {members : List Member} :
    checkMembers message claimed members = .ok () ↔
      (members.flatMap Member.names).Nodup ∧
        (members.flatMap Member.names).Disjoint claimed ∧
          ∀ member ∈ members, member.check = .ok () := by
  induction members generalizing claimed with
  | nil => simp [checkMembers]
  | cons member rest ih =>
      rw [checkMembers, check_bind_eq_ok_iff]
      simp only [check_seq_eq_ok_iff, claimNames_eq_ok_iff,
        ih, List.flatMap_cons, List.nodup_append',
        List.disjoint_append_left, List.forall_mem_cons]
      constructor
      · intro h
        rcases h with
          ⟨_, ⟨hNames, hFree, rfl⟩, hMember, hRest,
            hApart, hChecked⟩
        rw [List.disjoint_append_right,
          List.disjoint_reverse_right] at hApart
        exact ⟨⟨hNames, hRest, List.disjoint_symm hApart.1⟩,
          ⟨hFree, hApart.2⟩, hMember, hChecked⟩
      · intro h
        rcases h with
          ⟨⟨hNames, hRest, hApart⟩, ⟨hFree, hRestFree⟩,
            hMember, hChecked⟩
        refine ⟨_, ⟨hNames, hFree, rfl⟩, hMember, hRest,
          ?_, hChecked⟩
        rw [List.disjoint_append_right,
          List.disjoint_reverse_right]
        exact ⟨List.disjoint_symm hApart, hRestFree⟩

/-
  The names that the members claim one after the other are
  those of the message, in another order.
-/
theorem Message.perm_declaredNames (message : Message) :
    (message.members.flatMap Member.names).Perm
      message.declaredNames := by
  unfold Message.declaredNames Message.oneofs
  induction message.members with
  | nil => exact .nil
  | cons member rest ih =>
      cases member with
      | field declared =>
          simpa [Member.names, Member.name] using ih
      | enum declared =>
          simpa [Member.names, Member.name] using ih
      | oneof declared =>
          simp only [List.flatMap_cons, Member.names,
            List.map_cons, Member.name, List.cons_append,
            List.perm_cons]
          exact (ih.append_left _).trans
            (List.perm_append_comm_assoc _ _ _)

/- Of the members, only enums have rules of their own. -/
theorem Message.members_check_iff (message : Message) :
    (∀ member ∈ message.members, member.check = .ok ()) ↔
      ∀ enum ∈ message.enums, enum.Valid := by
  simp only [Message.enums, List.mem_filterMap]
  constructor
  · intro h enum hEnum
    rcases hEnum with ⟨member, hMember, hCase⟩
    cases member with
    | field declared => simp at hCase
    | oneof declared => simp at hCase
    | enum declared =>
        simp only [Option.some.injEq] at hCase
        subst hCase
        exact declared.check_eq_ok_iff.mp (h _ hMember)
  · intro h member hMember
    cases member with
    | field declared => rfl
    | oneof declared => rfl
    | enum declared =>
        apply declared.check_eq_ok_iff.mpr
        exact h declared ⟨_, hMember, rfl⟩

------------------------------------------------------------
-- Numbers
------------------------------------------------------------

theorem isFieldNumber_iff (field : Field) :
    isFieldNumber field.number = true ↔ field.InRange := by
  simp only [isFieldNumber, maxFieldNumber, firstReserved,
    lastReserved, Field.InRange, Bool.and_eq_true,
    Bool.not_eq_true', Bool.and_eq_false_iff,
    decide_eq_true_eq, decide_eq_false_iff_not,
    Int64.le_iff_toInt_le, and_assoc, not_and_or]
  exact Iff.rfl

/-
  Numbers can be taken in turn exactly if they are in range
  and distinct, and none of them is taken already.
-/
theorem checkNumbers_eq_ok_iff
    {message : String}
    {taken : List Int64}
    {fields : List Field} :
    checkNumbers message taken fields = .ok () ↔
      (∀ field ∈ fields, field.InRange) ∧
        (fields.map (·.number)).Nodup ∧
          (fields.map (·.number)).Disjoint taken := by
  induction fields generalizing taken with
  | nil => simp [checkNumbers]
  | cons field rest ih =>
      by_cases hRange : field.InRange
      · have hNumber := (isFieldNumber_iff field).mpr hRange
        by_cases hTaken : field.number ∈ taken
        · simp [checkNumbers, hNumber, hTaken]
        · rw [checkNumbers, hNumber, Bool.not_true,
            if_neg (by decide), List.contains_eq_mem,
            decide_eq_false hTaken, if_neg (by decide), ih]
          simp only [List.forall_mem_cons, List.map_cons,
            List.nodup_cons, List.disjoint_cons_left,
            List.disjoint_cons_right]
          constructor
          · intro h
            rcases h with ⟨hAll, hRest, hField, hApart⟩
            exact ⟨⟨hRange, hAll⟩, ⟨hField, hRest⟩,
              hTaken, hApart⟩
          · intro h
            rcases h with
              ⟨⟨_, hAll⟩, ⟨hField, hRest⟩, _, hApart⟩
            exact ⟨hAll, hRest, hField, hApart⟩
      · have hNumber : isFieldNumber field.number = false := by
          rw [← Bool.not_eq_true, isFieldNumber_iff]
          exact hRange
        simp [checkNumbers, hNumber, hRange]

------------------------------------------------------------
-- Messages and Schemas
------------------------------------------------------------

theorem Message.check_eq_ok_iff (message : Message) :
    message.check = .ok () ↔ message.Valid := by
  rw [Message.check, check_seq_eq_ok_iff,
    checkMembers_eq_ok_iff, checkNumbers_eq_ok_iff,
    message.members_check_iff,
    message.perm_declaredNames.nodup_iff]
  constructor
  · intro h
    rcases h with
      ⟨⟨hNames, _, hEnums⟩, hRange, hNumbers, _⟩
    exact ⟨hNames, hNumbers, hRange, hEnums⟩
  · intro h
    exact ⟨⟨h.names, by simp, h.enums⟩, h.inRange,
      h.numbers, by simp⟩

/- The messages of a schema pass one after the other. -/
theorem checkMessages_eq_ok_iff
    {claimed : List String}
    {messages : List Message} :
    checkMessages claimed messages = .ok () ↔
      (messages.map (·.name)).Nodup ∧
        (messages.map (·.name)).Disjoint claimed ∧
          ∀ message ∈ messages, message.Valid := by
  induction messages generalizing claimed with
  | nil => simp [checkMessages]
  | cons message rest ih =>
      rw [checkMessages, check_bind_eq_ok_iff]
      simp only [check_seq_eq_ok_iff, claimNames_eq_ok_iff,
        message.check_eq_ok_iff, ih, List.map_cons,
        List.nodup_cons, List.disjoint_cons_left,
        List.forall_mem_cons]
      constructor
      · intro h
        rcases h with
          ⟨_, ⟨_, ⟨hFree, _⟩, rfl⟩, hMessage, hRest,
            hApart, hValid⟩
        simp only [List.reverse_singleton,
          List.singleton_append,
          List.disjoint_cons_right] at hApart
        exact ⟨⟨hApart.1, hRest⟩, ⟨hFree, hApart.2⟩,
          hMessage, hValid⟩
      · intro h
        rcases h with
          ⟨⟨hName, hRest⟩, ⟨hFree, hApart⟩, hMessage,
            hValid⟩
        refine ⟨_, ⟨⟨by simp, List.nodup_nil⟩,
          ⟨hFree, by simp⟩, rfl⟩, hMessage, hRest, ?_,
          hValid⟩
        simp only [List.reverse_singleton,
          List.singleton_append, List.disjoint_cons_right]
        exact ⟨hName, hApart⟩

/-
  A schema passes the check exactly if it is valid: message
  names are distinct, the names that each message declares
  are distinct, field numbers are distinct and in range, and
  each enum begins with zero and has distinct value names.
-/
theorem SchemaFile.check_eq_ok_iff_valid
    (schema : SchemaFile) :
    schema.check = .ok () ↔ schema.Valid := by
  rw [SchemaFile.check, checkMessages_eq_ok_iff]
  constructor
  · intro h
    exact ⟨h.1, h.2.2⟩
  · intro h
    exact ⟨h.names, by simp, h.messages⟩

/- The fields of a oneof share the names of its message. -/
example :
    ¬ SchemaFile.Valid
      ⟨some .proto3,
        [⟨"A",
          [.field ⟨"b", "int32", 1, false⟩,
            .oneof ⟨"c", [⟨"b", "int32", 2, false⟩]⟩]⟩]⟩ := by
  decide

end ProtoSchema
