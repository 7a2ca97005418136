import Mathlib.Data.List.Duplicate
import Mathlib.Data.List.Induction
import ProtoSchema.Proofs.Checking.Validity

/-
  Where the loops of the check fail: at the first entry that
  is at fault, with the violation that the entry itself
  reports.

  Key definitions include:
    * `FirstClash`
    * `Enum.Reports`
    * `Member.Reports`
    * `Field.Reports`

  Main theorems:
    * `exists_first_failure_iff`
    * `claimNames_eq_error_iff`
    * `Enum.check_eq_error_iff`
    * `checkMembers_singleton`
    * `checkMembers_append`
    * `checkNumbers_singleton`
    * `checkNumbers_append`
-/

namespace ProtoSchema

------------------------------------------------------------
-- First Violations
------------------------------------------------------------

/-
  The first name of the list that is declared before, in the
  list itself or among those declared earlier.
-/
def FirstClash
    (earlier names : List String)
    (name : String) : Prop :=
  ∃ before after,
    names = before ++ name :: after ∧
      before.Nodup ∧ before.Disjoint earlier ∧
      (name ∈ before ∨ name ∈ earlier)

/-
  What is reported about an enum: the number of its first
  value, and only then a name that occurs again.
-/
inductive Enum.Reports (enum : Enum) : Violation → Prop where
  | first
      {first : EnumValue}
      (hHead : first ∈ enum.values.head?)
      (hFirst : first.value ≠ 0) :
      Reports enum (.firstEnumValueNotZero enum.name)
  | value
      {name : String}
      (hFirst :
        ∀ first ∈ enum.values.head?, first.value = 0)
      (hName :
        FirstClash [] (enum.values.map (·.name)) name) :
      Reports enum (.duplicateEnumValue enum.name name)

/-
  What is reported about a member of the message called
  `message`: a name that is declared already, and only then
  what is wrong inside the member.
-/
inductive Member.Reports
    (message : String)
    (earlier : List String) : Member → Violation → Prop where
  | name
      {member : Member}
      {name : String}
      (hName : FirstClash earlier member.names name) :
      Reports message earlier member
        (.duplicateMember message name)
  | enum
      {declared : Enum}
      {violation : Violation}
      (hFree : declared.name ∉ earlier)
      (hInside : declared.Reports violation) :
      Reports message earlier (.enum declared) violation

/-
  What is reported about a field: a number out of range, and
  only then one that an earlier field has.
-/
inductive Field.Reports
    (message : String)
    (earlier : List Int64)
    (field : Field) : Violation → Prop where
  | invalid
      (hRange : ¬ field.InRange) :
      Reports message earlier field
        (.invalidFieldNumber message field.name
          field.number)
  | duplicate
      (hRange : field.InRange)
      (hTaken : field.number ∈ earlier) :
      Reports message earlier field
        (.duplicateFieldNumber message field.number)

------------------------------------------------------------
-- Checks in Sequence
------------------------------------------------------------

/- A sequence of checks fails where the first of them does. -/
theorem check_bind_eq_error_iff
    {α β : Type}
    {first : Except Violation α}
    {next : α → Except Violation β}
    {violation : Violation} :
    first >>= next = .error violation ↔
      first = .error violation ∨
        ∃ found, first = .ok found ∧
          next found = .error violation := by
  cases first with
  | error found => simp [bind, Except.bind]
  | ok found => simp [bind, Except.bind]

/- The same of a check that has nothing to hand on. -/
theorem check_seq_eq_error_iff
    {α : Type}
    {first : Except Violation Unit}
    {next : Unit → Except Violation α}
    {violation : Violation} :
    first >>= next = .error violation ↔
      first = .error violation ∨
        first = .ok () ∧ next () = .error violation := by
  rw [check_bind_eq_error_iff]
  constructor
  · intro h
    rcases h with hFirst | ⟨_, hFirst, hNext⟩
    · exact .inl hFirst
    · exact .inr ⟨hFirst, hNext⟩
  · intro h
    exact h.imp_right fun hBoth => ⟨(), hBoth⟩

/-
  A check of a list that goes on behind a part as `next`
  does fails exactly at an entry: all before it pass, and it
  does not. What stands behind that entry is not looked at.
-/
theorem exists_first_failure_iff
    {α : Type}
    {check : List α → Except Violation Unit}
    {next : List α → List α → Except Violation Unit}
    {passes : List α → Prop}
    {reports : List α → α → Prop}
    {entries : List α}
    {violation : Violation}
    (hNil : check [] = .ok ())
    (hAppend : ∀ before after,
      check (before ++ after) =
        check before >>= fun _ => next before after)
    (hPasses : ∀ before,
      check before = .ok () ↔ passes before)
    (hReports : ∀ before entry,
      next before [entry] = .error violation ↔
        reports before entry) :
    check entries = .error violation ↔
      ∃ before entry after,
        entries = before ++ entry :: after ∧
          passes before ∧ reports before entry := by
  constructor
  · intro hCheck
    induction entries using List.reverseRecOn with
    | nil => simp [hNil] at hCheck
    | append_singleton entries last ih =>
        rw [hAppend, check_seq_eq_error_iff] at hCheck
        rcases hCheck with hEarlier | ⟨hPassed, hLast⟩
        · rcases ih hEarlier with
            ⟨before, entry, after, rfl, hBefore, hEntry⟩
          exact ⟨before, entry, after ++ [last], by simp,
            hBefore, hEntry⟩
        · exact ⟨entries, last, [], rfl,
            (hPasses _).mp hPassed, (hReports _ _).mp hLast⟩
  · intro h
    rcases h with
      ⟨before, entry, after, rfl, hBefore, hEntry⟩
    have hFailed :
        check (before ++ [entry]) = .error violation := by
      rw [hAppend, (hPasses before).mpr hBefore]
      exact (hReports before entry).mpr hEntry
    rw [List.append_cons, hAppend, hFailed]
    rfl

------------------------------------------------------------
-- Names
------------------------------------------------------------

/- What stands before itself stands in the list twice. -/
theorem duplicate_append_cons
    {α : Type}
    {entry : α}
    {before : List α}
    (hMem : entry ∈ before)
    (after : List α) :
    (before ++ entry :: after).Duplicate entry := by
  have hTwice : ([entry] ++ [entry]).Sublist
      (before ++ entry :: after) :=
    (List.singleton_sublist.mpr hMem).append
      (List.singleton_sublist.mpr List.mem_cons_self)
  exact List.duplicate_iff_sublist.mpr hTwice

namespace FirstClash

variable {earlier names : List String}
variable {name : String}

/- Only which names are declared earlier is of interest. -/
theorem congr
    {others : List String}
    (hSame : ∀ name, name ∈ earlier ↔ name ∈ others)
    (hClash : FirstClash earlier names name) :
    FirstClash others names name := by
  rcases hClash with
    ⟨before, after, hNames, hNodup, hApart, hDeclared⟩
  refine ⟨before, after, hNames, hNodup, ?_, ?_⟩
  · intro other hBefore hOther
    exact hApart hBefore ((hSame other).mpr hOther)
  · rwa [← hSame]

/- A name that is free is declared from there on. -/
theorem cons_iff
    {first : String}
    (hFree : first ∉ earlier) :
    FirstClash earlier (first :: names) name ↔
      FirstClash (first :: earlier) names name := by
  constructor
  · intro h
    rcases h with
      ⟨before, after, hNames, hNodup, hApart, hDeclared⟩
    cases before with
    | nil =>
        simp only [List.nil_append, List.cons.injEq] at hNames
        rcases hNames with ⟨rfl, _⟩
        simp [hFree] at hDeclared
    | cons other before =>
        simp only [List.cons_append, List.cons.injEq]
          at hNames
        rcases hNames with ⟨rfl, rfl⟩
        simp only [List.nodup_cons] at hNodup
        simp only [List.disjoint_cons_left] at hApart
        refine ⟨before, after, rfl, hNodup.2, ?_, ?_⟩
        · rw [List.disjoint_cons_right]
          exact ⟨hNodup.1, hApart.2⟩
        · simpa [or_assoc, or_left_comm] using hDeclared
  · intro h
    rcases h with
      ⟨before, after, rfl, hNodup, hApart, hDeclared⟩
    rw [List.disjoint_cons_right] at hApart
    refine ⟨first :: before, after, rfl, ?_, ?_, ?_⟩
    · exact List.nodup_cons.mpr ⟨hApart.1, hNodup⟩
    · exact List.disjoint_cons_left.mpr ⟨hFree, hApart.2⟩
    · simpa [or_assoc, or_left_comm] using hDeclared

/- The name stands twice in the text up to the clash. -/
theorem duplicate
    (hClash : FirstClash earlier names name)
    (rest : List String) :
    (earlier ++ names ++ rest).Duplicate name := by
  rcases hClash with ⟨before, after, rfl, _, _, hDeclared⟩
  have hMem : name ∈ earlier ++ before := by
    rw [List.mem_append]
    exact hDeclared.symm
  simpa using duplicate_append_cons hMem (after ++ rest)

end FirstClash

/- Claiming names fails at the first clash among them. -/
theorem claimNames_eq_error_iff
    {clash : String → Violation}
    {claimed names : List String}
    {violation : Violation} :
    claimNames clash claimed names = .error violation ↔
      ∃ name, FirstClash claimed names name ∧
        violation = clash name := by
  induction names generalizing claimed with
  | nil => simp [claimNames, FirstClash]
  | cons first rest ih =>
      by_cases hClaimed : first ∈ claimed
      · have hFirst : ∀ {name},
            FirstClash claimed (first :: rest) name ↔
              name = first := by
          intro name
          constructor
          · intro h
            rcases h with
              ⟨before, after, hNames, _, hApart, _⟩
            cases before with
            | nil => exact (List.cons.inj hNames).1.symm
            | cons other before =>
                rcases List.cons.inj hNames with ⟨rfl, _⟩
                exact absurd hClaimed
                  (hApart List.mem_cons_self)
          · intro h
            subst h
            exact ⟨[], rest, rfl, List.nodup_nil, by simp,
              .inr hClaimed⟩
        simp [claimNames, hClaimed, hFirst, eq_comm]
      · rw [claimNames, List.contains_eq_mem,
          decide_eq_false hClaimed, if_neg (by decide), ih]
        simp only [FirstClash.cons_iff hClaimed]

------------------------------------------------------------
-- Enums and Members
------------------------------------------------------------

theorem Enum.check_eq_error_iff
    {enum : Enum}
    {violation : Violation} :
    enum.check = .error violation ↔
      enum.Reports violation := by
  unfold Enum.check
  cases hValues : enum.values with
  | nil =>
      simp only [reduceCtorEq, false_iff]
      intro h
      cases h with
      | first hHead _ => simp [hValues] at hHead
      | value _ hName => simp [hValues, FirstClash] at hName
  | cons first rest =>
      have hHead : enum.values.head? = some first := by
        simp [hValues]
      dsimp only
      by_cases hFirst : first.value = 0
      · rw [if_neg (not_not.mpr hFirst),
          check_bind_eq_error_iff, ← hValues]
        simp only [claimNames_eq_error_iff, reduceCtorEq,
          and_false, exists_false, or_false]
        constructor
        · intro h
          rcases h with ⟨name, hName, rfl⟩
          exact .value (by simpa [hHead] using hFirst) hName
        · intro h
          cases h with
          | first hMem hNonzero =>
              rw [hHead, Option.mem_some_iff] at hMem
              subst hMem
              exact absurd hFirst hNonzero
          | value _ hName => exact ⟨_, hName, rfl⟩
      · rw [if_pos hFirst]
        simp only [Except.error.injEq]
        constructor
        · intro h
          subst h
          exact .first hHead hFirst
        · intro h
          cases h with
          | first _ _ => rfl
          | value hZero _ => exact absurd (hZero _ hHead) hFirst

namespace Member

variable {message : String}
variable {earlier : List String}
variable {member : Member}
variable {violation : Violation}

theorem Reports.congr
    {others : List String}
    (hSame : ∀ name, name ∈ earlier ↔ name ∈ others)
    (hReports : member.Reports message earlier violation) :
    member.Reports message others violation := by
  cases hReports with
  | name hName => exact .name (hName.congr hSame)
  | enum hFree hInside =>
      exact .enum (by rwa [← hSame]) hInside

/-
  A member is at fault if one of its names is declared
  already, or if they are free and it fails on its own.
-/
theorem reports_iff :
    member.Reports message earlier violation ↔
      claimNames (.duplicateMember message) earlier
          member.names = .error violation ∨
        (member.names.Nodup ∧
          member.names.Disjoint earlier) ∧
            member.check = .error violation := by
  rw [claimNames_eq_error_iff]
  constructor
  · intro h
    cases h with
    | name hName => exact .inl ⟨_, hName, rfl⟩
    | enum hFree hInside =>
        exact .inr ⟨by simp [names, hFree],
          Enum.check_eq_error_iff.mpr hInside⟩
  · intro h
    rcases h with ⟨name, hName, rfl⟩ | ⟨hFree, hInside⟩
    · exact .name hName
    · cases member with
      | field declared => simp [check] at hInside
      | oneof declared => simp [check] at hInside
      | enum declared =>
          exact .enum (by simpa [names] using hFree.2)
            (Enum.check_eq_error_iff.mp hInside)

end Member

/- One member is checked as it is reported. -/
theorem checkMembers_singleton
    {message : String}
    {claimed : List String}
    {member : Member}
    {violation : Violation} :
    checkMembers message claimed [member] =
        .error violation ↔
      member.Reports message claimed violation := by
  rw [Member.reports_iff, checkMembers,
    check_bind_eq_error_iff]
  simp only [check_bind_eq_error_iff, claimNames_eq_ok_iff,
    checkMembers, reduceCtorEq, and_false, exists_false,
    or_false]
  constructor
  · intro h
    rcases h with hNames | ⟨_, ⟨hNodup, hFree, _⟩, hMember⟩
    · exact .inl hNames
    · exact .inr ⟨⟨hNodup, hFree⟩, hMember⟩
  · intro h
    rcases h with hNames | ⟨⟨hNodup, hFree⟩, hMember⟩
    · exact .inl hNames
    · exact .inr ⟨_, ⟨hNodup, hFree, rfl⟩, hMember⟩

/- The names of the members before are claimed. -/
theorem checkMembers_append
    (message : String)
    (claimed : List String)
    (before after : List Member) :
    checkMembers message claimed (before ++ after) =
      checkMembers message claimed before >>= fun _ =>
        checkMembers message
          ((before.flatMap Member.names).reverse ++ claimed)
          after := by
  induction before generalizing claimed with
  | nil => rfl
  | cons member rest ih =>
      rw [List.cons_append, checkMembers, checkMembers]
      cases hNames : claimNames (.duplicateMember message)
          claimed member.names with
      | error violation => rfl
      | ok all =>
          rcases claimNames_eq_ok_iff.mp hNames with
            ⟨_, _, rfl⟩
          cases hMember : member.check with
          | error violation => rfl
          | ok =>
              simpa [bind, Except.bind] using
                ih (member.names.reverse ++ claimed)

------------------------------------------------------------
-- Numbers
------------------------------------------------------------

/- One field is checked as it is reported. -/
theorem checkNumbers_singleton
    {message : String}
    {taken : List Int64}
    {field : Field}
    {violation : Violation} :
    checkNumbers message taken [field] =
        .error violation ↔
      field.Reports message taken violation := by
  by_cases hRange : field.InRange
  · have hNumber := (isFieldNumber_iff field).mpr hRange
    by_cases hTaken : field.number ∈ taken
    · simp only [checkNumbers, hNumber, hTaken,
        List.contains_eq_mem, Bool.not_true,
        Bool.false_eq_true, if_false, decide_true, if_true,
        Except.error.injEq]
      constructor
      · intro h
        subst h
        exact .duplicate hRange hTaken
      · intro h
        cases h with
        | invalid hOut => exact absurd hRange hOut
        | duplicate _ _ => rfl
    · simp only [checkNumbers, hNumber, hTaken,
        List.contains_eq_mem, Bool.not_true,
        Bool.false_eq_true, if_false, decide_false,
        reduceCtorEq, false_iff]
      intro h
      cases h with
      | invalid hOut => exact hOut hRange
      | duplicate _ hIn => exact hTaken hIn
  · have hNumber : isFieldNumber field.number = false := by
      rw [← Bool.not_eq_true, isFieldNumber_iff]
      exact hRange
    simp only [checkNumbers, hNumber, Bool.not_false,
      if_true, Except.error.injEq]
    constructor
    · intro h
      subst h
      exact .invalid hRange
    · intro h
      cases h with
      | invalid _ => rfl
      | duplicate hIn _ => exact absurd hIn hRange

/- The numbers of the fields before are taken. -/
theorem checkNumbers_append
    (message : String)
    (taken : List Int64)
    (before after : List Field) :
    checkNumbers message taken (before ++ after) =
      checkNumbers message taken before >>= fun _ =>
        checkNumbers message
          ((before.map (·.number)).reverse ++ taken)
          after := by
  induction before generalizing taken with
  | nil => rfl
  | cons field rest ih =>
      rw [List.cons_append, checkNumbers, checkNumbers]
      split
      · rfl
      · split
        · rfl
        · simpa using ih (field.number :: taken)

theorem Field.Reports.congr
    {message : String}
    {earlier others : List Int64}
    {field : Field}
    {violation : Violation}
    (hSame : ∀ number, number ∈ earlier ↔ number ∈ others)
    (hReports : field.Reports message earlier violation) :
    field.Reports message others violation := by
  cases hReports with
  | invalid hRange => exact .invalid hRange
  | duplicate hRange hTaken =>
      exact .duplicate hRange ((hSame _).mp hTaken)

end ProtoSchema
