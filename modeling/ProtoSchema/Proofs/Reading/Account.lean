import ProtoSchema.Proofs.Layout.Scanning
import ProtoSchema.Proofs.Reading.Turns

/-
  What parsers put on record. Whether a parser succeeds or
  fails, its records are regular; and if it succeeds, its
  debug records give account of its value.

  Key definitions include:
    * `Record.Regular`
    * `accountBlock`
    * `Parser.Quiet`
    * `Parser.Accounts`

  Main theorems:
    * `Parser.Accounts.bind`
    * `Parser.Quiet.bind_accounts`
    * `Parser.Accounts.untilClosed`
    * `Parser.Accounts.readBlock`
-/

namespace ProtoSchema

------------------------------------------------------------
-- Regular Records
------------------------------------------------------------

/-
  What may stand in an account before a failure: no errors,
  nothing deeper than two blocks, and no traces but those of
  comments.
-/
structure Record.Regular (record : Record) : Prop where
  level : record.level ≠ .error
  depth : record.depth ≤ 2
  trace :
    record.level = .trace → record.message = "Got comment"

/- The debug records of an account. -/
def debugged (records : List Record) : List Record :=
  records.filter (·.level = .debug)

@[simp] theorem debugged_append
    (before after : List Record) :
    debugged (before ++ after) =
      debugged before ++ debugged after :=
  List.filter_append before after

/- A debug record is regular where it is not too deep. -/
theorem regular_debug
    {place : Diagnostics}
    (hDepth : place.depth ≤ 2)
    (message : String) :
    (place.debug message).Regular :=
  ⟨by simp [Diagnostics.debug], hDepth,
    by simp [Diagnostics.debug]⟩

/-
  Whether an outcome succeeds or not, its records are
  regular. If it succeeds, its value and its debug records
  are related.
-/
structure Outcome.Accounted
    {α : Type}
    (outcome : Outcome α)
    (told : α → List Record → Prop) : Prop where
  regular : ∀ record ∈ outcome.records, record.Regular
  told :
    ∀ value,
      outcome.result = .ok value →
        told value (debugged outcome.records)

namespace Outcome.Accounted

variable {α β : Type}
variable {outcome : Outcome α}
variable {told : α → List Record → Prop}

/- An outcome without records is told by its value alone. -/
theorem of_nil
    (hRecords : outcome.records = [])
    (hTold :
      ∀ value, outcome.result = .ok value → told value []) :
    outcome.Accounted told := by
  constructor
  · rw [hRecords]
    simp
  · intro value hValue
    rw [hRecords]
    exact hTold value hValue

/- Regular records may be put in front. -/
theorem after
    {before : List Record}
    (h :
      outcome.Accounted fun value after =>
        told value (debugged before ++ after))
    (hBefore : ∀ record ∈ before, record.Regular) :
    (outcome.after before).Accounted told := by
  constructor
  · intro record hRecord
    rcases List.mem_append.mp hRecord with hMem | hMem
    · exact hBefore record hMem
    · exact h.regular record hMem
  · intro value hValue
    show told value (debugged (before ++ outcome.records))
    rw [debugged_append]
    exact h.told value hValue

theorem map
    {f : α → β}
    {told : β → List Record → Prop}
    (h :
      outcome.Accounted fun value after =>
        told (f value) after) :
    (outcome.map f).Accounted told := by
  refine ⟨h.regular, ?_⟩
  rcases outcome with ⟨error | value, rest, records⟩
  · simp [Outcome.map, Except.map]
  · intro found hFound
    rw [← Except.ok.inj hFound]
    exact h.told value rfl

/- What follows from an account may be claimed of it. -/
theorem imp
    {claimed : α → List Record → Prop}
    (h : outcome.Accounted told)
    (hClaimed :
      ∀ value records,
        told value records → claimed value records) :
    outcome.Accounted claimed :=
  ⟨h.regular, fun value hValue =>
    hClaimed value _ (h.told value hValue)⟩

end Outcome.Accounted

/-
  A block is told by a line of its own, before those of its
  entries.
-/
def accountBlock
    (depth : Nat)
    (keyword : String)
    (name : String)
    (entries : List Record) : List Record :=
  ⟨.debug, depth, s!"Processing {keyword} \"{name}\""⟩ ::
    entries

namespace Parser

variable {α β : Type}

/- The parser writes no records. -/
def Quiet (parser : Parser α) : Prop :=
  ∀ text, (parser.run text).records = []

/- The parser gives account of what it reads. -/
def Accounts
    (parser : Parser α)
    (told : α → List Record → Prop) : Prop :=
  ∀ text, (parser.run text).Accounted told

------------------------------------------------------------
-- Quiet Parsers
------------------------------------------------------------

theorem quiet_pure (value : α) :
    Quiet (pure value) :=
  fun _ => rfl

theorem quiet_fail (error : ParseError) :
    Quiet (fail error : Parser α) :=
  fun _ => rfl

theorem Quiet.bind
    {parser : Parser α}
    {next : α → Parser β}
    (hFirst : Quiet parser)
    (hNext : ∀ value, Quiet (next value)) :
    Quiet (parser >>= next) := by
  intro text
  have hRecords := hFirst text
  rcases hRun : parser.run text with
    ⟨error | value, rest, records⟩
  · rw [hRun] at hRecords
    rw [bind_of_error hRun]
    exact hRecords
  · rw [hRun] at hRecords
    have hNone : records = [] := hRecords
    rw [bind_of_ok hRun, hNone]
    exact hNext value rest

theorem quiet_expect
    (c : Char)
    (context : String) : Quiet (expect c context) := by
  apply Quiet.bind skipGap_records
  intro _ text
  simp only [require]
  split
  · rfl
  · split
    · rfl
    · rfl

theorem quiet_readWord (reading : String) :
    Quiet (readWord reading) := by
  apply Quiet.bind skipGap_records
  intro _
  apply Quiet.bind
  · intro text
    simp only [takeWord]
    split
    · rfl
    · split
      · rfl
      · rfl
  · intro word
    cases word with
    | some word => exact quiet_pure word
    | none => exact quiet_fail _

theorem quiet_readWordOf
    (form : List Char → Bool)
    (reading : String) :
    Quiet (readWordOf form reading) := by
  apply (quiet_readWord reading).bind
  intro word
  split
  · exact quiet_pure word
  · exact quiet_fail _

theorem quiet_readInteger (reading : String) :
    Quiet (readInteger reading) := by
  apply (quiet_readWord reading).bind
  intro word
  split
  · exact quiet_pure _
  · exact quiet_fail _

theorem quiet_readQuoted (reading : String) :
    Quiet (readQuoted reading) := by
  apply (quiet_expect _ _).bind
  intro _ text
  simp only [takeQuoted]
  split
  · rfl
  · rfl

------------------------------------------------------------
-- Accounts
------------------------------------------------------------

section Sequencing

variable {parser : Parser α}
variable {next : α → Parser β}
variable {told : α → List Record → Prop}
variable {told' : β → List Record → Prop}

theorem accounts_pure
    {value : α}
    (hTold : told value []) :
    Accounts (pure value) told := by
  intro text
  apply Outcome.Accounted.of_nil rfl
  intro found hFound
  rwa [← Except.ok.inj hFound]

theorem accounts_fail (error : ParseError) :
    Accounts (fail error) told :=
  fun _ => .of_nil rfl (by simp [fail])

theorem Accounts.imp
    {claimed : α → List Record → Prop}
    (h : Accounts parser told)
    (hClaimed :
      ∀ value records,
        told value records → claimed value records) :
    Accounts parser claimed :=
  fun text => (h text).imp hClaimed

theorem Quiet.accounts
    (hQuiet : Quiet parser) :
    Accounts parser fun _ told => told = [] :=
  fun text => .of_nil (hQuiet text) fun _ _ => rfl

/- The account of a sequence is one after the other. -/
theorem Accounts.bind
    (hFirst : Accounts parser told)
    (hNext :
      ∀ value before,
        told value before →
          Accounts (next value) fun found after =>
            told' found (before ++ after)) :
    Accounts (parser >>= next) told' := by
  intro text
  have hBefore := hFirst text
  rcases hRun : parser.run text with
    ⟨error | value, rest, records⟩
  · rw [hRun] at hBefore
    rw [bind_of_error hRun]
    exact ⟨hBefore.regular, by simp⟩
  · rw [hRun] at hBefore
    rw [bind_of_ok hRun]
    have hAfter :=
      hNext value _ (hBefore.told value rfl) rest
    exact hAfter.after hBefore.regular

/- What is read without a record adds nothing. -/
theorem Quiet.bind_accounts
    (hQuiet : Quiet parser)
    (hNext : ∀ value, Accounts (next value) told') :
    Accounts (parser >>= next) told' := by
  apply hQuiet.accounts.bind
  rintro value _ rfl
  exact hNext value

/- A step outside of the text adds nothing either. -/
theorem Accounts.ofExcept_bind
    {step : Except ParseError α}
    (hNext :
      ∀ value, step = .ok value → Accounts (next value) told') :
    Accounts (ofExcept step >>= next) told' := by
  have hStep : Accounts (ofExcept step) fun value told =>
      step = .ok value ∧ told = [] :=
    fun _ => .of_nil rfl fun _ hValue => ⟨hValue, rfl⟩
  apply hStep.bind
  rintro value _ ⟨hValue, rfl⟩
  exact hNext value hValue

/- A debug record comes before what follows it. -/
theorem Accounts.debug_bind
    {next : Unit → Parser β}
    {place : Diagnostics}
    {message : String}
    (hDepth : place.depth ≤ 2)
    (hNext :
      Accounts (next ()) fun found after =>
        told' found (place.debug message :: after)) :
    Accounts (write (place.debug message) >>= next) told' := by
  have hWrite : Accounts (write (place.debug message))
      fun _ told => told = [place.debug message] := by
    intro text
    refine ⟨?_, fun _ _ => rfl⟩
    simpa [write] using regular_debug hDepth message
  apply hWrite.bind
  rintro _ _ rfl
  exact hNext

end Sequencing

/- Comments leave nothing but a trace. -/
theorem accounts_noteComments
    (place : Diagnostics)
    (hDepth : place.depth ≤ 2) :
    Accounts (noteComments place) fun _ told => told = [] := by
  apply Quiet.bind_accounts skipGap_records
  intro comments
  split
  · intro text
    refine ⟨?_, fun _ _ => rfl⟩
    have hTrace : (place.trace "Got comment").Regular :=
      ⟨by simp [Diagnostics.trace], hDepth, fun _ => rfl⟩
    simpa [write] using hTrace
  · exact accounts_pure rfl

------------------------------------------------------------
-- Blocks
------------------------------------------------------------

section Blocks

variable {account : α → List Record}

/- What a turn adds to the account of its block. -/
def toldByTurn
    (account : α → List Record) : Turn α → List Record
  | .entry value => account value
  | _ => []

theorem Accounts.turnHere
    {entry : Parser α}
    (hEntry :
      Accounts entry fun value told => told = account value)
    (reading : String) :
    Accounts (turnHere reading entry) fun turn told =>
      told = toldByTurn account turn := by
  intro text
  simp only [Parser.turnHere]
  split
  · exact .of_nil rfl (by simp)
  · exact .of_nil rfl (by simp [toldByTurn])
  · exact .of_nil rfl (by simp [toldByTurn])
  · exact (hEntry text).map

theorem Accounts.readTurn
    {entry : Parser α}
    (hEntry :
      Accounts entry fun value told => told = account value)
    (kind : BlockKind)
    (name : String)
    (place : Diagnostics)
    (hDepth : place.depth ≤ 2) :
    Accounts (readTurn kind name place entry) fun turn told =>
      told = toldByTurn account turn := by
  apply (accounts_noteComments place hDepth).bind
  rintro _ _ rfl
  exact hEntry.turnHere _

/- The entries of a block are told one after the other. -/
theorem Accounts.untilClosed
    {turn : Parser (Turn α)}
    (h :
      Accounts turn fun turn told =>
        told = toldByTurn account turn)
    (hTurn : turn.Advances) :
    Accounts (untilClosed turn hTurn) fun values told =>
      told = values.flatMap account := by
  intro text
  refine untilClosed_induct hTurn
    (motive := fun _ outcome =>
      outcome.Accounted fun values told =>
        told = values.flatMap account)
    ?_ ?_ ?_ ?_ text
  · intro text rest error records hRead
    have hFirst := h text
    rw [hRead] at hFirst
    exact ⟨hFirst.regular, by simp⟩
  · intro text rest records hRead
    have hFirst := h text
    rw [hRead] at hFirst
    refine ⟨hFirst.regular, fun values hValues => ?_⟩
    rw [← Except.ok.inj hValues]
    exact hFirst.told .closed rfl
  · intro text rest records hRead ih
    have hFirst := h text
    rw [hRead] at hFirst
    have hTold : debugged records = [] :=
      hFirst.told .skipped rfl
    refine (ih.imp fun values told hTail => ?_).after
      hFirst.regular
    rw [hTold, hTail, List.nil_append]
  · intro text rest value records hRead ih
    have hFirst := h text
    rw [hRead] at hFirst
    have hTold : debugged records = account value :=
      hFirst.told (.entry value) rfl
    refine (ih.imp fun values told hTail => ?_).map.after
      hFirst.regular
    rw [hTold, hTail, List.flatMap_cons]

/-
  The account of a block whose entries lie one block deeper.
-/
theorem Accounts.readBlock
    {entry : String → Parser α}
    (h :
      ∀ name,
        Accounts (entry name) fun value told =>
          told = account value)
    (kind : BlockKind)
    (place : Diagnostics)
    (hDepth : place.depth + 1 ≤ 2)
    (hEntry : ∀ name, (entry name).Advances) :
    Accounts (readBlock kind place entry hEntry)
      fun block told =>
        told =
          accountBlock place.depth kind.keyword block.1
            (block.2.flatMap account) := by
  refine (quiet_readWordOf _ _).bind_accounts fun name => ?_
  refine (quiet_expect _ _).bind_accounts fun _ => ?_
  apply Accounts.debug_bind (Nat.le_of_succ_le hDepth)
  have hTurn :=
    (h name).readTurn kind name place.nested hDepth
  apply (hTurn.untilClosed _).bind
  rintro entries _ rfl
  apply accounts_pure
  rw [List.append_nil]
  rfl

end Blocks

end Parser

end ProtoSchema
