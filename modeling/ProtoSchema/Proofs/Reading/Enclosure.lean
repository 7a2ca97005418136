import ProtoSchema.Proofs.Reading.Lookahead
import ProtoSchema.Proofs.Reading.Run

/-
  Blocks and the braces that close them. A block is read up
  to its own closing brace and no further, whatever follows;
  without that brace the text ends in the body of the block.

  Key definitions include:
    * `BlockKind.body`
    * `Parser.Braced`
    * `Parser.Encloses`

  Main theorems:
    * `Parser.braced_untilClosed`
    * `Parser.braced_readBlock`
    * `Parser.braced_readMessage`
    * `Parser.Braced.encloses`
    * `Parser.blocks_enclose`
-/

namespace ProtoSchema

theorem Outcome.eq_mk_iff
    {α : Type}
    {outcome : Outcome α}
    {result : Except ParseError α}
    {rest : List Char}
    {records : List Record} :
    outcome = ⟨result, rest, records⟩ ↔
      outcome.result = result ∧
        outcome.rest = rest ∧ outcome.records = records := by
  cases outcome
  simp

namespace Parser

variable {α β : Type}

/- What is being read between the braces of a block. -/
def BlockKind.body
    (kind : BlockKind)
    (name : String) : String :=
  let keyword := kind.keyword
  s!"body of {keyword} \"{name}\""

/-
  The parser reads the text up to a closing brace, in front
  of the rest, and looks no further. Without the brace it
  runs out of text in the middle of `reading`.
-/
def ReadsToBrace
    (parser : Parser α)
    (reading : String)
    (text rest : List Char)
    (value : α)
    (records : List Record) : Prop :=
  ∃ body,
    text = body ++ '\x7d' :: rest ∧
      (∀ other,
        parser.run (body ++ '\x7d' :: other) =
          ⟨.ok value, other, records⟩) ∧
      ∃ written,
        parser.run body =
          ⟨.error (.unexpectedEnd reading), [], written⟩

/- It does so whenever it succeeds. -/
structure Braced
    (reading : α → String)
    (parser : Parser α) : Prop where
  readsToBrace :
    ∀ {text rest : List Char} {value : α}
      {records : List Record},
      parser.run text = ⟨.ok value, rest, records⟩ →
        parser.ReadsToBrace (reading value) text rest value
          records

theorem Braced.delimited
    {reading : α → String}
    {parser : Parser α}
    (h : Braced reading parser) : Delimited parser := by
  constructor
  intro text rest value records hRun
  rcases h.readsToBrace hRun with ⟨body, rfl, hAgain, _⟩
  cases body with
  | nil => exact ⟨'\x7d', [], rfl, hAgain⟩
  | cons c body =>
      refine ⟨c, body ++ ['\x7d'], by simp, fun other => ?_⟩
      rw [← hAgain other]
      simp

------------------------------------------------------------
-- Sequencing
------------------------------------------------------------

/- What stands in front of a block may belong to it. -/
theorem Contained.bind_braced
    {first : Parser α}
    {next : α → Parser β}
    {reading : β → String}
    (hFirst : Contained first)
    (hNext : ∀ value, Braced reading (next value)) :
    Braced reading (first >>= next) := by
  constructor
  intro text rest value records hRun
  rcases bind_eq_ok_iff.mp hRun with
    ⟨found, middle, before, after, hBefore, hAfter, rfl⟩
  rcases hFirst.again hBefore with ⟨read, rfl, hRead⟩
  rcases (hNext found).readsToBrace hAfter with
    ⟨body, rfl, hBody, written, hOpen⟩
  refine ⟨read ++ body, by simp, fun other => ?_,
    before ++ written, ?_⟩
  · rw [List.append_assoc, bind_of_ok (hRead _),
      hBody other]
    rfl
  · rw [bind_of_ok (hRead _), hOpen]
    rfl

/- Nothing is read behind the brace. -/
theorem Braced.map
    {parser : Parser α}
    {reading : α → String}
    {reading' : β → String}
    {f : α → β}
    (h : Braced reading parser)
    (hReading : ∀ value, reading' (f value) = reading value) :
    Braced reading' (do let value ← parser; pure (f value)) := by
  constructor
  intro text rest value records hRun
  rcases bind_eq_ok_iff.mp hRun with
    ⟨found, middle, before, after, hBefore, hAfter, rfl⟩
  simp only [pure_eq, Outcome.mk.injEq,
    Except.ok.injEq] at hAfter
  rcases hAfter with ⟨rfl, rfl, rfl⟩
  rcases h.readsToBrace hBefore with
    ⟨body, rfl, hBody, written, hOpen⟩
  refine ⟨body, rfl, fun other => ?_, written, ?_⟩
  · rw [bind_of_ok (hBody other)]
    rfl
  · rw [bind_of_error hOpen, hReading]

------------------------------------------------------------
-- Bodies
------------------------------------------------------------

section Bodies

variable {kind : BlockKind}
variable {name : String}
variable {place : Diagnostics}
variable {entry : Parser α}

/-
  The turn that closes a block. In front of the brace stands
  a gap, and behind the gap alone the body is missing.
-/
theorem readTurn_closed
    {text rest : List Char}
    {records : List Record}
    (hRun :
      (readTurn kind name place entry).run text =
        ⟨.ok .closed, rest, records⟩) :
    (readTurn kind name place entry).ReadsToBrace
      (kind.body name) text rest .closed records := by
  rcases bind_eq_ok_iff.mp hRun with
    ⟨_, middle, before, after, hNote, hHere, rfl⟩
  rcases turnHere_ok hHere with
    ⟨_, rfl⟩ | ⟨hTurn, _⟩ | ⟨_, hTurn, _⟩
  · have hAfter : after = [] := by
      simp only [turnHere, Outcome.mk.injEq] at hHere
      exact hHere.2.2.symm
    subst hAfter
    rcases (skipsGap_noteComments place).mp ⟨_, _, hNote⟩ with
      ⟨comments, hSkip⟩
    rcases skipGap_eq_ok_iff.mp ⟨comments, hSkip⟩ with
      ⟨_, gap, hGap, rfl⟩
    refine ⟨gap, rfl, fun other => ?_, ?_⟩
    · rcases (peeks_noteComments place).again hNote with
        ⟨read, hText, hRead⟩
      rw [← List.append_cancel_right hText] at hRead
      have hNoted :
          (noteComments place).run (gap ++ '\x7d' :: other) =
            ⟨.ok (), '\x7d' :: other, before⟩ :=
        hRead _ rfl
      rw [readTurn, bind_of_ok hNoted]
      rfl
    · have hEnd : ∃ comments,
          skipGap.run gap = ⟨.ok comments, [], []⟩ :=
        skipGap_eq_ok_iff.mpr
          ⟨ungapped_nil, gap, hGap.ofInner, by simp⟩
      rcases (skipsGap_noteComments place).mpr hEnd with
        ⟨_, written, hNoted⟩
      refine ⟨written, ?_⟩
      rw [readTurn, bind_of_ok hNoted]
      simp [turnHere, Outcome.after, BlockKind.body]
  · simp at hTurn
  · simp at hTurn

/-
  A turn that looks at nothing behind it belongs to the body
  that later turns complete.
-/
theorem ReadsToBrace.behind_turn
    {turn : Parser (Turn α)}
    {hTurn : turn.Advances}
    {found : Turn α}
    {f : List α → List α}
    {reading : String}
    {text middle rest : List Char}
    {values : List α}
    {before after : List Record}
    (hRest :
      (untilClosed turn hTurn).ReadsToBrace reading middle
        rest values after)
    (hDelimited : Delimited turn)
    (hRead : turn.run text = ⟨.ok found, middle, before⟩)
    (hLater :
      ∀ {text middle},
        turn.run text = ⟨.ok found, middle, before⟩ →
          (untilClosed turn hTurn).run text =
            (((untilClosed turn hTurn).run middle).map
              f).after before) :
    (untilClosed turn hTurn).ReadsToBrace reading text rest
      (f values) (before ++ after) := by
  rcases hDelimited.again hRead with ⟨c, read, rfl, hAgain⟩
  rcases hRest with ⟨body, rfl, hBody, written, hOpen⟩
  refine ⟨c :: (read ++ body), by simp, fun other => ?_,
    before ++ written, ?_⟩
  · rw [List.cons_append, List.append_assoc,
      hLater (hAgain _), hBody other]
    rfl
  · rw [hLater (hAgain body), hOpen]
    rfl

/-
  A body ends with its own brace. Neither a semicolon nor an
  entry before it can have been read otherwise.
-/
theorem braced_untilClosed
    (hEntry : Delimited entry)
    (hTurn : (readTurn kind name place entry).Advances) :
    Braced (fun _ => kind.body name)
      (untilClosed (readTurn kind name place entry)
        hTurn) := by
  have hDelimited := hEntry.readTurn kind name place
  constructor
  intro text rest values records hRun
  refine untilClosed_ok_induct hTurn
    (motive := fun text values rest records =>
      (untilClosed (readTurn kind name place entry)
        hTurn).ReadsToBrace (kind.body name) text rest values
          records)
    ?_ ?_ ?_ hRun
  · intro text rest records hRead
    rcases readTurn_closed hRead with
      ⟨gap, hText, hAgain, written, hOpen⟩
    exact ⟨gap, hText,
      fun other => untilClosed_of_closed hTurn (hAgain other),
      written, untilClosed_of_error hTurn hOpen⟩
  · intro text middle values rest before after hRead hRest
    refine hRest.behind_turn hDelimited hRead (f := id) ?_
    intro text middle hRead
    rw [untilClosed_of_skipped hTurn hRead, Outcome.map_id]
  · intro text middle value values rest before after hRead
      hRest
    exact hRest.behind_turn hDelimited hRead
      fun hRead => untilClosed_of_entry hTurn hRead

end Bodies

------------------------------------------------------------
-- Blocks
------------------------------------------------------------

section Blocks

variable (kind : BlockKind)
variable (place : Diagnostics)

/- What stands in front of the body of a block. -/
def readHead : Parser String := do
  let keyword := kind.keyword
  let name ← readIdentifier s!"{keyword} name"
  expect '\x7b' s!"after {keyword} name \"{name}\""
  write (place.debug s!"Processing {keyword} \"{name}\"")
  pure name

theorem delimited_readHead :
    Delimited (readHead kind place) := by
  refine (peeks_readWordOf _ _).bind_delimited fun name => ?_
  refine (delimited_expect _ _).bind fun _ => ?_
  exact (contained_write _).bind fun _ => contained_pure name

theorem readBlock_eq
    {entry : String → Parser α}
    (hEntry : ∀ name, (entry name).Advances) :
    readBlock kind place entry hEntry =
      readHead kind place >>= fun name =>
        untilClosed
            (readTurn kind name place.nested (entry name))
            (readTurn_advances _ _ _ (hEntry name)) >>=
          fun entries => pure (name, entries) := by
  simp only [readBlock, readHead, bind_assoc, pure_bind]

/- A block ends with the brace that ends its body. -/
theorem braced_readBlock
    {entry : String → Parser α}
    (hEntry : ∀ name, Delimited (entry name))
    (hAdvances : ∀ name, (entry name).Advances) :
    Braced (fun block => kind.body block.1)
      (readBlock kind place entry hAdvances) := by
  rw [readBlock_eq]
  exact (delimited_readHead kind place).contained.bind_braced
    fun name =>
      (braced_untilClosed (hEntry name) _).map fun _ => rfl

end Blocks

------------------------------------------------------------
-- Declarations
------------------------------------------------------------

/- A name, its number, and the semicolon that ends both. -/
theorem delimited_assignment
    (naming : String)
    (afterName afterNumber counting : String → String)
    (record : String → Int64 → Record)
    (declare : String → Int64 → α) :
    Delimited
      (do
        let name ← readIdentifier naming
        expect '=' (afterName name)
        let number ← readInteger (counting name)
        expect ';' (afterNumber name)
        write (record name number)
        pure (declare name number)) := by
  refine (peeks_readWordOf _ _).bind_delimited fun name => ?_
  refine (delimited_expect _ _).bind fun _ => ?_
  refine Delimited.contained ?_
  refine (peeks_readInteger _).bind_delimited
    fun number => ?_
  refine (delimited_expect _ _).bind fun _ => ?_
  exact (contained_write _).bind fun _ => contained_pure _

theorem delimited_readField
    (place : Diagnostics)
    (owner : String)
    (typeName : String)
    (repeated : Bool) :
    Delimited (readField place owner typeName repeated) :=
  delimited_assignment _ _ _ _
    (fun name number =>
      fieldRecord place ⟨name, typeName, number, repeated⟩)
    (Field.mk · typeName · repeated)

theorem delimited_readEnumValue
    (place : Diagnostics)
    (owner : String) :
    Delimited (readEnumValue place owner) :=
  delimited_assignment _ _ _ _
    (fun name number => enumValueRecord place ⟨name, number⟩)
    EnumValue.mk

theorem braced_readEnum (place : Diagnostics) :
    Braced (fun enum => BlockKind.enum.body enum.name)
      (readEnum place) :=
  (braced_readBlock .enum place
    (delimited_readEnumValue place.nested) _).map
    fun _ => rfl

theorem peeks_requireType
    (owner : String)
    (word : String) :
    Peeks (requireType owner word) := by
  unfold requireType
  split
  · exact (contained_pure word).peeks
  · exact (delimited_fail _).contained.peeks

theorem delimited_readAlternative
    (place : Diagnostics)
    (owner : String) :
    Delimited (readAlternative place owner) := by
  refine (peeks_readWord _).bind_delimited fun word => ?_
  split
  · exact delimited_fail _
  · exact (peeks_requireType owner word).bind_delimited
      fun typeName =>
        delimited_readField place owner typeName false

theorem braced_readOneof (place : Diagnostics) :
    Braced (fun oneof => BlockKind.oneof.body oneof.name)
      (readOneof place) :=
  (braced_readBlock .oneof place
    (delimited_readAlternative place.nested) _).map
    fun _ => rfl

theorem delimited_readMemberAfter
    (place : Diagnostics)
    (owner : String)
    (word : String) :
    Delimited (readMemberAfter place owner word) := by
  unfold readMemberAfter
  split
  · exact (braced_readEnum place).delimited.bind fun _ =>
      contained_pure _
  split
  · exact (braced_readOneof place).delimited.bind fun _ =>
      contained_pure _
  split
  · exact delimited_fail _
  split
  · refine (peeks_readWordOf _ _).bind_delimited
      fun typeName => ?_
    exact (delimited_readField place owner typeName true).bind
      fun _ => contained_pure _
  · refine (peeks_requireType owner word).bind_delimited
      fun typeName => ?_
    exact
      (delimited_readField place owner typeName false).bind
        fun _ => contained_pure _

theorem delimited_readMember
    (place : Diagnostics)
    (owner : String) :
    Delimited (readMember place owner) :=
  (peeks_readWord _).bind_delimited fun word =>
    delimited_readMemberAfter place owner word

theorem braced_readMessage (place : Diagnostics) :
    Braced
      (fun message => BlockKind.message.body message.name)
      (readMessage place) :=
  (braced_readBlock .message place
    (delimited_readMember place.nested) _).map
    fun _ => rfl

------------------------------------------------------------
-- Whole Blocks
------------------------------------------------------------

/-
  The parser reads a block that consists of these characters.
  The last one is the brace that closes it: without it, the
  text ends in the body of the block. Whatever follows, the
  same block is read, with the same records, and what follows
  is left; and no shorter text is a block.
-/
structure Encloses
    (parser : Parser α)
    (kind : BlockKind)
    (name : String)
    (chars : List Char)
    (value : α)
    (records : List Record) : Prop where
  closed :
    ∃ body,
      chars = body ++ ['\x7d'] ∧
        ∃ written,
          parser.run body =
            ⟨.error (.unexpectedEnd (kind.body name)), [],
              written⟩
  anywhere :
    ∀ following,
      parser.run (chars ++ following) =
        ⟨.ok value, following, records⟩
  shortest :
    ∀ shorter,
      shorter <+: chars →
        shorter ≠ chars →
          ∀ found, (parser.run shorter).result ≠ .ok found

theorem Braced.encloses
    {parser : Parser α}
    {kind : BlockKind}
    {name : α → String}
    (h : Braced (fun value => kind.body (name value)) parser)
    {chars rest : List Char}
    {value : α}
    {records : List Record}
    (hRun :
      parser.run (chars ++ rest) =
        ⟨.ok value, rest, records⟩) :
    parser.Encloses kind (name value) chars value records := by
  rcases h.readsToBrace hRun with
    ⟨body, hText, hAgain, hOpen⟩
  have hChars : chars = body ++ ['\x7d'] := by
    rw [List.append_cons] at hText
    exact List.append_cancel_right hText
  have hAnywhere :
      ∀ following,
        parser.run (chars ++ following) =
          ⟨.ok value, following, records⟩ := by
    intro following
    rw [hChars, List.append_assoc]
    exact hAgain following
  refine ⟨⟨body, hChars, hOpen⟩, hAnywhere, ?_⟩
  intro shorter hPrefix hShorter found hResult
  rcases hRead : parser.run shorter with
    ⟨result, after, written⟩
  rw [hRead] at hResult
  change result = .ok found at hResult
  subst hResult
  rcases h.delimited.again hRead with
    ⟨c, read, rfl, hAgainRead⟩
  rcases hPrefix with ⟨more, rfl⟩
  have hWhole := hAnywhere []
  have hFront := hAgainRead (after ++ more)
  rw [show c :: (read ++ (after ++ more)) =
      c :: (read ++ after) ++ more ++ [] by simp,
    hWhole, Outcome.mk.injEq] at hFront
  rcases List.append_eq_nil_iff.mp hFront.2.1.symm with
    ⟨_, rfl⟩
  exact hShorter (List.append_nil _).symm

/-
  A message, an enum and an oneof each consist of one block,
  and are read up to the brace that closes it and no further.
-/
theorem blocks_enclose
    (place : Diagnostics)
    (chars rest : List Char)
    (records : List Record) :
    (∀ message,
        (readMessage place).run (chars ++ rest) =
            ⟨.ok message, rest, records⟩ →
          (readMessage place).Encloses .message message.name
            chars message records) ∧
      (∀ enum,
        (readEnum place).run (chars ++ rest) =
            ⟨.ok enum, rest, records⟩ →
          (readEnum place).Encloses .enum enum.name chars
            enum records) ∧
      ∀ oneof,
        (readOneof place).run (chars ++ rest) =
            ⟨.ok oneof, rest, records⟩ →
          (readOneof place).Encloses .oneof oneof.name chars
            oneof records :=
  ⟨fun _ hRun => (braced_readMessage place).encloses hRun,
    fun _ hRun => (braced_readEnum place).encloses hRun,
    fun _ hRun => (braced_readOneof place).encloses hRun⟩

/-
  A message with a oneof in it, and braces in a comment and
  behind the message.
-/
theorem blocks_enclose_nested :
    let place := Diagnostics.topLevel
    let chars :=
      "M\x7boneof o\x7bA a=1;\x7d// \x7d\n\x7d".toList
    let rest := "\x7d;".toList
    let message : Message :=
      ⟨"M", [.oneof ⟨"o", [⟨"a", "A", 1, false⟩]⟩]⟩
    let records :=
      [place.debug "Processing message \"M\"",
        place.nested.debug "Processing oneof \"o\"",
        place.nested.nested.debug
          "Field a is of type A (id = 1)",
        place.nested.trace "Got comment"]
    (readMessage place).run (chars ++ rest) =
        ⟨.ok message, rest, records⟩ ∧
      (readMessage place).Encloses .message "M" chars
        message records := by
  intro place chars rest message records
  have hRun :
      (readMessage place).run (chars ++ rest) =
        ⟨.ok message, rest, records⟩ :=
    Outcome.eq_mk_iff.mpr
      ⟨by decide +kernel, by decide +kernel,
        by decide +kernel⟩
  exact ⟨hRun,
    (blocks_enclose place chars rest records).1 message hRun⟩

end Parser

end ProtoSchema
