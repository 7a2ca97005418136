import ProtoSchema.Parser.Scan

/-
  Named blocks: a name, an opening brace, entries with stray
  semicolons between them, and the closing brace. Each turn
  of the loop reads at least one character, so the loop ends.

  Key definitions include:
    * `Turn`
    * `untilClosed`
    * `readTurn`
    * `BlockKind`
    * `readBlock`

  Main theorems:
    * `takeTurns_eq`
    * `untilClosed_shrinks`
    * `readTurn_advances`
    * `readBlock_advances`
-/

namespace ProtoSchema

namespace Parser

------------------------------------------------------------
-- Turns
------------------------------------------------------------

/- What one turn of a block has read. -/
inductive Turn (α : Type) where
  | closed
  | skipped
  | entry (value : α)

/-
  Take turns over the text until the block is closed, and
  collect the entries in order.
-/
def takeTurns
    {α : Type}
    (turn : Parser (Turn α))
    (hTurn : turn.Advances)
    (text : List Char) : Outcome (List α) :=
  match _hRead : turn.run text with
  | ⟨.error error, rest, records⟩ =>
      ⟨.error error, rest, records⟩
  | ⟨.ok .closed, rest, records⟩ =>
      ⟨.ok [], rest, records⟩
  | ⟨.ok .skipped, rest, records⟩ =>
      (takeTurns turn hTurn rest).after records
  | ⟨.ok (.entry value), rest, records⟩ =>
      ((takeTurns turn hTurn rest).map
        (value :: ·)).after records
termination_by text.length
decreasing_by
  · exact hTurn.lt _hRead
  · exact hTurn.lt _hRead

/- One turn, and the turns after it. -/
theorem takeTurns_eq
    {α : Type}
    (turn : Parser (Turn α))
    (hTurn : turn.Advances)
    (text : List Char) :
    takeTurns turn hTurn text =
      match turn.run text with
      | ⟨.error error, rest, records⟩ =>
          ⟨.error error, rest, records⟩
      | ⟨.ok .closed, rest, records⟩ =>
          ⟨.ok [], rest, records⟩
      | ⟨.ok .skipped, rest, records⟩ =>
          (takeTurns turn hTurn rest).after records
      | ⟨.ok (.entry value), rest, records⟩ =>
          ((takeTurns turn hTurn rest).map
            (value :: ·)).after records := by
  rw [takeTurns]
  rcases turn.run text with
    ⟨error | (_ | _ | value), rest, records⟩ <;> rfl

/- Read up to the end of the block. -/
def untilClosed
    {α : Type}
    (turn : Parser (Turn α))
    (hTurn : turn.Advances) : Parser (List α) where
  run := takeTurns turn hTurn

theorem untilClosed_shrinks
    {α : Type}
    (turn : Parser (Turn α))
    (hTurn : turn.Advances) :
    (untilClosed turn hTurn).Shrinks := by
  intro text
  show (takeTurns turn hTurn text).rest <:+ text
  induction hLength : text.length using Nat.strongRecOn
    generalizing text with
  | ind length ih =>
      subst hLength
      have hRest := hTurn.shrinks text
      rw [takeTurns_eq]
      rcases h : turn.run text with
        ⟨error | (_ | _ | value), rest, records⟩
      · rw [h] at hRest
        exact hRest
      · rw [h] at hRest
        exact hRest
      · rw [h] at hRest
        exact (ih _ (hTurn.lt h) rest rfl).trans hRest
      · rw [h] at hRest
        exact (ih _ (hTurn.lt h) rest rfl).trans hRest

------------------------------------------------------------
-- Comments Between Declarations
------------------------------------------------------------

/- Skip a gap, and note the comments in it by one record. -/
def noteComments (place : Diagnostics) : Parser Unit := do
  let comments ← skipGap
  if comments > 0 then
    write (place.trace "Got comment")
  else
    pure ()

theorem noteComments_shrinks (place : Diagnostics) :
    (noteComments place).Shrinks :=
  skipGap_shrinks.bind fun comments => by
    split
    · exact shrinks_write _
    · exact shrinks_pure _

------------------------------------------------------------
-- Blocks
------------------------------------------------------------

/-
  The kinds of blocks, by the keyword that opens them.
-/
inductive BlockKind where
  | message
  | enum
  | oneof
deriving DecidableEq, Repr

/- The keyword of a kind of blocks. -/
def BlockKind.keyword : BlockKind → String
  | message => "message"
  | enum => "enum"
  | oneof => "oneof"

/-
  What stands at the front of the text between entries: the
  closing brace, a stray semicolon, or an entry.
-/
def turnHere
    {α : Type}
    (reading : String)
    (entry : Parser α) : Parser (Turn α) where
  run
    | [] => ⟨.error (.unexpectedEnd reading), [], []⟩
    | '\x7d' :: rest => ⟨.ok .closed, rest, []⟩
    | ';' :: rest => ⟨.ok .skipped, rest, []⟩
    | text => (entry.run text).map .entry

theorem turnHere_advances
    {α : Type}
    (reading : String)
    {entry : Parser α}
    (hEntry : entry.Advances) :
    (turnHere reading entry).Advances where
  shrinks := by
    intro text
    unfold turnHere
    dsimp only
    split
    · exact List.suffix_refl _
    · exact List.suffix_cons _ _
    · exact List.suffix_cons _ _
    · exact hEntry.shrinks _
  lt := by
    intro text rest value records h
    unfold turnHere at h
    dsimp only at h
    split at h
    · simp at h
    · simp only [Outcome.mk.injEq] at h
      simp [h.2.1]
    · simp only [Outcome.mk.injEq] at h
      simp [h.2.1]
    · rcases hRead : entry.run text with
        ⟨result, middle, written⟩
      rw [hRead] at h
      cases result with
      | error error =>
          simp [Outcome.map, Except.map] at h
      | ok found =>
          simp only [Outcome.map, Except.map,
            Outcome.mk.injEq] at h
          rw [← h.2.1]
          exact hEntry.lt hRead

/- One turn in the body of a block. -/
def readTurn
    {α : Type}
    (kind : BlockKind)
    (name : String)
    (place : Diagnostics)
    (entry : Parser α) : Parser (Turn α) := do
  noteComments place
  let keyword := kind.keyword
  turnHere s!"body of {keyword} \"{name}\"" entry

theorem readTurn_advances
    {α : Type}
    (kind : BlockKind)
    (name : String)
    (place : Diagnostics)
    {entry : Parser α}
    (hEntry : entry.Advances) :
    (readTurn kind name place entry).Advances :=
  (noteComments_shrinks place).bind_advances fun _ =>
    turnHere_advances _ hEntry

/-
  Read a block, whose keyword has been read already. Each
  entry is read by a parser that knows the block's name.
-/
def readBlock
    {α : Type}
    (kind : BlockKind)
    (place : Diagnostics)
    (entry : String → Parser α)
    (hEntry : ∀ name, (entry name).Advances) :
    Parser (String × List α) := do
  let keyword := kind.keyword
  let name ← readIdentifier s!"{keyword} name"
  expect '\x7b' s!"after {keyword} name \"{name}\""
  write (place.debug s!"Processing {keyword} \"{name}\"")
  let entries ←
    untilClosed
      (readTurn kind name place.nested (entry name))
      (readTurn_advances _ _ _ (hEntry name))
  pure (name, entries)

theorem readBlock_advances
    {α : Type}
    (kind : BlockKind)
    (place : Diagnostics)
    (entry : String → Parser α)
    (hEntry : ∀ name, (entry name).Advances) :
    (readBlock kind place entry hEntry).Advances :=
  (readWordOf_advances _ _).bind fun _ =>
    (expect_advances _ _).shrinks.bind fun _ =>
      (shrinks_write _).bind fun _ =>
        (untilClosed_shrinks _ _).bind fun _ =>
          shrinks_pure _

end Parser

end ProtoSchema
