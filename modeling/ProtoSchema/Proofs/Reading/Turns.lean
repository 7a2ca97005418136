import ProtoSchema.Parser.Block

/-
  The loop over the turns of a block, unrolled: what it does
  is decided by its first turn, and what holds of every way
  that a turn can end holds of the loop.

  Main theorems:
    * `Parser.untilClosed_of_entry`
    * `Parser.untilClosed_induct`
    * `Parser.untilClosed_ok_induct`
    * `Parser.turnHere_of_entry`
-/

namespace ProtoSchema

theorem Outcome.map_id
    {α : Type}
    (outcome : Outcome α) : outcome.map id = outcome := by
  simp [Outcome.map]

namespace Parser

variable {α : Type}

------------------------------------------------------------
-- The First Turn
------------------------------------------------------------

section FirstTurn

variable {turn : Parser (Turn α)}
variable (hTurn : turn.Advances)
variable {text rest : List Char}
variable {records : List Record}

theorem untilClosed_of_error
    {error : ParseError}
    (hRead : turn.run text = ⟨.error error, rest, records⟩) :
    (untilClosed turn hTurn).run text =
      ⟨.error error, rest, records⟩ := by
  show takeTurns turn hTurn text = _
  rw [takeTurns_eq, hRead]

theorem untilClosed_of_closed
    (hRead : turn.run text = ⟨.ok .closed, rest, records⟩) :
    (untilClosed turn hTurn).run text =
      ⟨.ok [], rest, records⟩ := by
  show takeTurns turn hTurn text = _
  rw [takeTurns_eq, hRead]

theorem untilClosed_of_skipped
    (hRead : turn.run text = ⟨.ok .skipped, rest, records⟩) :
    (untilClosed turn hTurn).run text =
      ((untilClosed turn hTurn).run rest).after records := by
  show takeTurns turn hTurn text = _
  rw [takeTurns_eq, hRead]
  rfl

theorem untilClosed_of_entry
    {value : α}
    (hRead :
      turn.run text = ⟨.ok (.entry value), rest, records⟩) :
    (untilClosed turn hTurn).run text =
      (((untilClosed turn hTurn).run rest).map
        (value :: ·)).after records := by
  show takeTurns turn hTurn text = _
  rw [takeTurns_eq, hRead]
  rfl

/-
  Induction over the turns that are taken, from the last one
  to the first.
-/
theorem untilClosed_induct
    {motive : List Char → Outcome (List α) → Prop}
    (failed :
      ∀ {text rest error records},
        turn.run text = ⟨.error error, rest, records⟩ →
          motive text ⟨.error error, rest, records⟩)
    (closed :
      ∀ {text rest records},
        turn.run text = ⟨.ok .closed, rest, records⟩ →
          motive text ⟨.ok [], rest, records⟩)
    (skipped :
      ∀ {text rest records},
        turn.run text = ⟨.ok .skipped, rest, records⟩ →
          motive rest ((untilClosed turn hTurn).run rest) →
            motive text
              (((untilClosed turn hTurn).run rest).after
                records))
    (entry :
      ∀ {text rest value records},
        turn.run text = ⟨.ok (.entry value), rest, records⟩ →
          motive rest ((untilClosed turn hTurn).run rest) →
            motive text
              ((((untilClosed turn hTurn).run rest).map
                (value :: ·)).after records))
    (text : List Char) :
    motive text ((untilClosed turn hTurn).run text) := by
  induction hLength : text.length using Nat.strongRecOn
    generalizing text with
  | ind length ih =>
      subst hLength
      rcases hRead : turn.run text with
        ⟨error | (_ | _ | value), rest, records⟩
      · rw [untilClosed_of_error hTurn hRead]
        exact failed hRead
      · rw [untilClosed_of_closed hTurn hRead]
        exact closed hRead
      · rw [untilClosed_of_skipped hTurn hRead]
        exact skipped hRead
          (ih _ (hTurn.lt hRead) rest rfl)
      · rw [untilClosed_of_entry hTurn hRead]
        exact entry hRead
          (ih _ (hTurn.lt hRead) rest rfl)

/-
  The same of the turns of a block that is read with success.
-/
theorem untilClosed_ok_induct
    {motive :
      List Char → List α → List Char → List Record → Prop}
    (closed :
      ∀ {text rest records},
        turn.run text = ⟨.ok .closed, rest, records⟩ →
          motive text [] rest records)
    (skipped :
      ∀ {text middle values rest before after},
        turn.run text = ⟨.ok .skipped, middle, before⟩ →
          motive middle values rest after →
            motive text values rest (before ++ after))
    (entry :
      ∀ {text middle value values rest before after},
        turn.run text =
            ⟨.ok (.entry value), middle, before⟩ →
          motive middle values rest after →
            motive text (value :: values) rest
              (before ++ after))
    {values : List α}
    (hRun :
      (untilClosed turn hTurn).run text =
        ⟨.ok values, rest, records⟩) :
    motive text values rest records := by
  revert values rest records
  refine untilClosed_induct hTurn
    (motive := fun text outcome =>
      ∀ {rest records values},
        outcome = ⟨.ok values, rest, records⟩ →
          motive text values rest records)
    ?_ ?_ ?_ ?_ text
  · intro text _ _ _ _ rest records values hRun
    simp at hRun
  · intro text _ _ hRead rest records values hRun
    simp only [Outcome.mk.injEq, Except.ok.injEq] at hRun
    rcases hRun with ⟨rfl, rfl, rfl⟩
    exact closed hRead
  · intro text middle before hRead ih rest records values hRun
    rcases hLater : (untilClosed turn hTurn).run middle with
      ⟨error | found, final, after⟩
    · simp [hLater, Outcome.after] at hRun
    · simp only [hLater, Outcome.after, Outcome.mk.injEq,
        Except.ok.injEq] at hRun
      rcases hRun with ⟨rfl, rfl, rfl⟩
      exact skipped hRead (ih hLater)
  · intro text middle value before hRead ih rest records
      values hRun
    rcases hLater : (untilClosed turn hTurn).run middle with
      ⟨error | found, final, after⟩
    · simp [hLater, Outcome.map, Except.map,
        Outcome.after] at hRun
    · simp only [hLater, Outcome.map, Except.map,
        Outcome.after, Outcome.mk.injEq,
        Except.ok.injEq] at hRun
      rcases hRun with ⟨rfl, rfl, rfl⟩
      exact entry hRead (ih hLater)

end FirstTurn

------------------------------------------------------------
-- The Front of a Turn
------------------------------------------------------------

/- Anything but a brace or a semicolon begins an entry. -/
theorem turnHere_of_entry
    {reading : String}
    {entry : Parser α}
    {c : Char}
    (hBrace : c ≠ '\x7d')
    (hSemicolon : c ≠ ';')
    (rest : List Char) :
    (turnHere reading entry).run (c :: rest) =
      (entry.run (c :: rest)).map .entry := by
  simp only [turnHere]
  split
  · simp_all
  · simp_all
  · simp_all
  · rfl

/- The ways in which a turn can succeed. -/
theorem turnHere_ok
    {reading : String}
    {entry : Parser α}
    {text rest : List Char}
    {turn : Turn α}
    {records : List Record}
    (hRun :
      (turnHere reading entry).run text =
        ⟨.ok turn, rest, records⟩) :
    (turn = .closed ∧ text = '\x7d' :: rest) ∨
      (turn = .skipped ∧ text = ';' :: rest) ∨
        ∃ value,
          turn = .entry value ∧
            entry.run text = ⟨.ok value, rest, records⟩ := by
  simp only [turnHere] at hRun
  split at hRun
  · simp at hRun
  · simp only [Outcome.mk.injEq, Except.ok.injEq] at hRun
    rcases hRun with ⟨rfl, rfl, _⟩
    exact .inl ⟨rfl, rfl⟩
  · simp only [Outcome.mk.injEq, Except.ok.injEq] at hRun
    rcases hRun with ⟨rfl, rfl, _⟩
    exact .inr (.inl ⟨rfl, rfl⟩)
  · rcases hRead : entry.run text with
      ⟨error | value, rest', records'⟩
    · simp [hRead, Outcome.map, Except.map] at hRun
    · simp only [hRead, Outcome.map, Except.map,
        Outcome.mk.injEq, Except.ok.injEq] at hRun
      rcases hRun with ⟨rfl, rfl, rfl⟩
      exact .inr (.inr ⟨value, rfl, rfl⟩)

end Parser

end ProtoSchema
