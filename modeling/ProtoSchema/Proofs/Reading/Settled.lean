import ProtoSchema.Parser.Basic

/-
  Running out of text. A parser that does not run out of text
  is settled if it does the same when more lines follow.

  Key definitions include:
    * `Outcome.Unfinished`
    * `Outcome.followedBy`
    * `Parser.Settled`

  Main theorems:
    * `Parser.Settled.of_ok`
    * `Parser.bind_unfinished_iff`
-/

namespace ProtoSchema

------------------------------------------------------------
-- Outcomes
------------------------------------------------------------

namespace Outcome

variable {α β : Type}

/- The text ended before the parser did. -/
def Unfinished (outcome : Outcome α) : Prop :=
  ∃ reading, outcome.result = .error (.unexpectedEnd reading)

/- The same outcome with more text after what remains. -/
def followedBy
    (more : List Char)
    (outcome : Outcome α) : Outcome α :=
  ⟨outcome.result, outcome.rest ++ more, outcome.records⟩

theorem Unfinished.after
    {outcome : Outcome α}
    (h : outcome.Unfinished)
    (records : List Record) :
    (outcome.after records).Unfinished :=
  h

@[simp] theorem not_unfinished_ok
    (value : α)
    (rest : List Char)
    (records : List Record) :
    ¬ Unfinished ⟨.ok value, rest, records⟩ := by
  simp [Unfinished]

@[simp] theorem unfinished_error_iff
    {error : ParseError}
    {rest : List Char}
    {records : List Record} :
    Unfinished (⟨.error error, rest, records⟩ : Outcome α) ↔
      ∃ reading, error = .unexpectedEnd reading := by
  simp [Unfinished]

theorem unfinished_map_iff
    {outcome : Outcome α}
    {f : α → β} :
    (outcome.map f).Unfinished ↔ outcome.Unfinished := by
  rcases outcome with ⟨error | value, rest, records⟩
  · simp [Outcome.map, Except.map]
  · simp [Outcome.map, Except.map]

end Outcome

namespace Parser

variable {α β : Type}

/-
  If the parser does not run out of text, then lines that
  follow are left alone.
-/
def Settled (parser : Parser α) : Prop :=
  ∀ text more,
    (parser.run text).Unfinished ∨
      parser.run (text ++ '\n' :: more) =
        (parser.run text).followedBy ('\n' :: more)

variable {parser : Parser α}
variable {next : α → Parser β}
variable {text rest : List Char}
variable {records : List Record}

/- What has been read is read again when lines follow. -/
theorem Settled.of_ok
    (h : Settled parser)
    {value : α}
    (hRun : parser.run text = ⟨.ok value, rest, records⟩)
    (more : List Char) :
    parser.run (text ++ '\n' :: more) =
      ⟨.ok value, rest ++ '\n' :: more, records⟩ := by
  have hMore := h text more
  rw [hRun] at hMore
  rcases hMore with hEnd | hMore
  · simp at hEnd
  · exact hMore

/-
  A sequence runs out of text in its first parser, or behind
  what that one has read.
-/
theorem bind_unfinished_iff :
    ((parser >>= next).run text).Unfinished ↔
      (parser.run text).Unfinished ∨
        ∃ value rest records,
          parser.run text = ⟨.ok value, rest, records⟩ ∧
            ((next value).run rest).Unfinished := by
  rcases hRun : parser.run text with
    ⟨error | value, rest, records⟩
  · rw [bind_of_error hRun]
    simp
  · rw [bind_of_ok hRun]
    constructor
    · intro hEnd
      exact .inr ⟨value, rest, records, rfl, hEnd⟩
    · intro h
      rcases h with hEnd | ⟨_, _, _, hFound, hEnd⟩
      · simp at hEnd
      · simp only [Outcome.mk.injEq, Except.ok.injEq]
          at hFound
        rcases hFound with ⟨hValue, hRest, _⟩
        subst hValue hRest
        exact hEnd.after records

end Parser

end ProtoSchema
