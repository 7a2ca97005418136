import ProtoSchema.Diagnostics
import ProtoSchema.Error

/-
  Parsers: functions from the text that remains to a result,
  the text that remains then, and the records written on the
  way. A parser that fails keeps its place and its records.

  Key definitions include:
    * `Outcome`
    * `Parser`
    * `Parser.fail`
    * `Parser.write`

  Main theorems:
    * `Parser.bind_of_ok`
    * `Parser.bind_of_error`
    * `Parser.bind_eq_ok_iff`
-/

namespace ProtoSchema

/-
  What a parser leaves behind: its result, the text after
  the place that it reached, and its records in order.
-/
structure Outcome (α : Type) where
  result : Except ParseError α
  rest : List Char
  records : List Record

namespace Outcome

/- The same outcome with earlier records in front. -/
def after
    {α : Type}
    (records : List Record)
    (outcome : Outcome α) : Outcome α :=
  ⟨outcome.result, outcome.rest,
    records ++ outcome.records⟩

/- The same outcome with another value, if it has one. -/
def map
    {α β : Type}
    (f : α → β)
    (outcome : Outcome α) : Outcome β :=
  ⟨outcome.result.map f, outcome.rest, outcome.records⟩

end Outcome

/- A reader of the text that remains. -/
structure Parser (α : Type) where
  run : List Char → Outcome α

namespace Parser

/- Read nothing and answer with a value. -/
protected def pure
    {α : Type}
    (value : α) : Parser α where
  run text := ⟨.ok value, text, []⟩

/-
  Read with one parser and go on with the next where it
  stopped. An error of the first ends both.
-/
protected def bind
    {α β : Type}
    (first : Parser α)
    (next : α → Parser β) : Parser β where
  run text :=
    match first.run text with
    | ⟨.error error, rest, records⟩ =>
        ⟨.error error, rest, records⟩
    | ⟨.ok value, rest, records⟩ =>
        ((next value).run rest).after records

instance : Monad Parser where
  pure := Parser.pure
  bind := Parser.bind

/- Read nothing and fail. -/
def fail
    {α : Type}
    (error : ParseError) : Parser α where
  run text := ⟨.error error, text, []⟩

/- Read nothing and write a record. -/
def write (record : Record) : Parser Unit where
  run text := ⟨.ok (), text, [record]⟩

/- Read nothing and answer with a step that may fail. -/
def ofExcept
    {α : Type}
    (step : Except ParseError α) : Parser α where
  run text := ⟨step, text, []⟩

------------------------------------------------------------
-- Sequencing
------------------------------------------------------------

section Sequencing

variable {α β : Type}
variable {first : Parser α}
variable {next : α → Parser β}
variable {text rest : List Char}
variable {records : List Record}

/- After a success the next parser reads on. -/
theorem bind_of_ok
    {value : α}
    (h : first.run text = ⟨.ok value, rest, records⟩) :
    (first >>= next).run text =
      ((next value).run rest).after records := by
  show (Parser.bind first next).run text = _
  simp only [Parser.bind, h]

/- After an error nothing is read. -/
theorem bind_of_error
    {error : ParseError}
    (h : first.run text = ⟨.error error, rest, records⟩) :
    (first >>= next).run text =
      ⟨.error error, rest, records⟩ := by
  show (Parser.bind first next).run text = _
  simp only [Parser.bind, h]

/-
  A sequence succeeds exactly if both of its parsers do, one
  after the other.
-/
theorem bind_eq_ok_iff
    {value : β} :
    (first >>= next).run text =
        ⟨.ok value, rest, records⟩ ↔
      ∃ found middle before after,
        first.run text = ⟨.ok found, middle, before⟩ ∧
          (next found).run middle =
            ⟨.ok value, rest, after⟩ ∧
          records = before ++ after := by
  rcases h : first.run text with ⟨result, middle, before⟩
  cases result with
  | error error =>
      rw [bind_of_error h]
      simp
  | ok found =>
      rw [bind_of_ok h]
      rcases hNext : (next found).run middle with
        ⟨result, rest', after⟩
      simp only [Outcome.after, Outcome.mk.injEq,
        Except.ok.injEq]
      constructor
      · rintro ⟨rfl, rfl, rfl⟩
        exact ⟨found, middle, before, after,
          ⟨rfl, rfl, rfl⟩, hNext, rfl⟩
      · rintro ⟨_, _, _, after', ⟨rfl, rfl, rfl⟩, hRun,
          rfl⟩
        rw [hNext] at hRun
        simp only [Outcome.mk.injEq] at hRun
        rcases hRun with ⟨rfl, rfl, rfl⟩
        exact ⟨rfl, rfl, rfl⟩

/- A constant parser. -/
theorem pure_eq
    (value : α)
    (text : List Char) :
    (pure value : Parser α).run text =
      ⟨.ok value, text, []⟩ :=
  rfl

end Sequencing

------------------------------------------------------------
-- Laws
------------------------------------------------------------

section Laws

variable {α β γ : Type}

/- No earlier records change nothing. -/
@[simp] theorem after_nil (outcome : Outcome α) :
    outcome.after [] = outcome :=
  rfl

@[simp] theorem after_after
    (before records : List Record)
    (outcome : Outcome α) :
    (outcome.after records).after before =
      outcome.after (before ++ records) := by
  simp [Outcome.after]

/- Two parsers are the same if they read every text alike. -/
theorem ext_run
    {left right : Parser α}
    (hRun : ∀ text, left.run text = right.run text) :
    left = right := by
  cases left
  cases right
  simpa using funext hRun

protected theorem bind_assoc
    (first : Parser α)
    (next : α → Parser β)
    (last : β → Parser γ) :
    (first >>= next) >>= last =
      first >>= fun value => next value >>= last := by
  apply ext_run
  intro text
  rcases hFirst : first.run text with
    ⟨error | value, rest, records⟩
  · rw [bind_of_error (bind_of_error hFirst),
      bind_of_error hFirst]
  · rw [bind_of_ok hFirst]
    have hBind : (first >>= next).run text =
        ((next value).run rest).after records :=
      bind_of_ok hFirst
    rcases hNext : (next value).run rest with
      ⟨error | found, rest', records'⟩
    · rw [hNext] at hBind
      rw [bind_of_error hBind, bind_of_error hNext]
      rfl
    · rw [hNext] at hBind
      rw [bind_of_ok hBind, bind_of_ok hNext, after_after]

/- A failure is final. -/
theorem fail_bind
    (error : ParseError)
    (next : α → Parser β) :
    fail error >>= next = fail error :=
  rfl

instance : LawfulMonad Parser :=
  LawfulMonad.mk' Parser
    (fun parser => ext_run fun text => by
      show (parser >>= fun value => pure value).run text = _
      rcases h : parser.run text with
        ⟨error | value, rest, records⟩
      · rw [bind_of_error h]
      · rw [bind_of_ok h, pure_eq]
        simp [Outcome.after])
    (fun _ _ => rfl)
    Parser.bind_assoc

end Laws

end Parser

end ProtoSchema
