import ProtoSchema.Parser.Basic

/-
  How far parsers read. A parser that shrinks the text never
  leaves more than it was given, and one that advances has
  read at least one character whenever it succeeds. The
  second property is what ends every loop of the grammar.

  Key definitions include:
    * `Parser.Shrinks`
    * `Parser.Advances`

  Main theorems:
    * `Parser.Shrinks.bind`
    * `Parser.Advances.bind`
    * `Parser.Shrinks.bind_advances`
-/

namespace ProtoSchema

namespace Parser

variable {α β : Type}

/-
  The text that remains is always a final part of the text
  that was given, on success and on failure.
-/
def Shrinks (parser : Parser α) : Prop :=
  ∀ text, (parser.run text).rest <:+ text

/-
  The parser shrinks the text, and by at least a character
  when it succeeds.
-/
structure Advances (parser : Parser α) : Prop where
  shrinks : parser.Shrinks
  lt :
    ∀ {text rest : List Char} {value : α}
      {records : List Record},
      parser.run text = ⟨.ok value, rest, records⟩ →
        rest.length < text.length

------------------------------------------------------------
-- Parsers That Read Nothing
------------------------------------------------------------

theorem shrinks_pure (value : α) :
    (pure value : Parser α).Shrinks :=
  fun text => List.suffix_refl text

theorem shrinks_fail (error : ParseError) :
    (fail error : Parser α).Shrinks :=
  fun text => List.suffix_refl text

theorem shrinks_write (record : Record) :
    (write record).Shrinks :=
  fun text => List.suffix_refl text

theorem shrinks_ofExcept (step : Except ParseError α) :
    (ofExcept step).Shrinks :=
  fun text => List.suffix_refl text

------------------------------------------------------------
-- Sequences
------------------------------------------------------------

variable {first : Parser α}
variable {next : α → Parser β}

/- A sequence of shrinking parsers shrinks. -/
theorem Shrinks.bind
    (hFirst : first.Shrinks)
    (hNext : ∀ value, (next value).Shrinks) :
    (first >>= next).Shrinks := by
  intro text
  have hRest := hFirst text
  rcases h : first.run text with ⟨result, rest, records⟩
  rw [h] at hRest
  cases result with
  | error error =>
      rw [bind_of_error h]
      exact hRest
  | ok value =>
      rw [bind_of_ok h]
      exact (hNext value rest).trans hRest

/- A sequence advances if its first parser does. -/
theorem Advances.bind
    (hFirst : first.Advances)
    (hNext : ∀ value, (next value).Shrinks) :
    (first >>= next).Advances where
  shrinks := hFirst.shrinks.bind hNext
  lt := by
    intro text rest value records hBind
    rcases bind_eq_ok_iff.mp hBind with
      ⟨found, middle, before, after, hRun, hRest, _⟩
    have hSuffix := hNext found middle
    rw [hRest] at hSuffix
    exact Nat.lt_of_le_of_lt hSuffix.length_le
      (hFirst.lt hRun)

/- A sequence advances if its last parser does. -/
theorem Shrinks.bind_advances
    (hFirst : first.Shrinks)
    (hNext : ∀ value, (next value).Advances) :
    (first >>= next).Advances where
  shrinks := hFirst.bind fun value => (hNext value).shrinks
  lt := by
    intro text rest value records hBind
    rcases bind_eq_ok_iff.mp hBind with
      ⟨found, middle, before, after, hRun, hRest, _⟩
    have hSuffix := hFirst text
    rw [hRun] at hSuffix
    exact Nat.lt_of_lt_of_le ((hNext found).lt hRest)
      hSuffix.length_le

end Parser

end ProtoSchema
