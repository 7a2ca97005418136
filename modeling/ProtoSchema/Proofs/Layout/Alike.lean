import ProtoSchema.Proofs.Layout.Scanning
import ProtoSchema.Proofs.Reading.Turns

/-
  Two readings of texts that spell the same lexemes, side by
  side. A parser is free of layout if it answers both alike,
  whether it succeeds or fails, and differs in traces only.

  Key definitions include:
    * `Alike`
    * `reported`
    * `Outcome.Agrees`
    * `Parser.LayoutFree`
    * `Parser.LayoutFreeHere`

  Main theorems:
    * `Alike.gap_iff`
    * `Parser.LayoutFree.bind`
    * `Parser.LayoutFreeHere.of_gap`
    * `Parser.LayoutFree.readWord_bind`
    * `Parser.LayoutFree.untilClosed`
-/

namespace ProtoSchema

------------------------------------------------------------
-- Alike Texts
------------------------------------------------------------

/- The texts spell the same lexemes. -/
def Alike (left right : List Char) : Prop :=
  ∃ lexemes, Spells lexemes left ∧ Spells lexemes right

/- Gaps are the spellings of nothing. -/
theorem Spells.gap_iff
    {lexemes : List Lexeme}
    {text : List Char}
    (h : Spells lexemes text) :
    Gap true text ↔ lexemes = [] := by
  constructor
  · intro hGap
    rcases Parser.skipGap_of_spells h with
      ⟨comments, rest, hSkip, _, hRest⟩
    have hFinal : ∃ comments,
        Parser.skipGap.run text = ⟨.ok comments, [], []⟩ :=
      Parser.skipGap_eq_ok_iff.mpr
        ⟨ungapped_nil, text, hGap, by simp⟩
    rcases hFinal with ⟨comments', hFinal⟩
    rw [hSkip] at hFinal
    simp only [Outcome.mk.injEq] at hFinal
    rw [hFinal.2.1] at hRest
    exact hRest.eq_nil
  · intro hNil
    subst hNil
    cases h with
    | finish hGap => exact hGap

/- Of two alike texts both are gaps or neither. -/
theorem Alike.gap_iff
    {left right : List Char}
    (h : Alike left right) :
    Gap true left ↔ Gap true right := by
  rcases h with ⟨lexemes, hLeft, hRight⟩
  rw [hLeft.gap_iff, hRight.gap_iff]

/-
  Without gaps at the front, alike texts begin with the same
  lexeme, or both are empty.
-/
theorem Alike.cases
    {left right : List Char}
    (hAlike : Alike left right)
    (hLeft : Ungapped left)
    (hRight : Ungapped right) :
    (left = [] ∧ right = []) ∨
      ∃ (first : Lexeme) (rest rest' : List Char),
        left = first.chars ++ rest ∧
          right = first.chars ++ rest' ∧
            Alike rest rest' ∧
              (first.isWord = true →
                WordEnds rest ∧ WordEnds rest') := by
  rcases hAlike with ⟨lexemes, hSpells, hSpells'⟩
  cases lexemes with
  | nil =>
      exact .inl ⟨hSpells.eq_nil_of_ungapped hLeft,
        hSpells'.eq_nil_of_ungapped hRight⟩
  | cons first lexemes =>
      rcases hSpells.exists_rest hLeft with
        ⟨rest, hText, hRest⟩
      rcases hSpells'.exists_rest hRight with
        ⟨rest', hText', hRest'⟩
      refine .inr ⟨first, rest, rest', hText, hText',
        ⟨lexemes, hRest.spells, hRest'.spells⟩, ?_⟩
      intro hWord
      rw [hWord] at hRest hRest'
      exact ⟨hRest.wordEnds, hRest'.wordEnds⟩

------------------------------------------------------------
-- Agreeing Outcomes
------------------------------------------------------------

/- The records that are not mere traces. -/
def reported (records : List Record) : List Record :=
  records.filter (·.level ≠ .trace)

@[simp] theorem reported_append
    (before after : List Record) :
    reported (before ++ after) =
      reported before ++ reported after :=
  List.filter_append before after

/-
  The results are the same, and so are the reported records.
  After a success the texts that remain are alike.
-/
structure Outcome.Agrees
    {α : Type}
    (left right : Outcome α) : Prop where
  result : left.result = right.result
  reports : reported left.records = reported right.records
  rest :
    ∀ value,
      left.result = .ok value → Alike left.rest right.rest

namespace Outcome.Agrees

variable {α β : Type}
variable {left right : Outcome α}

/- Earlier records may be put in front, up to traces. -/
theorem after
    (h : left.Agrees right)
    {before before' : List Record}
    (hBefore : reported before = reported before') :
    (left.after before).Agrees (right.after before') where
  result := h.result
  reports := by
    show reported (before ++ left.records) =
      reported (before' ++ right.records)
    rw [reported_append, reported_append, hBefore, h.reports]
  rest := h.rest

theorem map
    (h : left.Agrees right)
    (f : α → β) : (left.map f).Agrees (right.map f) where
  result := congrArg (Except.map f) h.result
  reports := h.reports
  rest := by
    intro value hValue
    rcases left with ⟨error | found, rest, records⟩
    · simp [Outcome.map, Except.map] at hValue
    · exact h.rest found rfl

/- Two failures with one error and no records agree. -/
theorem failed
    (error : ParseError)
    (rest rest' : List Char) :
    (Outcome.mk (.error error) rest [] : Outcome α).Agrees
      ⟨.error error, rest', []⟩ :=
  ⟨rfl, rfl, by simp⟩

/- So do two successes with one value and alike rests. -/
theorem succeeded
    (value : α)
    {rest rest' : List Char}
    (hRest : Alike rest rest') :
    (Outcome.mk (.ok value) rest []).Agrees
      ⟨.ok value, rest', []⟩ :=
  ⟨rfl, rfl, fun _ _ => hRest⟩

/- What agrees with a failure is a failure. -/
theorem of_error
    {error : ParseError}
    {rest : List Char}
    {records : List Record}
    (h : (Outcome.mk (.error error) rest records).Agrees
      right) :
    ∃ rest' records',
      right = ⟨.error error, rest', records'⟩ ∧
        reported records = reported records' := by
  rcases right with ⟨result, rest', records'⟩
  have hResult : .error error = result := h.result
  subst hResult
  exact ⟨rest', records', rfl, h.reports⟩

/- What agrees with a success is a success. -/
theorem of_ok
    {value : α}
    {rest : List Char}
    {records : List Record}
    (h : (Outcome.mk (.ok value) rest records).Agrees
      right) :
    ∃ rest' records',
      right = ⟨.ok value, rest', records'⟩ ∧
        reported records = reported records' ∧
          Alike rest rest' := by
  rcases right with ⟨result, rest', records'⟩
  have hResult : .ok value = result := h.result
  subst hResult
  exact ⟨rest', records', rfl, h.reports, h.rest value rfl⟩

end Outcome.Agrees

------------------------------------------------------------
-- Freedom of Layout
------------------------------------------------------------

namespace Parser

variable {α β : Type}

/- The parser answers alike texts alike. -/
def LayoutFree (parser : Parser α) : Prop :=
  ∀ (left right : List Char),
    Alike left right →
      (parser.run left).Agrees (parser.run right)

/- The same of texts that no gap begins. -/
def LayoutFreeHere (parser : Parser α) : Prop :=
  ∀ (left right : List Char),
    Ungapped left →
      Ungapped right →
        Alike left right →
          (parser.run left).Agrees (parser.run right)

section Sequencing

variable {parser : Parser α}
variable {next : α → Parser β}

theorem LayoutFree.here
    (h : LayoutFree parser) : LayoutFreeHere parser :=
  fun left right _ _ hAlike => h left right hAlike

theorem layoutFree_pure (value : α) :
    LayoutFree (pure value) :=
  fun _ _ hAlike => .succeeded value hAlike

theorem layoutFree_fail (error : ParseError) :
    LayoutFree (fail error : Parser α) :=
  fun _ _ _ => .failed error _ _

theorem layoutFree_write (record : Record) :
    LayoutFree (write record) :=
  fun _ _ hAlike => ⟨rfl, rfl, fun _ _ => hAlike⟩

theorem layoutFree_ofExcept
    (step : Except ParseError α) :
    LayoutFree (ofExcept step) :=
  fun _ _ hAlike => ⟨rfl, rfl, fun _ _ => hAlike⟩

/- Agreement is kept from one parser to the next. -/
theorem LayoutFree.bind
    (hFirst : LayoutFree parser)
    (hNext : ∀ value, LayoutFree (next value)) :
    LayoutFree (parser >>= next) := by
  intro left right hAlike
  have hAgrees := hFirst _ _ hAlike
  rcases hLeft : parser.run left with
    ⟨error | value, rest, records⟩
  · rw [hLeft] at hAgrees
    rcases hAgrees.of_error with
      ⟨rest', records', hRight, hReports⟩
    rw [bind_of_error hLeft, bind_of_error hRight]
    exact ⟨rfl, hReports, by simp⟩
  · rw [hLeft] at hAgrees
    rcases hAgrees.of_ok with
      ⟨rest', records', hRight, hReports, hRest⟩
    rw [bind_of_ok hLeft, bind_of_ok hRight]
    exact (hNext value _ _ hRest).after hReports

/-
  What is decided behind a gap does not depend on the gap.
  Skipping it may leave traces, but no other records.
-/
theorem LayoutFreeHere.of_gap
    {gap : Parser α}
    {parser : Parser β}
    (h : LayoutFreeHere parser)
    (hSkips : SkipsGap gap)
    (hTraces :
      ∀ {text value rest records},
        gap.run text = ⟨.ok value, rest, records⟩ →
          reported records = []) :
    LayoutFree (gap >>= fun _ => parser) := by
  intro left right hAlike
  rcases hAlike with ⟨lexemes, hLeft, hRight⟩
  have hBehind : ∀ {text},
      Spells lexemes text →
        ∃ rest value records,
          gap.run text = ⟨.ok value, rest, records⟩ ∧
            reported records = [] ∧
              Ungapped rest ∧ Spells lexemes rest := by
    intro text hText
    rcases skipGap_of_spells hText with
      ⟨comments, rest, hSkip, hFront, hRest⟩
    rcases hSkips.mpr ⟨comments, hSkip⟩ with
      ⟨value, records, hRun⟩
    exact ⟨rest, value, records, hRun, hTraces hRun,
      hFront, hRest⟩
  rcases hBehind hLeft with
    ⟨rest, value, records, hRun, hReports, hFront, hRest⟩
  rcases hBehind hRight with
    ⟨rest', value', records', hRun', hReports', hFront',
      hRest'⟩
  rw [bind_of_ok hRun, bind_of_ok hRun']
  have hAgrees :=
    h _ _ hFront hFront' ⟨lexemes, hRest, hRest'⟩
  exact hAgrees.after (hReports.trans hReports'.symm)

theorem LayoutFreeHere.skipGap
    (h : LayoutFreeHere parser) :
    LayoutFree (skipGap >>= fun _ => parser) := by
  apply h.of_gap skipsGap_skipGap
  intro text comments rest records hRun
  have hRecords := skipGap_records text
  rw [hRun] at hRecords
  exact congrArg reported hRecords

/- A record of comments is a trace. -/
theorem reported_of_noteComments
    {place : Diagnostics}
    {text rest : List Char}
    {records : List Record}
    (hRun :
      (noteComments place).run text =
        ⟨.ok (), rest, records⟩) :
    reported records = [] := by
  rcases noteComments_eq_ok_iff.mp hRun with
    ⟨comments, _, hRecords⟩
  rw [hRecords]
  split
  · rfl
  · rfl

theorem LayoutFreeHere.noteComments
    (h : LayoutFreeHere parser)
    (place : Diagnostics) :
    LayoutFree (noteComments place >>= fun _ => parser) :=
  h.of_gap (skipsGap_noteComments place)
    reported_of_noteComments

end Sequencing

------------------------------------------------------------
-- Basic Parsers
------------------------------------------------------------

/- A mark that has to follow is looked for behind the gap. -/
theorem layoutFree_expect
    (sign : Mark)
    (context : String) :
    LayoutFree (expect sign.char context) := by
  apply LayoutFreeHere.skipGap
  intro left right hLeft hRight hAlike
  rcases hAlike.cases hLeft hRight with
    ⟨rfl, rfl⟩ | ⟨first, rest, rest', rfl, rfl, hRest, _⟩
  · exact .failed _ _ _
  · rcases first.exists_cons with ⟨c, tail, hChars⟩
    by_cases hChar : c = sign.char
    · subst hChar
      rw [Lexeme.eq_mark hChars]
      simp only [Lexeme.chars, List.singleton_append,
        require_cons]
      exact .succeeded () hRest
    · rw [hChars]
      simp only [List.cons_append]
      rw [require_of_ne hChar, require_of_ne hChar]
      exact .failed _ _ _

/-
  A word is read and judged alike. Only a double quote is no
  word that could be accepted: behind it, the text is not
  spelled by lexemes.
-/
theorem LayoutFree.readWord_bind
    {next : String → Parser β}
    (hNext : ∀ word, LayoutFree (next word))
    (hQuote :
      ∃ error, next (String.singleton '"') = fail error)
    (reading : String) :
    LayoutFree (readWord reading >>= next) := by
  rw [readWord, bind_assoc]
  apply LayoutFreeHere.skipGap
  intro left right hLeft hRight hAlike
  rcases hAlike.cases hLeft hRight with
    ⟨rfl, rfl⟩ | ⟨first, rest, rest', rfl, rfl, hRest, hEnds⟩
  · rw [bind_of_error (requireWord_nil reading)]
    exact .failed _ _ _
  · cases first with
    | word bare =>
        rcases hEnds rfl with ⟨hEnd, hEnd'⟩
        simp only [Lexeme.chars]
        rw [bind_of_ok
            (requireWord_bareWord reading bare hEnd),
          bind_of_ok
            (requireWord_bareWord reading bare hEnd')]
        exact (hNext bare.text _ _ hRest).after rfl
    | mark sign =>
        have hChar := sign.isDelimiter_char
        simp only [Lexeme.chars, List.singleton_append]
        rw [bind_of_ok
            (requireWord_delimiter reading hChar rest),
          bind_of_ok
            (requireWord_delimiter reading hChar rest')]
        exact (hNext _ _ _ hRest).after rfl
    | quoted quotation =>
        have hChar : isDelimiter '"' = true := by decide
        rcases hQuote with ⟨error, hFail⟩
        simp only [Lexeme.chars, List.cons_append]
        rw [bind_of_ok
            (requireWord_delimiter reading hChar _),
          bind_of_ok
            (requireWord_delimiter reading hChar _), hFail]
        exact .failed error _ _

/- A quotation is read as a whole. -/
theorem layoutFree_readQuoted (reading : String) :
    LayoutFree (readQuoted reading) := by
  rw [readQuoted, expect, bind_assoc]
  apply LayoutFreeHere.skipGap
  intro left right hLeft hRight hAlike
  rcases hAlike.cases hLeft hRight with
    ⟨rfl, rfl⟩ | ⟨first, rest, rest', rfl, rfl, hRest, _⟩
  · exact .failed _ _ _
  · by_cases hQuoted :
        ∃ quotation, first = .quoted quotation
    · rcases hQuoted with ⟨quotation, rfl⟩
      simp only [Lexeme.chars, List.cons_append,
        List.append_assoc, List.nil_append]
      rw [bind_of_ok (require_cons _ _ _),
        bind_of_ok (require_cons _ _ _),
        takeQuoted_quotation, takeQuoted_quotation]
      exact .succeeded quotation.text hRest
    · rcases first.exists_cons with ⟨c, tail, hChars⟩
      have hChar : c ≠ '"' := by
        intro hQuote
        subst hQuote
        exact hQuoted (Lexeme.exists_quotation hChars)
      rw [hChars]
      simp only [List.cons_append]
      rw [bind_of_error (require_of_ne hChar _ _),
        bind_of_error (require_of_ne hChar _ _)]
      exact .failed _ _ _

------------------------------------------------------------
-- Blocks
------------------------------------------------------------

section Blocks

variable {entry : Parser α}

/-
  What stands at the front of alike texts decides alike how
  a turn goes on.
-/
theorem LayoutFree.turnHere
    (hEntry : LayoutFree entry)
    (reading : String) :
    LayoutFreeHere (turnHere reading entry) := by
  intro left right hLeft hRight hAlike
  have hAgrees := hEntry _ _ hAlike
  rcases hAlike.cases hLeft hRight with
    ⟨rfl, rfl⟩ | ⟨first, rest, rest', rfl, rfl, hRest, _⟩
  · exact .failed _ _ _
  · by_cases hClose : first = .mark .closeBrace
    · subst hClose
      exact .succeeded Turn.closed hRest
    by_cases hStray : first = .mark .semicolon
    · subst hStray
      exact .succeeded Turn.skipped hRest
    · rcases first.exists_cons with ⟨c, tail, hChars⟩
      have hBrace : c ≠ '\x7d' := by
        intro hChar
        subst hChar
        exact hClose (Lexeme.eq_mark hChars)
      have hSemicolon : c ≠ ';' := by
        intro hChar
        subst hChar
        exact hStray (Lexeme.eq_mark hChars)
      rw [hChars] at hAgrees ⊢
      simp only [List.cons_append] at hAgrees ⊢
      rw [turnHere_of_entry hBrace hSemicolon,
        turnHere_of_entry hBrace hSemicolon]
      exact hAgrees.map Turn.entry

/- Agreement is kept from one turn to the next. -/
theorem LayoutFree.untilClosed
    {turn : Parser (Turn α)}
    (h : LayoutFree turn)
    (hTurn : turn.Advances) :
    LayoutFree (untilClosed turn hTurn) := by
  intro left
  refine untilClosed_induct hTurn
    (motive := fun left outcome =>
      ∀ right,
        Alike left right →
          outcome.Agrees
            ((Parser.untilClosed turn hTurn).run right))
    ?_ ?_ ?_ ?_ left
  · intro left rest error records hRead right hAlike
    have hAgrees := h _ _ hAlike
    rw [hRead] at hAgrees
    rcases hAgrees.of_error with
      ⟨rest', records', hRight, hReports⟩
    rw [untilClosed_of_error hTurn hRight]
    exact ⟨rfl, hReports, by simp⟩
  · intro left rest records hRead right hAlike
    have hAgrees := h _ _ hAlike
    rw [hRead] at hAgrees
    rcases hAgrees.of_ok with
      ⟨rest', records', hRight, hReports, hRest⟩
    rw [untilClosed_of_closed hTurn hRight]
    exact ⟨rfl, hReports, fun _ _ => hRest⟩
  · intro left rest records hRead ih right hAlike
    have hAgrees := h _ _ hAlike
    rw [hRead] at hAgrees
    rcases hAgrees.of_ok with
      ⟨rest', records', hRight, hReports, hRest⟩
    rw [untilClosed_of_skipped hTurn hRight]
    exact (ih _ hRest).after hReports
  · intro left rest value records hRead ih right hAlike
    have hAgrees := h _ _ hAlike
    rw [hRead] at hAgrees
    rcases hAgrees.of_ok with
      ⟨rest', records', hRight, hReports, hRest⟩
    rw [untilClosed_of_entry hTurn hRight]
    exact ((ih _ hRest).map (value :: ·)).after hReports

end Blocks

end Parser

end ProtoSchema
