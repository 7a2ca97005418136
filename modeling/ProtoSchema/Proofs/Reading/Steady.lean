import ProtoSchema.Proofs.Layout.Zone
import ProtoSchema.Proofs.Reading.Compositional
import ProtoSchema.Proofs.Reading.Settled
import ProtoSchema.Proofs.Reading.Turns

/-
  What a parser does depends on the text that it reads, and
  not on what lies beyond. If a text is cut cleanly, then a
  parser that does not run out of the front does the same on
  the whole text.

  Key definitions include:
    * `Outcome.Resumed`
    * `Parser.Steady`
    * `Parser.SteadyHere`
    * `Parser.GapSteady`

  Main theorems:
    * `Parser.gapFrom_append`
    * `Parser.Steady.bind`
    * `Parser.SteadyHere.of_gap`
    * `Parser.requireWord_append`
    * `Parser.Steady.untilClosed`
    * `Parser.compositional_steady`
    * `Parser.Steady.settled`
-/

namespace ProtoSchema

------------------------------------------------------------
-- Outcomes
------------------------------------------------------------

namespace Outcome

variable {α β : Type}

/-
  The outcome on the whole text is that on its front, unless
  the front ended too early. What remains of the front is
  still cut cleanly from the rest.
-/
def Resumed
    (back : List Char)
    (front whole : Outcome α) : Prop :=
  front.Unfinished ∨
    (whole = front.followedBy back ∧
      ∀ value,
        front.result = .ok value → CleanCut front.rest back)

namespace Resumed

variable {back : List Char}
variable {front whole : Outcome α}

theorem after
    (h : Resumed back front whole)
    (records : List Record) :
    Resumed back (front.after records)
      (whole.after records) := by
  rcases h with hEnd | ⟨hWhole, hCut⟩
  · exact .inl (hEnd.after records)
  · subst hWhole
    exact .inr ⟨rfl, hCut⟩

theorem map
    (h : Resumed back front whole)
    (f : α → β) :
    Resumed back (front.map f) (whole.map f) := by
  rcases h with hEnd | ⟨hWhole, hCut⟩
  · exact .inl (Outcome.unfinished_map_iff.mpr hEnd)
  · subst hWhole
    refine .inr ⟨rfl, fun value hValue => ?_⟩
    rcases front with ⟨error | found, rest, records⟩
    · simp [Outcome.map, Except.map] at hValue
    · exact hCut found rfl

/- A failure that repeats itself on the whole text. -/
theorem failed
    (error : ParseError)
    (rest : List Char)
    (records : List Record) :
    Resumed back
      (⟨.error error, rest, records⟩ : Outcome α)
      ⟨.error error, rest ++ back, records⟩ :=
  .inr ⟨rfl, by simp⟩

/- A success that does, and leaves a clean cut. -/
theorem succeeded
    {rest : List Char}
    (hCut : CleanCut rest back)
    (value : α)
    (records : List Record) :
    Resumed back ⟨.ok value, rest, records⟩
      ⟨.ok value, rest ++ back, records⟩ :=
  .inr ⟨rfl, fun _ _ => hCut⟩

/- What resumes a success is a success. -/
theorem of_ok
    {value : α}
    {rest : List Char}
    {records : List Record}
    (h : Resumed back ⟨.ok value, rest, records⟩ whole) :
    whole = ⟨.ok value, rest ++ back, records⟩ ∧
      CleanCut rest back := by
  rcases h with hEnd | ⟨hWhole, hCut⟩
  · simp at hEnd
  · exact ⟨hWhole, hCut value rfl⟩

/- What resumes a failure is that failure, or no more. -/
theorem of_error
    {error : ParseError}
    {rest : List Char}
    {records : List Record}
    (h : Resumed back ⟨.error error, rest, records⟩ whole) :
    (∃ reading, error = .unexpectedEnd reading) ∨
      whole = ⟨.error error, rest ++ back, records⟩ := by
  rcases h with hEnd | ⟨hWhole, _⟩
  · exact .inl (unfinished_error_iff.mp hEnd)
  · exact .inr hWhole

end Resumed

end Outcome

namespace Parser

variable {α β : Type}

/-
  Where a text is cut cleanly, the parser does on the whole
  text what it does on the front.
-/
def Steady (parser : Parser α) : Prop :=
  ∀ front back,
    CleanCut front back →
      (parser.run front).Resumed back
        (parser.run (front ++ back))

/- The same of texts that no gap begins. -/
def SteadyHere (parser : Parser α) : Prop :=
  ∀ front back,
    Ungapped front →
      CleanCut front back →
        (parser.run front).Resumed back
          (parser.run (front ++ back))

/-
  The same of a parser of gaps. It does not run out of text,
  but may go on behind the cut.
-/
structure GapSteady (parser : Parser α) : Prop where
  skips : SkipsGap parser
  resumed :
    ∀ front back,
      CleanCut front back →
        (∃ value records,
            parser.run front =
              ⟨.ok value, [], records⟩) ∨
          (parser.run front).Resumed back
            (parser.run (front ++ back))

------------------------------------------------------------
-- Sequencing
------------------------------------------------------------

section Sequencing

variable {parser : Parser α}
variable {next : α → Parser β}

theorem steady_pure (value : α) : Steady (pure value) :=
  fun _ _ hCut => .succeeded hCut value []

theorem steady_fail (error : ParseError) :
    Steady (fail error : Parser α) :=
  fun front _ _ => .failed error front []

theorem steady_write (record : Record) :
    Steady (write record) :=
  fun _ _ hCut => .succeeded hCut () [record]

theorem steady_ofExcept (step : Except ParseError α) :
    Steady (ofExcept step) :=
  fun _ _ hCut => .inr ⟨rfl, fun _ _ => hCut⟩

theorem Steady.here
    (h : Steady parser) : SteadyHere parser :=
  fun front back _ hCut => h front back hCut

/- What comes next resumes behind what has been read. -/
theorem resumed_bind
    {front back : List Char}
    (hFirst :
      (parser.run front).Resumed back
        (parser.run (front ++ back)))
    (hNext :
      ∀ value rest records,
        parser.run front = ⟨.ok value, rest, records⟩ →
          CleanCut rest back →
            ((next value).run rest).Resumed back
              ((next value).run (rest ++ back))) :
    ((parser >>= next).run front).Resumed back
      ((parser >>= next).run (front ++ back)) := by
  rcases hRun : parser.run front with
    ⟨error | value, rest, records⟩
  · rw [hRun] at hFirst
    rw [bind_of_error hRun]
    rcases hFirst.of_error with ⟨reading, hEnd⟩ | hWhole
    · subst hEnd
      exact .inl ⟨reading, rfl⟩
    · rw [bind_of_error hWhole]
      exact .failed error rest records
  · rw [hRun] at hFirst
    rcases hFirst.of_ok with ⟨hWhole, hCut⟩
    rw [bind_of_ok hRun, bind_of_ok hWhole]
    exact (hNext value rest records hRun hCut).after records

theorem Steady.bind
    (hFirst : Steady parser)
    (hNext : ∀ value, Steady (next value)) :
    Steady (parser >>= next) := by
  intro front back hCut
  apply resumed_bind (hFirst front back hCut)
  intro value rest records _ hRest
  exact hNext value rest back hRest

/-
  Behind a gap at the end of the text there has to be a
  parser that runs out of text.
-/
theorem resumed_of_gap
    {front back : List Char}
    (hGap : GapSteady parser)
    (hCut : CleanCut front back)
    (hEnd : ∀ value, ((next value).run []).Unfinished)
    (hNext :
      ∀ value rest,
        Ungapped rest →
          CleanCut rest back →
            ((next value).run rest).Resumed back
              ((next value).run (rest ++ back))) :
    ((parser >>= next).run front).Resumed back
      ((parser >>= next).run (front ++ back)) := by
  rcases hGap.resumed front back hCut with
    ⟨value, records, hFinal⟩ | hResumed
  · rw [bind_of_ok hFinal]
    exact .inl ((hEnd value).after records)
  · apply resumed_bind hResumed
    intro value rest records hRun hRest
    rcases hGap.skips.mp ⟨value, records, hRun⟩ with
      ⟨comments, hSkip⟩
    exact hNext value rest (ungapped_of_skipGap hSkip) hRest

theorem SteadyHere.of_gap
    (hNext : ∀ value, SteadyHere (next value))
    (hGap : GapSteady parser)
    (hEnd : ∀ value, ((next value).run []).Unfinished) :
    Steady (parser >>= next) := by
  intro front back hCut
  apply resumed_of_gap hGap hCut hEnd
  intro value rest hFront hRest
  exact hNext value rest back hFront hRest

end Sequencing

------------------------------------------------------------
-- Gaps
------------------------------------------------------------

/-
  A gap that ends in a text ends there in a longer one. A
  lone slash at the end must not be followed by another.
-/
theorem gapFrom_append
    {inComment : Bool}
    {text more : List Char}
    (hEnds : (gapFrom inComment text).2 ≠ [])
    (hSlash :
      (gapFrom inComment text).2 = ['/'] →
        '/' ∉ more.head?) :
    gapFrom inComment (text ++ more) =
      ((gapFrom inComment text).1,
        (gapFrom inComment text).2 ++ more) := by
  fun_induction gapFrom inComment text with
  | case1 => contradiction
  | case2 c rest ih =>
      rw [List.cons_append, gapFrom]
      exact ih hEnds hSlash
  | case3 rest comments after hAfter ih =>
      rw [hAfter] at ih
      simp only [List.cons_append, gapFrom]
      rw [ih hEnds hSlash]
  | case4 c rest _ hBlank ih =>
      rw [List.cons_append, gapFrom_blank hBlank]
      exact ih hEnds hSlash
  | case5 c rest hOpen hBlank =>
      have hNoComment : ∀ after,
          c = '/' → rest ++ more = '/' :: after → False := by
        intro after hChar hRest
        subst hChar
        cases rest with
        | nil =>
            apply hSlash rfl
            rw [List.nil_append] at hRest
            simp [hRest]
        | cons d rest =>
            exact hOpen rest rfl
              (congrArg (· :: rest) (List.cons.inj hRest).1)
      rw [List.cons_append, gapFrom.eq_4 _ _ hNoComment,
        if_neg hBlank]

theorem gapSteady_skipGap : GapSteady skipGap where
  skips := skipsGap_skipGap
  resumed := by
    intro front back hCut
    rcases hFrom : gapFrom false front with ⟨comments, rest⟩
    rcases exists_gap_gapFrom false front with
      ⟨gap, hText, hGap⟩
    rw [hFrom] at hText hGap
    change front = gap ++ rest at hText
    change Gap rest.isEmpty gap at hGap
    rw [hText] at hCut
    have hRest := hCut.of_gap hGap
    cases rest with
    | nil =>
        exact .inl ⟨comments, [],
          skipGap_of_gapFrom hFrom (by simp)⟩
    | cons c rest =>
        right
        have hMore : gapFrom false (front ++ back) =
            (comments, c :: rest ++ back) := by
          rw [gapFrom_append, hFrom]
          · simp [hFrom]
          · rw [hFrom]
            intro hLone hSlash
            apply hRest.slashes
            change c :: rest = ['/'] at hLone
            rw [hLone]
            exact ⟨by decide, hSlash⟩
        by_cases hSlash : c = '/'
        · subst hSlash
          rw [skipGap_of_slash hFrom, skipGap_of_slash hMore]
          exact .failed _ _ _
        · rw [skipGap_of_gapFrom hFrom (by simpa using hSlash),
            skipGap_of_gapFrom hMore (by simpa using hSlash)]
          exact .succeeded hRest _ _

/- Noting the comments of a gap does not look further. -/
theorem gapSteady_noteComments (place : Diagnostics) :
    GapSteady (noteComments place) where
  skips := skipsGap_noteComments place
  resumed := by
    intro front back hCut
    rcases gapSteady_skipGap.resumed front back hCut with
      ⟨comments, records, hFinal⟩ | hResumed
    · left
      have hSkip := skipGap_records front
      rw [hFinal] at hSkip
      change records = [] at hSkip
      subst hSkip
      exact ⟨(), _,
        noteComments_eq_ok_iff.mpr ⟨comments, hFinal, rfl⟩⟩
    · right
      apply resumed_bind hResumed
      intro comments rest records _ hRest
      split
      · exact steady_write _ rest back hRest
      · exact steady_pure () rest back hRest

------------------------------------------------------------
-- Basic Parsers
------------------------------------------------------------

theorem steady_expect
    (sign : Mark)
    (context : String) :
    Steady (expect sign.char context) := by
  refine SteadyHere.of_gap (fun _ => ?_) gapSteady_skipGap
    fun _ => ⟨_, rfl⟩
  intro front back _ hCut
  cases front with
  | nil => exact .inl ⟨_, rfl⟩
  | cons c rest =>
      by_cases hChar : c = sign.char
      · subst hChar
        rw [List.cons_append, require_cons, require_cons]
        exact .succeeded
          (hCut.of_lexeme (.mark sign)) _ _
      · rw [List.cons_append, require_of_ne hChar,
          require_of_ne hChar]
        exact .failed _ _ _

/-
  A word that stands in front of a clean cut is read alike on
  both sides of it. Only behind a double quote, which is no
  word that could be accepted, the cut may not be clean.
-/
theorem requireWord_append
    {front back : List Char}
    (hFront : Ungapped front)
    (hCut : CleanCut front back)
    (reading : String) :
    front = [] ∨
      ∃ word rest,
        (requireWord reading).run front =
            ⟨.ok word, rest, []⟩ ∧
          (requireWord reading).run (front ++ back) =
            ⟨.ok word, rest ++ back, []⟩ ∧
          (word ≠ String.singleton '"' →
            CleanCut rest back) := by
  rcases hFront.cases with
    hNil | ⟨word, rest, hText, hEnds⟩ | ⟨c, rest, hText, hChar⟩
  · exact .inl hNil
  · right
    subst hText
    refine ⟨word.text, rest,
      requireWord_bareWord reading word hEnds, ?_, fun _ =>
        hCut.of_lexeme (.word word)⟩
    rw [List.append_assoc,
      requireWord_bareWord reading word
        (hCut.wordEnds hEnds)]
  · right
    subst hText
    refine ⟨String.singleton c, rest,
      requireWord_delimiter reading hChar rest,
      requireWord_delimiter reading hChar (rest ++ back),
      fun hWord => ?_⟩
    apply hCut.of_after
    intro _
    have hDouble : c ≠ '"' := by
      intro hEq
      exact hWord (congrArg String.singleton hEq)
    have hSlash := (ungapped_cons_iff.mp hFront).2
    have hWordChar := isWordChar_of_isDelimiter hChar
    simp [Zone.next, hSlash, hDouble, hWordChar]

/- A word is read and judged steadily. -/
theorem Steady.readWord_bind
    {next : String → Parser β}
    (hNext : ∀ word, Steady (next word))
    (hQuote :
      ∃ error, next (String.singleton '"') = fail error)
    (reading : String) :
    Steady (readWord reading >>= next) := by
  rw [readWord, bind_assoc]
  refine SteadyHere.of_gap (fun _ => ?_) gapSteady_skipGap
    fun _ => ⟨reading, rfl⟩
  intro front back hFront hCut
  rcases requireWord_append hFront hCut reading with
    hNil | ⟨word, rest, hRun, hWhole, hRest⟩
  · subst hNil
    exact .inl ⟨reading, rfl⟩
  · rw [bind_of_ok hRun, bind_of_ok hWhole]
    apply Outcome.Resumed.after
    by_cases hDouble : word = String.singleton '"'
    · subst hDouble
      rcases hQuote with ⟨error, hFail⟩
      rw [hFail]
      exact .failed error rest []
    · exact hNext word rest back (hRest hDouble)

theorem steady_readQuoted (reading : String) :
    Steady (readQuoted reading) := by
  rw [readQuoted, expect, bind_assoc]
  refine SteadyHere.of_gap (fun _ => ?_) gapSteady_skipGap
    fun _ => ⟨_, rfl⟩
  intro front back _ hCut
  cases front with
  | nil => exact .inl ⟨_, rfl⟩
  | cons c rest =>
      by_cases hChar : c = '"'
      · subst hChar
        rw [List.cons_append, bind_of_ok (require_cons _ _ _),
          bind_of_ok (require_cons _ _ _)]
        apply Outcome.Resumed.after
        rcases hRun : (takeQuoted reading).run rest with
          ⟨error | content, behind, records⟩
        · left
          simp only [takeQuoted] at hRun
          split at hRun
          · simp only [Outcome.mk.injEq] at hRun
            exact ⟨reading, hRun.1.symm⟩
          · simp at hRun
        · rcases takeQuoted_eq_ok_iff.mp hRun with
            ⟨quotation, hContent, hText, hRecords⟩
          have hWhole :
              (takeQuoted reading).run (rest ++ back) =
                ⟨.ok content, behind ++ back, records⟩ :=
            takeQuoted_eq_ok_iff.mpr
              ⟨quotation, hContent, by simp [hText],
                hRecords⟩
          rw [hWhole]
          refine .succeeded ?_ _ _
          apply CleanCut.of_lexeme (.quoted quotation)
          simpa [Lexeme.chars, hText] using hCut
      · rw [List.cons_append,
          bind_of_error (require_of_ne hChar _ _),
          bind_of_error (require_of_ne hChar _ _)]
        exact .failed _ _ _

------------------------------------------------------------
-- Blocks
------------------------------------------------------------

section Blocks

variable {entry : Parser α}

theorem Steady.turnHere
    (hEntry : Steady entry)
    (reading : String) :
    SteadyHere (turnHere reading entry) := by
  intro front back _ hCut
  cases front with
  | nil => exact .inl ⟨reading, rfl⟩
  | cons c rest =>
      by_cases hBrace : c = '\x7d'
      · subst hBrace
        exact .succeeded
          (hCut.of_lexeme (.mark .closeBrace))
          Turn.closed []
      by_cases hSemicolon : c = ';'
      · subst hSemicolon
        exact .succeeded
          (hCut.of_lexeme (.mark .semicolon))
          Turn.skipped []
      · rw [List.cons_append,
          turnHere_of_entry hBrace hSemicolon,
          turnHere_of_entry hBrace hSemicolon]
        exact (hEntry (c :: rest) back hCut).map Turn.entry

/- A block is steady if each of its turns is. -/
theorem Steady.untilClosed
    {turn : Parser (Turn α)}
    (h : Steady turn)
    (hTurn : turn.Advances) :
    Steady (untilClosed turn hTurn) := by
  intro front back
  refine untilClosed_induct hTurn
    (motive := fun front outcome =>
      CleanCut front back →
        outcome.Resumed back
          ((Parser.untilClosed turn hTurn).run
            (front ++ back)))
    ?_ ?_ ?_ ?_ front
  · intro front rest error records hRead hCut
    have hResumed := h front back hCut
    rw [hRead] at hResumed
    rcases hResumed.of_error with ⟨reading, hEnd⟩ | hWhole
    · subst hEnd
      exact .inl ⟨reading, rfl⟩
    · rw [untilClosed_of_error hTurn hWhole]
      exact .failed error rest records
  · intro front rest records hRead hCut
    have hResumed := h front back hCut
    rw [hRead] at hResumed
    rcases hResumed.of_ok with ⟨hWhole, hRest⟩
    rw [untilClosed_of_closed hTurn hWhole]
    exact .succeeded hRest [] records
  · intro front rest records hRead ih hCut
    have hResumed := h front back hCut
    rw [hRead] at hResumed
    rcases hResumed.of_ok with ⟨hWhole, hRest⟩
    rw [untilClosed_of_skipped hTurn hWhole]
    exact (ih hRest).after records
  · intro front rest value records hRead ih hCut
    have hResumed := h front back hCut
    rw [hRead] at hResumed
    rcases hResumed.of_ok with ⟨hWhole, hRest⟩
    rw [untilClosed_of_entry hTurn hWhole]
    exact ((ih hRest).map (value :: ·)).after records

end Blocks

------------------------------------------------------------
-- All Parsers
------------------------------------------------------------

/- The pieces of every parser are steady. -/
theorem compositional_steady :
    Compositional (fun _ parser => Steady parser) where
  pure := steady_pure
  fail := steady_fail
  write := steady_write
  ofExcept := steady_ofExcept
  bind := Steady.bind
  expect := steady_expect
  readQuoted := steady_readQuoted
  readWord := Steady.readWord_bind
  noteComments := fun hNext hQuote place reading =>
    SteadyHere.of_gap
      (fun _ => (Steady.readWord_bind hNext hQuote
        reading).here)
      (gapSteady_noteComments place)
      fun _ => bind_unfinished_iff.mpr
        (.inl ⟨reading, rfl⟩)
  readTurn := fun hEntry _ _ place =>
    SteadyHere.of_gap (fun _ => hEntry.turnHere _)
      (gapSteady_noteComments place) fun _ => ⟨_, rfl⟩
  untilClosed := Steady.untilClosed

/- A steady parser does not mind lines that follow. -/
theorem Steady.settled
    {parser : Parser α}
    (h : Steady parser) : Settled parser := by
  intro text more
  rcases h text ('\n' :: more) (cleanCut_line text more) with
    hEnd | ⟨hWhole, _⟩
  · exact .inl hEnd
  · exact .inr hWhole

/-
  Nor does a single word. It is not steady by itself, for it
  may be a double quote.
-/
theorem settled_readWord (reading : String) :
    Settled (readWord reading) := by
  intro text more
  have hResumed :
      ((readWord reading).run text).Resumed ('\n' :: more)
        ((readWord reading).run (text ++ '\n' :: more)) := by
    apply resumed_of_gap gapSteady_skipGap
      (cleanCut_line text more) fun _ => ⟨reading, rfl⟩
    intro _ rest hFront hCut
    rcases requireWord_append hFront hCut reading with
      hNil | ⟨word, behind, hRun, hWhole, _⟩
    · subst hNil
      exact .inl ⟨reading, rfl⟩
    · rw [hRun, hWhole]
      exact .succeeded (cleanCut_line behind more) word []
  rcases hResumed with hEnd | ⟨hWhole, _⟩
  · exact .inl hEnd
  · exact .inr hWhole

end Parser

end ProtoSchema
