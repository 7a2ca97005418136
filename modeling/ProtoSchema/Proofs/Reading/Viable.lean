import ProtoSchema.Proofs.Grammar.Form
import ProtoSchema.Proofs.Reading.Steady

/-
  Texts that are merely incomplete. A parser is viable if it
  can be completed wherever it has run out of text: whatever
  it has read by then has been checked, and there are lines
  that make it read the whole text with them.

  Key definitions include:
    * `Parser.Completes`
    * `Parser.Completable`
    * `Parser.Begins`
    * `Parser.Viable`

  Main theorems:
    * `Parser.Viable.bind`
    * `Parser.Viable.readWord_bind`
    * `Parser.Viable.untilClosed`
    * `Parser.Viable.readBlock`
    * `Parser.viable_readMember`
    * `Parser.viable_readMessage`
-/

namespace ProtoSchema

namespace Parser

variable {α β γ : Type}

/- Lines may follow the text with which all of it is read. -/
def Completes
    (parser : Parser α)
    (text : List Char) : Prop :=
  ∃ more value records,
    parser.run (text ++ '\n' :: more) =
      ⟨.ok value, [], records⟩

/- So they may wherever the parser runs out of text. -/
def Completable (parser : Parser α) : Prop :=
  ∀ text, (parser.run text).Unfinished → Completes parser text

/- What is read at the end of a text, or from its next line. -/
def Begins (parser : Parser α) : Prop :=
  Completes parser [] ∨
    ∃ value records,
      parser.run [] = ⟨.ok value, [], records⟩

/-
  A parser that can be begun behind any text and completed
  wherever it runs out of one. It is steady, so that what it
  has read is read again when lines follow.
-/
structure Viable (parser : Parser α) : Prop where
  steady : Steady parser
  begins : Begins parser
  completable : Completable parser

------------------------------------------------------------
-- Sequencing
------------------------------------------------------------

section Sequencing

variable {parser : Parser α}
variable {next : α → Parser β}
variable {text rest : List Char}
variable {records : List Record}

/- No other failure is completed, and none has to be. -/
theorem completable_fail
    {error : ParseError}
    (hError : ∀ reading, error ≠ .unexpectedEnd reading) :
    Completable (fail error : Parser α) := by
  intro text hEnd
  rcases Outcome.unfinished_error_iff.mp hEnd with
    ⟨reading, hEq⟩
  exact absurd hEq (hError reading)

theorem viable_pure (value : α) : Viable (pure value) where
  steady := steady_pure value
  begins := .inr ⟨value, [], rfl⟩
  completable := by
    intro text hEnd
    simp [pure_eq] at hEnd

theorem viable_write (record : Record) :
    Viable (write record) where
  steady := steady_write record
  begins := .inr ⟨(), [record], rfl⟩
  completable := by
    intro text hEnd
    simp [write] at hEnd

/- What comes next is completed behind what has been read. -/
theorem Completes.bind_of_ok
    (hSettled : Settled parser)
    {value : α}
    (hRun : parser.run text = ⟨.ok value, rest, records⟩)
    (hNext : Completes (next value) rest) :
    Completes (parser >>= next) text := by
  rcases hNext with ⟨more, found, records', hNext⟩
  refine ⟨more, found, records ++ records', ?_⟩
  rw [Parser.bind_of_ok (hSettled.of_ok hRun more), hNext]
  rfl

/- Behind what has been completed, the next is begun. -/
theorem Completes.bind
    (hSettled : Settled parser)
    (hFirst : Completes parser text)
    (hNext : ∀ value, Begins (next value)) :
    Completes (parser >>= next) text := by
  rcases hFirst with ⟨more, value, records, hRun⟩
  rcases hNext value with
    ⟨more', found, records', hNext⟩ | ⟨found, records', hNext⟩
  · have hMore := hSettled.of_ok hRun more'
    rw [List.append_assoc, List.cons_append] at hMore
    refine ⟨more ++ '\n' :: more', found,
      records ++ records', ?_⟩
    rw [Parser.bind_of_ok hMore, hNext]
    rfl
  · refine ⟨more, found, records ++ records', ?_⟩
    rw [Parser.bind_of_ok hRun, hNext]
    rfl

theorem Begins.bind
    (hSettled : Settled parser)
    (hFirst : Begins parser)
    (hNext : ∀ value, Begins (next value)) :
    Begins (parser >>= next) := by
  rcases hFirst with hLines | ⟨value, records, hRun⟩
  · exact .inl (hLines.bind hSettled hNext)
  rcases hNext value with hLines | ⟨found, records', hNext⟩
  · exact .inl (.bind_of_ok hSettled hRun hLines)
  · right
    refine ⟨found, records ++ records', ?_⟩
    rw [bind_of_ok hRun, hNext]
    rfl

theorem Viable.bind
    (hFirst : Viable parser)
    (hNext : ∀ value, Viable (next value)) :
    Viable (parser >>= next) where
  steady := hFirst.steady.bind fun value =>
    (hNext value).steady
  begins := hFirst.begins.bind hFirst.steady.settled
    fun value => (hNext value).begins
  completable := by
    intro text hEnd
    rcases bind_unfinished_iff.mp hEnd with
      hEnd | ⟨value, rest, records, hRun, hEnd⟩
    · exact (hFirst.completable text hEnd).bind
        hFirst.steady.settled fun value =>
          (hNext value).begins
    · exact .bind_of_ok hFirst.steady.settled hRun
        ((hNext value).completable rest hEnd)

end Sequencing

------------------------------------------------------------
-- Behind a Gap
------------------------------------------------------------

section Gaps

variable {gap : Parser γ}
variable {here : Parser β}
variable {text rest more : List Char}

theorem not_unfinished_skipGap (text : List Char) :
    ¬ (skipGap.run text).Unfinished := by
  unfold skipGap
  dsimp only
  split <;> simp

theorem not_unfinished_noteComments
    (place : Diagnostics)
    (text : List Char) :
    ¬ ((noteComments place).run text).Unfinished := by
  intro hEnd
  rcases bind_unfinished_iff.mp hEnd with
    hEnd | ⟨comments, rest, _, _, hEnd⟩
  · exact not_unfinished_skipGap text hEnd
  · split at hEnd
    · simp [write] at hEnd
    · simp [pure_eq] at hEnd

/- What is skipped up to the end of the text is a gap. -/
theorem GapSteady.gap_of_nil
    (hGap : GapSteady gap)
    {value : γ}
    {records : List Record}
    (hRun : gap.run text = ⟨.ok value, [], records⟩) :
    Gap true text := by
  rcases hGap.skips.mp ⟨value, records, hRun⟩ with
    ⟨comments, hSkip⟩
  rcases skipGap_eq_ok_iff.mp ⟨comments, hSkip⟩ with
    ⟨_, skipped, hSkipped, hText⟩
  rw [hText, List.append_nil]
  exact hSkipped

/- A gap at the end of a text ends with the line. -/
theorem skipGap_end
    (hText : Gap true text)
    (hFront : Ungapped more) :
    ∃ comments,
      skipGap.run (text ++ '\n' :: more) =
        ⟨.ok comments, more, []⟩ := by
  apply skipGap_eq_ok_iff.mpr
  exact ⟨hFront, text ++ ['\n'], hText.close.ofInner, by simp⟩

/- Behind a gap at the end, the next line is read at once. -/
theorem Completes.of_gap
    (hGap : GapSteady gap)
    (hText : Gap true text)
    (hFront : Ungapped more)
    {value : β}
    {records : List Record}
    (hRun : here.run more = ⟨.ok value, [], records⟩) :
    Completes (gap >>= fun _ => here) text := by
  rcases hGap.skips.mpr (skipGap_end hText hFront) with
    ⟨_, before, hLine⟩
  refine ⟨more, value, before ++ records, ?_⟩
  rw [Parser.bind_of_ok hLine, hRun]
  rfl

/- Text that stands behind a gap stays behind it. -/
theorem GapSteady.run_line
    (hGap : GapSteady gap)
    {value : γ}
    {records : List Record}
    (hRun : gap.run text = ⟨.ok value, rest, records⟩)
    (hRest : rest ≠ [])
    (more : List Char) :
    gap.run (text ++ '\n' :: more) =
      ⟨.ok value, rest ++ '\n' :: more, records⟩ := by
  rcases hGap.resumed text ('\n' :: more)
      (cleanCut_line text more) with
    ⟨_, _, hFinal⟩ | hResumed
  · rw [hFinal] at hRun
    simp only [Outcome.mk.injEq] at hRun
    exact absurd hRun.2.1.symm hRest
  · rw [hRun] at hResumed
    exact hResumed.of_ok.1

/- So what it is read as can be completed there. -/
theorem Completes.behind_gap
    (hGap : GapSteady gap)
    {value : γ}
    {records : List Record}
    (hRun : gap.run text = ⟨.ok value, rest, records⟩)
    (hRest : rest ≠ [])
    (hHere : Completes here rest) :
    Completes (gap >>= fun _ => here) text := by
  rcases hHere with ⟨more, found, records', hMore⟩
  refine ⟨more, found, records ++ records', ?_⟩
  rw [Parser.bind_of_ok (hGap.run_line hRun hRest more),
    hMore]
  rfl

/-
  Behind a gap there has to be a parser that can be begun at
  its end, and completed where something follows it.
-/
theorem completable_of_gap
    (hGap : GapSteady gap)
    (hNever : ∀ text, ¬ (gap.run text).Unfinished)
    (hFront : Ungapped more)
    (hBegins :
      ∃ value records,
        here.run more = ⟨.ok value, [], records⟩)
    (hHere :
      ∀ text,
        text ≠ [] →
          (here.run text).Unfinished →
            Completes here text) :
    Completable (gap >>= fun _ => here) := by
  intro text hEnd
  rcases bind_unfinished_iff.mp hEnd with
    hEnd | ⟨value, rest, records, hRun, hEnd⟩
  · exact absurd hEnd (hNever text)
  by_cases hRest : rest = []
  · subst hRest
    rcases hBegins with ⟨_, _, hBegins⟩
    exact .of_gap hGap (hGap.gap_of_nil hRun) hFront hBegins
  · exact .behind_gap hGap hRun hRest
      (hHere rest hRest hEnd)

end Gaps

------------------------------------------------------------
-- Marks and Words
------------------------------------------------------------

theorem viable_expect
    (sign : Mark)
    (context : String) :
    Viable (expect sign.char context) := by
  have hFront : Ungapped [sign.char] :=
    (Lexeme.mark sign).ungapped []
  have hBegins :
      ∃ value records,
        (require sign.char context).run [sign.char] =
          ⟨.ok value, [], records⟩ :=
    ⟨(), [], require_cons _ _ _⟩
  refine ⟨steady_expect sign context, .inl ?_, ?_⟩
  · exact .of_gap gapSteady_skipGap .empty hFront
      (require_cons _ _ _)
  · apply completable_of_gap gapSteady_skipGap
      not_unfinished_skipGap hFront hBegins
    intro text hText hEnd
    cases text with
    | nil => contradiction
    | cons c rest =>
        by_cases hChar : c = sign.char
        · rw [hChar, require_cons] at hEnd
          simp at hEnd
        · rw [require_of_ne hChar] at hEnd
          simp at hEnd

section Words

variable {next : String → Parser β}
variable {text rest : List Char}

/- A word is missing only where nothing but a gap is left. -/
theorem gap_of_readWord
    {reading : String}
    (hEnd : ((readWord reading).run text).Unfinished) :
    Gap true text := by
  rcases bind_unfinished_iff.mp hEnd with
    hEnd | ⟨_, rest, _, hSkip, hEnd⟩
  · exact absurd hEnd (not_unfinished_skipGap text)
  rcases requireWord_append (ungapped_of_skipGap hSkip)
      (cleanCut_line rest []) reading with
    hNil | ⟨word, behind, hRun, _, _⟩
  · subst hNil
    exact gapSteady_skipGap.gap_of_nil hSkip
  · rw [hRun] at hEnd
    simp at hEnd

/- A word on the next line is read behind a gap. -/
theorem readWord_end
    (hText : Gap true text)
    (word : BareWord)
    (hEnds : WordEnds rest)
    (reading : String) :
    (readWord reading).run
        (text ++ '\n' :: (word.chars ++ rest)) =
      ⟨.ok word.text, rest, []⟩ := by
  have hFront : Ungapped (word.chars ++ rest) :=
    (Lexeme.word word).ungapped rest
  rcases skipGap_end hText hFront with ⟨comments, hSkip⟩
  rw [readWord, bind_of_ok hSkip,
    requireWord_bareWord reading word hEnds]
  rfl

/-
  Where a word is missing there has to be one behind which
  the next parser can be begun.
-/
theorem Completes.readWord_bind
    (hText : Gap true text)
    (word : BareWord)
    (hNext : Begins (next word.text))
    (reading : String) :
    Completes (readWord reading >>= next) text := by
  rcases hNext with
    ⟨more, value, records, hNext⟩ | ⟨value, records, hNext⟩
  · have hEnds : WordEnds ('\n' :: more) :=
      wordEnds_cons_iff.mpr (by decide)
    have hLine := readWord_end hText word hEnds reading
    refine ⟨word.chars ++ '\n' :: more, value, records, ?_⟩
    rw [Parser.bind_of_ok hLine]
    exact hNext
  · have hLine :=
      readWord_end hText word wordEnds_nil reading
    refine ⟨word.chars ++ [], value, records, ?_⟩
    rw [Parser.bind_of_ok hLine]
    exact hNext

/-
  A word is viable together with what is made of it, if that
  can be begun for one word and completed for all.
-/
theorem Viable.readWord_bind
    {reading : String}
    (hSteady : Steady (readWord reading >>= next))
    (word : BareWord)
    (hBegins : Begins (next word.text))
    (hNext : ∀ word, Completable (next word)) :
    Viable (readWord reading >>= next) where
  steady := hSteady
  begins := .inl (.readWord_bind .empty word hBegins reading)
  completable := by
    intro text hEnd
    rcases bind_unfinished_iff.mp hEnd with
      hEnd | ⟨found, rest, records, hRun, hEnd⟩
    · -- the word itself is missing, and any that fits will do
      exact .readWord_bind (gap_of_readWord hEnd) word
        hBegins reading
    · exact .bind_of_ok (settled_readWord reading) hRun
        (hNext found rest hEnd)

end Words

/- A name, and also a type. -/
def sampleName : BareWord :=
  .ofIdentifier "x" (by decide)

/- A number. -/
def sampleNumber : BareWord :=
  ⟨['0'], List.cons_ne_nil _ _, by
    intro c hMem
    rw [List.mem_singleton.mp hMem]
    decide⟩

theorem viable_readWordOf
    {form : List Char → Bool}
    (hName : form sampleName.chars = true)
    (hQuote : form ['"'] = false)
    (reading : String) :
    Viable (readWordOf form reading) := by
  refine Viable.readWord_bind
    (compositional_steady.readWordOf hQuote reading)
    sampleName ?_ ?_
  · rw [sampleName.toList_text, if_pos hName]
    exact (viable_pure _).begins
  · intro word
    split
    · exact (viable_pure word).completable
    · exact completable_fail (by simp)

theorem viable_readIdentifier (reading : String) :
    Viable (readIdentifier reading) :=
  viable_readWordOf (by decide) (by decide) reading

theorem viable_readType (reading : String) :
    Viable (readType reading) :=
  viable_readWordOf (by decide) (by decide) reading

theorem viable_readInteger (reading : String) :
    Viable (readInteger reading) := by
  refine Viable.readWord_bind
    (compositional_steady.readInteger reading)
    sampleNumber ?_ ?_
  · exact (viable_pure 0).begins
  · intro word
    split
    · exact (viable_pure _).completable
    · exact completable_fail (by simp)

------------------------------------------------------------
-- Blocks
------------------------------------------------------------

section Blocks

variable {entry : Parser α}

theorem Viable.readTurn
    (hEntry : Viable entry)
    (kind : BlockKind)
    (name : String)
    (place : Diagnostics) :
    Viable (readTurn kind name place entry) := by
  have hFront : Ungapped ['\x7d'] := by decide
  refine ⟨compositional_steady.readTurn hEntry.steady
    kind name place, .inl ?_, ?_⟩
  · exact .of_gap (gapSteady_noteComments place) .empty
      hFront rfl
  · apply completable_of_gap (gapSteady_noteComments place)
      (not_unfinished_noteComments place) hFront
      ⟨.closed, [], rfl⟩
    intro text hText hEnd
    cases text with
    | nil => contradiction
    | cons c rest =>
        by_cases hBrace : c = '\x7d'
        · subst hBrace
          simp [turnHere] at hEnd
        by_cases hSemicolon : c = ';'
        · subst hSemicolon
          simp [turnHere] at hEnd
        rw [turnHere_of_entry hBrace hSemicolon,
          Outcome.unfinished_map_iff] at hEnd
        rcases hEntry.completable _ hEnd with
          ⟨more, value, records, hMore⟩
        refine ⟨more, .entry value, records, ?_⟩
        rw [List.cons_append,
          turnHere_of_entry hBrace hSemicolon,
          ← List.cons_append, hMore]
        rfl

variable {turn : Parser (Turn α)}
variable (hTurn : turn.Advances)
variable {closing text : List Char}
variable {records : List Record}

/- When a turn has been completed, the block can be closed. -/
theorem Completes.untilClosed
    (hSettled : Settled turn)
    (hCloses :
      turn.run ('\n' :: closing) =
        ⟨.ok .closed, [], records⟩)
    (hFirst : Completes turn text) :
    Completes (untilClosed turn hTurn) text := by
  have hEnd := untilClosed_of_closed hTurn hCloses
  rcases hFirst with ⟨more, value, before, hRun⟩
  have hMore := hSettled.of_ok hRun closing
  rw [List.append_assoc, List.cons_append] at hMore
  cases value with
  | closed =>
      exact ⟨more, _, _, untilClosed_of_closed hTurn hRun⟩
  | skipped =>
      refine ⟨more ++ '\n' :: closing, [],
        before ++ records, ?_⟩
      rw [untilClosed_of_skipped hTurn hMore,
        List.nil_append, hEnd]
      rfl
  | entry value =>
      refine ⟨more ++ '\n' :: closing, [value],
        before ++ records, ?_⟩
      rw [untilClosed_of_entry hTurn hMore,
        List.nil_append, hEnd]
      rfl

/- A block is viable if its turns are, and it can be closed. -/
theorem Viable.untilClosed
    (hViable : Viable turn)
    (hCloses :
      turn.run ('\n' :: closing) =
        ⟨.ok .closed, [], records⟩) :
    Viable (untilClosed turn hTurn) where
  steady := hViable.steady.untilClosed hTurn
  begins := .inl
    ⟨closing, _, _, untilClosed_of_closed hTurn hCloses⟩
  completable := by
    have hSettled := hViable.steady.settled
    intro text
    refine untilClosed_induct hTurn
      (motive := fun text outcome =>
        outcome.Unfinished →
          Completes (Parser.untilClosed turn hTurn) text)
      ?_ ?_ ?_ ?_ text
    · intro text rest error before hRead hEnd
      -- the turn that ended too early is the last to complete
      have hUnfinished : (turn.run text).Unfinished := by
        rw [hRead]
        simpa using hEnd
      exact (hViable.completable text hUnfinished).untilClosed
        hTurn hSettled hCloses
    · intro text rest before _ hEnd
      simp at hEnd
    · intro text rest before hRead ih hEnd
      rcases ih hEnd with ⟨more, values, after, hMore⟩
      refine ⟨more, values, before ++ after, ?_⟩
      rw [untilClosed_of_skipped hTurn
        (hSettled.of_ok hRead more), hMore]
      rfl
    · intro text rest value before hRead ih hEnd
      have hRest := Outcome.unfinished_map_iff.mp hEnd
      rcases ih hRest with
        ⟨more, values, after, hMore⟩
      refine ⟨more, value :: values, before ++ after, ?_⟩
      rw [untilClosed_of_entry hTurn
        (hSettled.of_ok hRead more), hMore]
      rfl

theorem Viable.readBlock
    {entry : String → Parser α}
    (hViable : ∀ name, Viable (entry name))
    (kind : BlockKind)
    (place : Diagnostics)
    (hEntry : ∀ name, (entry name).Advances) :
    Viable (readBlock kind place entry hEntry) := by
  refine (viable_readIdentifier _).bind fun name => ?_
  refine (viable_expect .openBrace _).bind fun _ => ?_
  refine (viable_write _).bind fun _ => ?_
  have hTurn :=
    (hViable name).readTurn kind name place.nested
  have hCloses :
      (Parser.readTurn kind name place.nested
          (entry name)).run ['\n', '\x7d'] =
        ⟨.ok .closed, [], []⟩ := rfl
  exact (hTurn.untilClosed _ hCloses).bind
    fun _ => viable_pure _

end Blocks

------------------------------------------------------------
-- Declarations
------------------------------------------------------------

/- A name, an equals sign, an integer and a semicolon. -/
theorem viable_assignment
    (naming : String)
    (afterName afterNumber counting : String → String)
    (record : String → Int64 → Record)
    (declare : String → Int64 → α) :
    Viable
      (do
        let name ← readIdentifier naming
        expect '=' (afterName name)
        let number ← readInteger (counting name)
        expect ';' (afterNumber name)
        write (record name number)
        pure (declare name number)) := by
  refine (viable_readIdentifier _).bind fun name => ?_
  refine (viable_expect .equals _).bind fun _ => ?_
  refine (viable_readInteger _).bind fun number => ?_
  refine (viable_expect .semicolon _).bind fun _ => ?_
  exact (viable_write _).bind fun _ => viable_pure _

theorem viable_readField
    (place : Diagnostics)
    (owner : String)
    (typeName : String)
    (repeated : Bool) :
    Viable (readField place owner typeName repeated) :=
  viable_assignment _ _ _ _
    (fun name number =>
      fieldRecord place ⟨name, typeName, number, repeated⟩)
    (Field.mk · typeName · repeated)

theorem viable_readEnumValue
    (place : Diagnostics)
    (owner : String) :
    Viable (readEnumValue place owner) :=
  viable_assignment _ _ _ _
    (fun name number => enumValueRecord place ⟨name, number⟩)
    EnumValue.mk

theorem viable_readEnum (place : Diagnostics) :
    Viable (readEnum place) := by
  have hBlock := Viable.readBlock
    (viable_readEnumValue place.nested) .enum place
    (readEnumValue_advances _)
  exact hBlock.bind fun _ => viable_pure _

/- A word that is no type fails, and is not completed. -/
theorem completable_requireType_bind
    {next : String → Parser β}
    (hNext : ∀ typeName, Viable (next typeName))
    (owner : String)
    (word : String) :
    Completable (requireType owner word >>= next) := by
  unfold requireType
  split
  · rw [pure_bind]
    exact (hNext word).completable
  · rw [fail_bind]
    exact completable_fail (by simp)

theorem viable_readAlternative
    (place : Diagnostics)
    (owner : String) :
    Viable (readAlternative place owner) := by
  refine Viable.readWord_bind
    (compositional_steady.readAlternative place owner)
    sampleName ?_ ?_
  · exact (viable_readField place owner _ false).begins
  · intro word
    split
    · exact completable_fail (by simp)
    · exact completable_requireType_bind
        (fun typeName =>
          viable_readField place owner typeName false)
        owner word

theorem viable_readOneof (place : Diagnostics) :
    Viable (readOneof place) := by
  have hBlock := Viable.readBlock
    (viable_readAlternative place.nested) .oneof place
    (readAlternative_advances _)
  exact hBlock.bind fun _ => viable_pure _

/- Every member that is refused fails where its word stands. -/
theorem completable_readMemberAfter
    (place : Diagnostics)
    (owner : String)
    (word : String) :
    Completable (readMemberAfter place owner word) := by
  unfold readMemberAfter
  split
  · exact ((viable_readEnum place).bind fun _ =>
      viable_pure _).completable
  split
  · exact ((viable_readOneof place).bind fun _ =>
      viable_pure _).completable
  split
  · exact completable_fail (by simp)
  split
  · exact ((viable_readType _).bind fun typeName =>
      (viable_readField place owner typeName true).bind
        fun _ => viable_pure _).completable
  · exact completable_requireType_bind
      (fun typeName =>
        (viable_readField place owner typeName false).bind
          fun _ => viable_pure _)
      owner word

theorem viable_readMember
    (place : Diagnostics)
    (owner : String) :
    Viable (readMember place owner) := by
  refine Viable.readWord_bind
    (compositional_steady.readMember place owner)
    sampleName ?_ (completable_readMemberAfter place owner)
  exact ((viable_readField place owner _ false).bind
    fun _ => viable_pure _).begins

theorem viable_readMessage (place : Diagnostics) :
    Viable (readMessage place) := by
  have hBlock := Viable.readBlock
    (viable_readMember place.nested) .message place
    (readMember_advances _)
  exact hBlock.bind fun _ => viable_pure _

end Parser

end ProtoSchema
