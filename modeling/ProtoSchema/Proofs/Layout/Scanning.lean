import ProtoSchema.Parser.Block
import ProtoSchema.Proofs.Layout.Lexeme

/-
  How the basic parsers read a text that spells lexemes: a
  gap is skipped without a trace in the result, and what
  stands behind it is a word, a delimiter or nothing.

  Key definitions include:
    * `Parser.SkipsGap`

  Main theorems:
    * `Parser.skipGap_of_spells`
    * `Parser.spells_of_skipGap`
    * `Parser.noteComments_eq_ok_iff`
    * `Ungapped.cases`
    * `Parser.requireWord_bareWord`
    * `Parser.requireWord_delimiter`
-/

namespace ProtoSchema

------------------------------------------------------------
-- The Front of a Text
------------------------------------------------------------

/-
  A text without a gap at the front is empty, or begins with
  a whole bare word or with a delimiter.
-/
theorem Ungapped.cases
    {text : List Char}
    (hFront : Ungapped text) :
    text = [] ∨
      (∃ (word : BareWord) (rest : List Char),
        text = word.chars ++ rest ∧ WordEnds rest) ∨
        ∃ c rest, text = c :: rest ∧ isDelimiter c = true := by
  cases text with
  | nil => exact .inl rfl
  | cons c text =>
      right
      rcases ungapped_cons_iff.mp hFront with ⟨hBlank, _⟩
      cases hDelimiter : isDelimiter c with
      | true => exact .inr ⟨c, text, rfl, hDelimiter⟩
      | false =>
          left
          have hChar : isWordChar c = true := by
            simp [isWordChar, hBlank, hDelimiter]
          have hRun : ∀ d ∈ text.takeWhile isWordChar,
              isWordChar d = true :=
            List.all_eq_true.mp List.all_takeWhile
          let word : BareWord :=
            ⟨c :: text.takeWhile isWordChar, by simp, by
              simpa using ⟨hChar, hRun⟩⟩
          refine ⟨word, text.dropWhile isWordChar, ?_, ?_⟩
          · simp [word]
          · intro d hHead
            have hNot :=
              List.head?_dropWhile_not isWordChar text
            rw [Option.mem_def.mp hHead] at hNot
            simpa using hNot

namespace Parser

------------------------------------------------------------
-- Gaps
------------------------------------------------------------

/- Nothing is on record about a gap. -/
theorem skipGap_records (text : List Char) :
    (skipGap.run text).records = [] := by
  unfold skipGap
  dsimp only
  split <;> rfl

section Gaps

variable {text rest : List Char}
variable {lexemes : List Lexeme}
variable {comments : Nat}
variable {records : List Record}

/- Skipping the gap of a spelling always succeeds. -/
theorem skipGap_of_spells
    (h : Spells lexemes text) :
    ∃ comments rest,
      skipGap.run text = ⟨.ok comments, rest, []⟩ ∧
        Ungapped rest ∧ Spells lexemes rest := by
  rcases h.exists_gap with
    ⟨gap, rest, hText, hGap, hFront, hRest⟩
  rcases skipGap_eq_ok_iff.mpr ⟨hFront, gap, hGap, hText⟩ with
    ⟨comments, hRun⟩
  exact ⟨comments, rest, hRun, hFront, hRest⟩

/- After a gap no other gap follows. -/
theorem ungapped_of_skipGap
    (hRun : skipGap.run text = ⟨.ok comments, rest, records⟩) :
    Ungapped rest := by
  have hRecords := skipGap_records text
  rw [hRun] at hRecords
  change records = [] at hRecords
  subst hRecords
  exact (skipGap_eq_ok_iff.mp ⟨comments, hRun⟩).1

/- A gap that can be skipped may stand before a spelling. -/
theorem spells_of_skipGap
    (hRun : skipGap.run text = ⟨.ok comments, rest, records⟩)
    (h : Spells lexemes rest) : Spells lexemes text := by
  have hRecords := skipGap_records text
  rw [hRun] at hRecords
  change records = [] at hRecords
  subst hRecords
  rcases skipGap_eq_ok_iff.mp ⟨comments, hRun⟩ with
    ⟨_, gap, hGap, rfl⟩
  exact h.of_gap hGap

/-
  Noting comments reads what skipping the gap does. What it
  writes are traces.
-/
theorem noteComments_eq_ok_iff
    {place : Diagnostics} :
    (noteComments place).run text =
        ⟨.ok (), rest, records⟩ ↔
      ∃ comments,
        skipGap.run text = ⟨.ok comments, rest, []⟩ ∧
          records =
            if comments > 0 then
              [place.trace "Got comment"]
            else
              [] := by
  constructor
  · intro hRun
    rcases bind_eq_ok_iff.mp hRun with
      ⟨comments, middle, before, after, hGap, hNote, rfl⟩
    have hBefore := skipGap_records text
    rw [hGap] at hBefore
    change before = [] at hBefore
    subst hBefore
    by_cases hComments : comments > 0
    · simp only [hComments, if_true, write,
        Outcome.mk.injEq] at hNote
      rcases hNote with ⟨_, rfl, rfl⟩
      exact ⟨comments, hGap, by simp [hComments]⟩
    · simp only [hComments, if_false, pure_eq,
        Outcome.mk.injEq] at hNote
      rcases hNote with ⟨_, rfl, rfl⟩
      exact ⟨comments, hGap, by simp [hComments]⟩
  · intro h
    rcases h with ⟨comments, hGap, rfl⟩
    rw [noteComments, bind_of_ok hGap]
    by_cases hComments : comments > 0
    · simp [hComments, write, Outcome.after]
    · simp [hComments, pure_eq, Outcome.after]

end Gaps

/- The parser reads the gap at the front, and that alone. -/
def SkipsGap
    {α : Type}
    (parser : Parser α) : Prop :=
  ∀ {text rest : List Char},
    (∃ value records,
        parser.run text = ⟨.ok value, rest, records⟩) ↔
      ∃ comments, skipGap.run text = ⟨.ok comments, rest, []⟩

theorem skipsGap_skipGap : SkipsGap skipGap := by
  intro text rest
  constructor
  · intro h
    rcases h with ⟨comments, records, hRun⟩
    have hRecords := skipGap_records text
    rw [hRun] at hRecords
    exact ⟨comments, by rw [hRun, ← hRecords]⟩
  · intro h
    rcases h with ⟨comments, hRun⟩
    exact ⟨comments, [], hRun⟩

theorem skipsGap_noteComments (place : Diagnostics) :
    SkipsGap (noteComments place) := by
  intro text rest
  constructor
  · intro h
    rcases h with ⟨_, records, hRun⟩
    rcases noteComments_eq_ok_iff.mp hRun with
      ⟨comments, hGap, _⟩
    exact ⟨comments, hGap⟩
  · intro h
    rcases h with ⟨comments, hGap⟩
    exact ⟨(), _,
      noteComments_eq_ok_iff.mpr ⟨comments, hGap, rfl⟩⟩

------------------------------------------------------------
-- Words
------------------------------------------------------------

/- A bare word is taken whole, and alone. -/
theorem takeWord_bareWord
    (word : BareWord)
    {rest : List Char}
    (hEnds : WordEnds rest) :
    takeWord.run (word.chars ++ rest) =
      ⟨.ok (some word.text), rest, []⟩ := by
  rcases word.exists_cons with ⟨c, tail, hChars, hChar, hTail⟩
  have hTake : rest.takeWhile isWordChar = [] := by
    cases rest with
    | nil => rfl
    | cons d rest =>
        rw [List.takeWhile_cons,
          wordEnds_cons_iff.mp hEnds]
        rfl
  have hDrop : rest.dropWhile isWordChar = rest := by
    cases rest with
    | nil => rfl
    | cons d rest =>
        rw [List.dropWhile_cons,
          wordEnds_cons_iff.mp hEnds]
        rfl
  simp [takeWord, hChars, isDelimiter_of_isWordChar hChar,
    List.takeWhile_append_of_pos hTail,
    List.dropWhile_append_of_pos hTail, hTake, hDrop,
    BareWord.text]

/- A delimiter is a word on its own. -/
theorem takeWord_delimiter
    {c : Char}
    (hChar : isDelimiter c = true)
    (rest : List Char) :
    takeWord.run (c :: rest) =
      ⟨.ok (some (String.singleton c)), rest, []⟩ := by
  simp [takeWord, hChar]

/- A word that has to follow is the next one. -/
theorem readWord_eq (reading : String) :
    readWord reading =
      nextWord >>= fun
        | some word => pure word
        | none => fail (.unexpectedEnd reading) := by
  rw [nextWord, bind_assoc]
  rfl

section RequireWord

variable (reading : String)

theorem requireWord_nil :
    (requireWord reading).run [] =
      ⟨.error (.unexpectedEnd reading), [], []⟩ :=
  rfl

theorem requireWord_of_takeWord
    {text rest : List Char}
    {word : String}
    (hTake : takeWord.run text = ⟨.ok (some word), rest, []⟩) :
    (requireWord reading).run text =
      ⟨.ok word, rest, []⟩ := by
  rw [requireWord, bind_of_ok hTake]
  rfl

theorem requireWord_bareWord
    (word : BareWord)
    {rest : List Char}
    (hEnds : WordEnds rest) :
    (requireWord reading).run (word.chars ++ rest) =
      ⟨.ok word.text, rest, []⟩ :=
  requireWord_of_takeWord reading
    (takeWord_bareWord word hEnds)

theorem requireWord_delimiter
    {c : Char}
    (hChar : isDelimiter c = true)
    (rest : List Char) :
    (requireWord reading).run (c :: rest) =
      ⟨.ok (String.singleton c), rest, []⟩ :=
  requireWord_of_takeWord reading
    (takeWord_delimiter hChar rest)

end RequireWord

------------------------------------------------------------
-- Single Characters
------------------------------------------------------------

theorem require_cons
    (c : Char)
    (context : String)
    (rest : List Char) :
    (require c context).run (c :: rest) =
      ⟨.ok (), rest, []⟩ := by
  simp [require]

/- Any other character is named in the error. -/
theorem require_of_ne
    {c found : Char}
    (hFound : found ≠ c)
    (context : String)
    (rest : List Char) :
    (require c context).run (found :: rest) =
      ⟨.error (.malformed (.unexpectedChar c context found)),
        found :: rest, []⟩ := by
  simp [require, hFound]

theorem require_eq_ok_iff
    {c : Char}
    {context : String}
    {text rest : List Char}
    {records : List Record} :
    (require c context).run text = ⟨.ok (), rest, records⟩ ↔
      text = c :: rest ∧ records = [] := by
  cases text with
  | nil => simp [require]
  | cons found text =>
      by_cases hFound : found = c
      · simp [require, hFound, eq_comm]
      · simp [require, hFound]

------------------------------------------------------------
-- Quotations
------------------------------------------------------------

/- A quotation is taken up to its closing quote. -/
theorem takeQuoted_quotation
    (reading : String)
    (quotation : Quotation)
    (rest : List Char) :
    (takeQuoted reading).run
        (quotation.chars ++ '"' :: rest) =
      ⟨.ok quotation.text, rest, []⟩ := by
  have hPos : ∀ c ∈ quotation.chars,
      decide (c ≠ '"') = true := by
    intro c hMem
    simp only [decide_eq_true_eq]
    intro hQuote
    subst hQuote
    exact quotation.unquoted hMem
  have hTake :
      (quotation.chars ++ '"' :: rest).takeWhile (· ≠ '"') =
        quotation.chars := by
    rw [List.takeWhile_append_of_pos hPos]
    simp
  have hDrop :
      (quotation.chars ++ '"' :: rest).dropWhile (· ≠ '"') =
        '"' :: rest := by
    rw [List.dropWhile_append_of_pos hPos]
    simp
  simp only [takeQuoted, hTake, hDrop, Quotation.text]

/- A quotation ends at the first double quote. -/
theorem takeQuoted_eq_ok_iff
    {reading content : String}
    {text rest : List Char}
    {records : List Record} :
    (takeQuoted reading).run text =
        ⟨.ok content, rest, records⟩ ↔
      ∃ quotation : Quotation,
        content = quotation.text ∧
          text = quotation.chars ++ '"' :: rest ∧
          records = [] := by
  constructor
  · intro hRun
    simp only [takeQuoted] at hRun
    split at hRun
    · simp at hRun
    next c tail hDrop =>
      simp only [Outcome.mk.injEq, Except.ok.injEq] at hRun
      rcases hRun with ⟨rfl, rfl, rfl⟩
      have hQuote : c = '"' := by
        have hNot :=
          List.head?_dropWhile_not (· ≠ '"') text
        rw [hDrop] at hNot
        simpa using hNot
      have hText := List.takeWhile_append_dropWhile
        (p := (· ≠ '"')) (l := text)
      rw [hDrop, hQuote] at hText
      have hUnquoted : '"' ∉ text.takeWhile (· ≠ '"') := by
        intro hMem
        have hAll :=
          List.all_eq_true.mp List.all_takeWhile _ hMem
        simp at hAll
      exact ⟨⟨_, hUnquoted⟩, rfl, hText.symm, rfl⟩
  · intro h
    rcases h with ⟨quotation, rfl, rfl, rfl⟩
    exact takeQuoted_quotation reading quotation rest

end Parser

end ProtoSchema
