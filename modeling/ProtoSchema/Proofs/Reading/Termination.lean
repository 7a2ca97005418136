import ProtoSchema.Parser.Declaration
import ProtoSchema.Proofs.Reading.Turns
import ProtoSchema.Proofs.Scanning.Consumption
import ProtoSchema.Proofs.Scanning.Encoding

/-
  No text makes a loop go on for ever. A turn after which a
  loop goes on leaves fewer bytes than it has found, so a
  loop that may take one turn more than there are bytes does
  not run out of turns, whatever the text.

  Key definitions include:
    * `Parser.Progresses`
    * `Parser.turnsWithin`
    * `Parser.gapTurn`
    * `Parser.Ends`

  Main theorems:
    * `Parser.Progresses.exists_turnsWithin`
    * `Parser.Advances.ends`
    * `Parser.ends_gapTurn`
    * `Parser.loops_end`
-/

namespace ProtoSchema

/- A shorter rest of a text is fewer bytes. -/
theorem length_encode_lt
    {rest text : List Char}
    (hSuffix : rest <:+ text)
    (hLength : rest.length < text.length) :
    (encode rest).length < (encode text).length := by
  rcases hSuffix with ⟨read, rfl⟩
  have hRead : read ≠ [] := by
    rintro rfl
    exact Nat.lt_irrefl _ hLength
  have hBytes := (lt_length_encode_iff [] read).mpr hRead
  rw [encode_nil, List.nil_append, List.length_nil] at hBytes
  rw [encode_append, List.length_append]
  omega

/- A word at the front of a text is not empty. -/
theorem LeadingWord.ne_nil
    {word rest : List Char}
    (hWord : LeadingWord word rest) : word ≠ [] := by
  cases hWord with
  | delimiter _ _ => exact List.cons_ne_nil _ _
  | bare hSome _ _ => exact hSome

namespace Parser

variable {α β : Type}

------------------------------------------------------------
-- Loops with a Limit
------------------------------------------------------------

/-
  A turn after which the loop goes on has read at least one
  byte. A turn that closes the loop may have read nothing.
-/
structure Progresses (turn : Parser (Turn α)) : Prop where
  shrinks : turn.Shrinks
  lt :
    ∀ {text rest : List Char} {found : Turn α}
      {records : List Record},
      turn.run text = ⟨.ok found, rest, records⟩ →
        found ≠ .closed →
          (encode rest).length < (encode text).length

theorem Advances.progresses
    {turn : Parser (Turn α)}
    (hTurn : turn.Advances) : turn.Progresses where
  shrinks := hTurn.shrinks
  lt := by
    intro text rest found records hRun _
    have hSuffix := hTurn.shrinks text
    rw [hRun] at hSuffix
    exact length_encode_lt hSuffix (hTurn.lt hRun)

/-
  The loop over a turn that is stopped after so many turns.
  It has no outcome if it would have gone on.
-/
def turnsWithin
    (turn : Parser (Turn α)) :
    Nat → List Char → Option (Outcome (List α))
  | 0, _ => none
  | limit + 1, text =>
      match turn.run text with
      | ⟨.error error, rest, records⟩ =>
          some ⟨.error error, rest, records⟩
      | ⟨.ok .closed, rest, records⟩ =>
          some ⟨.ok [], rest, records⟩
      | ⟨.ok .skipped, rest, records⟩ =>
          (turnsWithin turn limit rest).map
            fun outcome => outcome.after records
      | ⟨.ok (.entry value), rest, records⟩ =>
          (turnsWithin turn limit rest).map fun outcome =>
            (outcome.map (value :: ·)).after records

section FirstTurn

variable {turn : Parser (Turn α)}
variable {text rest : List Char}
variable {records : List Record}
variable (limit : Nat)

theorem turnsWithin_of_error
    {error : ParseError}
    (hRead : turn.run text = ⟨.error error, rest, records⟩) :
    turnsWithin turn (limit + 1) text =
      some ⟨.error error, rest, records⟩ := by
  simp only [turnsWithin, hRead]

theorem turnsWithin_of_closed
    (hRead : turn.run text = ⟨.ok .closed, rest, records⟩) :
    turnsWithin turn (limit + 1) text =
      some ⟨.ok [], rest, records⟩ := by
  simp only [turnsWithin, hRead]

theorem turnsWithin_of_skipped
    (hRead : turn.run text = ⟨.ok .skipped, rest, records⟩) :
    turnsWithin turn (limit + 1) text =
      (turnsWithin turn limit rest).map
        fun outcome => outcome.after records := by
  simp only [turnsWithin, hRead]

theorem turnsWithin_of_entry
    {value : α}
    (hRead :
      turn.run text = ⟨.ok (.entry value), rest, records⟩) :
    turnsWithin turn (limit + 1) text =
      (turnsWithin turn limit rest).map fun outcome =>
        (outcome.map (value :: ·)).after records := by
  simp only [turnsWithin, hRead]

end FirstTurn

/-
  As many turns as there are bytes, and one more, are
  enough. The bytes that are left decrease with the turns
  that are left.
-/
theorem Progresses.exists_turnsWithin
    {turn : Parser (Turn α)}
    (hTurn : turn.Progresses)
    {limit : Nat}
    {text : List Char}
    (hLimit : (encode text).length < limit) :
    ∃ outcome, turnsWithin turn limit text = some outcome := by
  induction limit generalizing text with
  | zero => exact absurd hLimit (Nat.not_lt_zero _)
  | succ limit ih =>
      rcases hRead : turn.run text with
        ⟨error | (_ | _ | value), rest, records⟩
      · exact ⟨_, turnsWithin_of_error limit hRead⟩
      · exact ⟨_, turnsWithin_of_closed limit hRead⟩
      · have hRest : (encode rest).length < limit :=
          Nat.lt_of_lt_of_le (hTurn.lt hRead nofun)
            (Nat.le_of_lt_succ hLimit)
        rcases ih hRest with ⟨outcome, hLater⟩
        rw [turnsWithin_of_skipped limit hRead, hLater]
        exact ⟨_, rfl⟩
      · have hRest : (encode rest).length < limit :=
          Nat.lt_of_lt_of_le (hTurn.lt hRead nofun)
            (Nat.le_of_lt_succ hLimit)
        rcases ih hRest with ⟨outcome, hLater⟩
        rw [turnsWithin_of_entry limit hRead, hLater]
        exact ⟨_, rfl⟩

/-
  The loop over the turn ends: each turn but the last one
  leaves fewer bytes, and if the loop may take one turn more
  than there are bytes, it is not stopped, and what it has
  collected is what the parser reads.
-/
structure Ends
    (turn : Parser (Turn α))
    (collect : List α → β)
    (loop : Parser β) : Prop where
  progresses : turn.Progresses
  ends :
    ∀ text,
      (turnsWithin turn ((encode text).length + 1) text).map
          (Outcome.map collect) =
        some (loop.run text)

/- It does if the loop that is not stopped is the parser. -/
theorem Progresses.ends
    {turn : Parser (Turn α)}
    {collect : List α → β}
    {loop : Parser β}
    (hTurn : turn.Progresses)
    (hLoop :
      ∀ {limit text outcome},
        turnsWithin turn limit text = some outcome →
          outcome.map collect = loop.run text) :
    Ends turn collect loop where
  progresses := hTurn
  ends := by
    intro text
    rcases hTurn.exists_turnsWithin (Nat.lt_succ_self _)
      with ⟨outcome, hOutcome⟩
    rw [hOutcome, Option.map_some, hLoop hOutcome]

------------------------------------------------------------
-- Blocks
------------------------------------------------------------

/- A loop that is not stopped reads up to the brace. -/
theorem eq_untilClosed
    {turn : Parser (Turn α)}
    (hTurn : turn.Advances)
    {limit : Nat}
    {text : List Char}
    {outcome : Outcome (List α)}
    (hOutcome :
      turnsWithin turn limit text = some outcome) :
    outcome = (untilClosed turn hTurn).run text := by
  induction limit generalizing text outcome with
  | zero => cases hOutcome
  | succ limit ih =>
      rcases hRead : turn.run text with
        ⟨error | (_ | _ | value), rest, records⟩
      · rw [turnsWithin_of_error limit hRead] at hOutcome
        rw [untilClosed_of_error hTurn hRead]
        exact (Option.some.inj hOutcome).symm
      · rw [turnsWithin_of_closed limit hRead] at hOutcome
        rw [untilClosed_of_closed hTurn hRead]
        exact (Option.some.inj hOutcome).symm
      · rw [turnsWithin_of_skipped limit hRead] at hOutcome
        rcases Option.map_eq_some_iff.mp hOutcome with
          ⟨later, hLater, rfl⟩
        rw [untilClosed_of_skipped hTurn hRead, ih hLater]
      · rw [turnsWithin_of_entry limit hRead] at hOutcome
        rcases Option.map_eq_some_iff.mp hOutcome with
          ⟨later, hLater, rfl⟩
        rw [untilClosed_of_entry hTurn hRead, ih hLater]

theorem Advances.ends
    {turn : Parser (Turn α)}
    (hTurn : turn.Advances) :
    Ends turn id (untilClosed turn hTurn) :=
  hTurn.progresses.ends fun hOutcome => by
    rw [Outcome.map_id]
    exact eq_untilClosed hTurn hOutcome

------------------------------------------------------------
-- Gaps
------------------------------------------------------------

/-
  One turn of the loop that skips a gap: blanks, and the
  comment behind them. The gap is over where none begins.
-/
def gapTurn : Parser (Turn Unit) where
  run text :=
    match text.dropWhile isBlank with
    | '/' :: '/' :: rest =>
        ⟨.ok (.entry ()),
          (rest.dropWhile (· ≠ '\n')).drop 1, []⟩
    | '/' :: rest =>
        ⟨.error (.malformed .malformedComment),
          '/' :: rest, []⟩
    | rest => ⟨.ok .closed, rest, []⟩

/- A comment is over behind the end of its line. -/
theorem gapFrom_true (text : List Char) :
    gapFrom true text =
      gapFrom false
        ((text.dropWhile (· ≠ '\n')).drop 1) := by
  induction text with
  | nil => rfl
  | cons c rest ih =>
      rw [gapFrom]
      by_cases hLine : c = '\n'
      · subst hLine
        rfl
      · rw [List.dropWhile_cons_of_pos (by simpa using hLine),
          ← ih]
        simp [hLine]

theorem gapFrom_dropWhile (text : List Char) :
    gapFrom false text =
      gapFrom false (text.dropWhile isBlank) := by
  induction text with
  | nil => rfl
  | cons c rest ih =>
      cases hBlank : isBlank c with
      | true =>
          rw [gapFrom_blank hBlank, ih,
            List.dropWhile_cons_of_pos hBlank]
      | false =>
          rw [List.dropWhile_cons_of_neg (by simp [hBlank])]

/- What no blank and no comment begins is left as it is. -/
theorem gapFrom_of_dropWhile
    {text rest : List Char}
    (hText : text.dropWhile isBlank = rest)
    (hComment : ¬ ['/', '/'] <+: rest) :
    gapFrom false text = (0, rest) := by
  rw [gapFrom_dropWhile, hText]
  refine gapFrom_stop ?_ hComment
  intro c hHead
  have hNot := List.head?_dropWhile_not isBlank text
  rw [hText, Option.mem_def.mp hHead] at hNot
  simpa using hNot

/- The first comment is counted, and so are those behind it. -/
theorem skipGap_of_comment
    {text line : List Char}
    (hText : text.dropWhile isBlank = '/' :: '/' :: line) :
    skipGap.run text =
      (skipGap.run
        ((line.dropWhile (· ≠ '\n')).drop 1)).map
          (· + 1) := by
  rcases hLater :
      gapFrom false ((line.dropWhile (· ≠ '\n')).drop 1) with
    ⟨comments, rest⟩
  have hFrom : gapFrom false text = (comments + 1, rest) := by
    rw [gapFrom_dropWhile, hText, gapFrom, gapFrom_true,
      hLater]
  by_cases hSlash : '/' ∈ rest.head?
  · rcases List.head?_eq_some_iff.mp hSlash with ⟨tail, rfl⟩
    rw [skipGap_of_slash hFrom, skipGap_of_slash hLater]
    rfl
  · rw [skipGap_of_gapFrom hFrom hSlash,
      skipGap_of_gapFrom hLater hSlash]
    rfl

/-
  What a turn can do, and what it leaves to the loop: a
  comment is passed over and counted, or the gap is over, or
  a slash that begins no comment is a fault.
-/
theorem gapTurn_cases (text : List Char) :
    (∃ rest,
        gapTurn.run text = ⟨.ok (.entry ()), rest, []⟩ ∧
          rest <:+ text ∧
          rest.length < text.length ∧
          skipGap.run text =
            (skipGap.run rest).map (· + 1)) ∨
      (∃ rest,
        gapTurn.run text = ⟨.ok .closed, rest, []⟩ ∧
          rest <:+ text ∧
          skipGap.run text = ⟨.ok 0, rest, []⟩) ∨
      ∃ error rest,
        gapTurn.run text = ⟨.error error, rest, []⟩ ∧
          rest <:+ text ∧
          skipGap.run text = ⟨.error error, rest, []⟩ := by
  have hSuffix := List.dropWhile_suffix (l := text) isBlank
  generalize hText : text.dropWhile isBlank = behind
    at hSuffix
  by_cases hComment : ['/', '/'] <+: behind
  · rcases hComment with ⟨line, rfl⟩
    simp only [List.cons_append, List.nil_append]
      at hText hSuffix
    have hLine :
        (line.dropWhile (· ≠ '\n')).drop 1 <:+ line :=
      (List.drop_suffix _ _).trans (List.dropWhile_suffix _)
    refine .inl ⟨_, ?_, ?_, ?_, skipGap_of_comment hText⟩
    · simp only [gapTurn, hText]
    · exact (hLine.trans (List.suffix_append ['/', '/'] _)).trans
        hSuffix
    · have hShorter := hLine.length_le
      have hLength := hSuffix.length_le
      simp only [List.length_cons] at hLength
      omega
  · have hFrom := gapFrom_of_dropWhile hText hComment
    by_cases hSlash : '/' ∈ behind.head?
    · rcases List.head?_eq_some_iff.mp hSlash with
        ⟨tail, rfl⟩
      refine .inr (.inr ⟨_, _, ?_, hSuffix,
        skipGap_of_slash hFrom⟩)
      simp only [gapTurn, hText]
      split <;> simp_all
    · refine .inr (.inl ⟨_, ?_, hSuffix,
        skipGap_of_gapFrom hFrom hSlash⟩)
      simp only [gapTurn, hText]
      split <;> simp_all

theorem progresses_gapTurn : gapTurn.Progresses where
  shrinks := by
    intro text
    rcases gapTurn_cases text with
      ⟨rest, hRun, hSuffix, _⟩ | ⟨rest, hRun, hSuffix, _⟩ |
        ⟨error, rest, hRun, hSuffix, _⟩
    · rwa [hRun]
    · rwa [hRun]
    · rwa [hRun]
  lt := by
    intro text rest found records hRun hFound
    rcases gapTurn_cases text with
      ⟨after, hCase, hSuffix, hLength, _⟩ |
        ⟨after, hCase, _⟩ | ⟨error, after, hCase, _⟩
    · rw [hCase, Outcome.mk.injEq] at hRun
      rcases hRun with ⟨_, rfl, _⟩
      exact length_encode_lt hSuffix hLength
    · simp only [hCase, Outcome.mk.injEq,
        Except.ok.injEq] at hRun
      exact absurd hRun.1.symm hFound
    · simp [hCase] at hRun

/- A loop that is not stopped has counted the comments. -/
theorem eq_skipGap
    {limit : Nat}
    {text : List Char}
    {outcome : Outcome (List Unit)}
    (hOutcome :
      turnsWithin gapTurn limit text = some outcome) :
    outcome.map List.length = skipGap.run text := by
  induction limit generalizing text outcome with
  | zero => cases hOutcome
  | succ limit ih =>
      rcases gapTurn_cases text with
        ⟨rest, hRun, _, _, hSkip⟩ | ⟨rest, hRun, _, hSkip⟩ |
          ⟨error, rest, hRun, _, hSkip⟩
      · rw [turnsWithin_of_entry limit hRun] at hOutcome
        rcases Option.map_eq_some_iff.mp hOutcome with
          ⟨later, hLater, rfl⟩
        rw [hSkip, ← ih hLater]
        rcases later with ⟨error | values, after, records⟩
        · rfl
        · rfl
      · rw [turnsWithin_of_closed limit hRun] at hOutcome
        rw [hSkip, ← Option.some.inj hOutcome]
        rfl
      · rw [turnsWithin_of_error limit hRun] at hOutcome
        rw [hSkip, ← Option.some.inj hOutcome]
        rfl

/- Skipping a gap is the loop over its turns. -/
theorem ends_gapTurn : Ends gapTurn List.length skipGap :=
  progresses_gapTurn.ends eq_skipGap

/- Two comments take three turns. -/
example :
    turnsWithin gapTurn 2 "//\n//".toList = none ∧
      (turnsWithin gapTurn 3 "//\n//".toList).isSome := by
  decide

------------------------------------------------------------
-- Words
------------------------------------------------------------

/-
  Where a character stands behind a gap, a word that is read
  is found there, and is not empty.
-/
theorem exists_readWord
    {text rest : List Char}
    {c : Char}
    {comments : Nat}
    (hSkip :
      skipGap.run text = ⟨.ok comments, c :: rest, []⟩)
    (reading : String) :
    ∃ word after,
      (readWord reading).run (c :: rest) =
          ⟨.ok word, after, []⟩ ∧
        word ≠ "" ∧
        (encode after).length <
          (encode (c :: rest)).length := by
  rcases skipGap_eq_ok_iff.mp ⟨comments, hSkip⟩ with
    ⟨hFront, _⟩
  rcases LeadingWord.exists_of_ungapped hFront (by simp) with
    ⟨word, after, hText, hWord⟩
  rcases skipGap_eq_ok_iff.mpr
      ⟨hFront, [], .empty, (List.nil_append _).symm⟩
    with ⟨_, hAgain⟩
  have hTake := hWord.takeWord
  rw [← hText] at hTake
  have hShorter : after.length < (c :: rest).length := by
    have hSome := List.length_pos_iff.mpr hWord.ne_nil
    rw [hText, List.length_append]
    omega
  refine ⟨String.ofList word, after, ?_, ?_,
    length_encode_lt ⟨word, hText.symm⟩ hShorter⟩
  · rw [readWord, bind_of_ok hAgain,
      requireWord_of_takeWord reading hTake]
    rfl
  · intro hEmpty
    exact hWord.ne_nil (String.ofList_eq_empty_iff.mp hEmpty)

/-
  The loops over the body of a message, an enum and an oneof
  and the one over a gap come to an end for every text, and
  no word that keeps them going is empty.
-/
theorem loops_end
    (name : String)
    (place : Diagnostics) :
    Ends
        (readTurn .message name place
          (readMember place name)) id
        (untilClosed _
          (readTurn_advances .message name place
            (readMember_advances place name))) ∧
      Ends
        (readTurn .enum name place
          (readEnumValue place name)) id
        (untilClosed _
          (readTurn_advances .enum name place
            (readEnumValue_advances place name))) ∧
      Ends
        (readTurn .oneof name place
          (readAlternative place name)) id
        (untilClosed _
          (readTurn_advances .oneof name place
            (readAlternative_advances place name))) ∧
      Ends gapTurn List.length skipGap ∧
      ∀ reading text comments c rest,
        skipGap.run text = ⟨.ok comments, c :: rest, []⟩ →
          ∃ word after,
            (readWord reading).run (c :: rest) =
                ⟨.ok word, after, []⟩ ∧
              word ≠ "" ∧
              (encode after).length <
                (encode (c :: rest)).length :=
  ⟨Advances.ends _, Advances.ends _, Advances.ends _,
    ends_gapTurn,
    fun reading _ _ _ _ hSkip => exists_readWord hSkip reading⟩

end Parser

end ProtoSchema
