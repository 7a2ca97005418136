import ProtoSchema.Proofs.Scanning.Refinement

/-
  A scanner that is asked one thing after another, failures
  included: it always stands where a character begins, goes
  forward only, and consumes of the text that remains what
  the request says, no more and no less.

  Key definitions include:
    * `Request.bytes`
    * `answersTo`
    * `answersAt`
    * `Cut`

  Main theorems:
    * `Request.follows`
    * `exists_answersAt`
    * `Request.scan_exact`
-/

namespace ProtoSchema

------------------------------------------------------------
-- Requests to the Machine
------------------------------------------------------------

/- How the machine reads the words of a form. -/
def WordForm.bytes
    (reading : String) : WordForm → ByteParser Answer
  | any => .text <$> ByteParser.readWord reading
  | identifier =>
      .text <$> ByteParser.readWordOf isIdentifier reading
  | type =>
      .text <$> ByteParser.readWordOf isTypeReference reading
  | integer => .number <$> ByteParser.readInteger reading

/- How the machine does what is asked. -/
def Request.bytes : Request → ByteParser Answer
  | skipBlanks =>
      (fun _ => .done) <$> ByteParser.skipBlanks
  | skipGap => .comments <$> ByteParser.skipGap
  | peek => .next <$> ByteParser.peek
  | eat c => .eaten <$> ByteParser.eat c
  | expect c context =>
      (fun _ => .done) <$> ByteParser.expect c context
  | nextWord => .word <$> ByteParser.nextWord
  | word form reading => form.bytes reading
  | quoted reading => .text <$> ByteParser.readQuoted reading

open ByteParser

theorem WordForm.follows
    (form : WordForm)
    (reading : String) :
    (form.bytes reading).Follows (form.parser reading) := by
  cases form with
  | any => exact (follows_readWord reading).answering _
  | identifier =>
      exact (follows_readWordOf reading _).answering _
  | type =>
      exact (follows_readWordOf reading _).answering _
  | integer => exact (follows_readInteger reading).answering _

/- The machine does what is asked as the parser does. -/
theorem Request.follows (request : Request) :
    request.bytes.Follows request.parser := by
  cases request with
  | skipBlanks => exact follows_skipBlanks.answering _
  | skipGap => exact follows_skipGap.answering _
  | peek => exact follows_peek.answering _
  | eat c => exact (follows_eat c).answering _
  | expect c context =>
      exact (follows_expect c context).answering _
  | nextWord => exact follows_nextWord.answering _
  | word form reading => exact form.follows reading
  | quoted reading =>
      exact (follows_readQuoted reading).answering _

------------------------------------------------------------
-- One Request after Another
------------------------------------------------------------

/-
  The answers to requests in turn, and the text that remains
  then. A request that fails is not the last: the next one
  goes on where it has stopped.
-/
def answersTo :
    List Request → List Char →
      List (Except ParseError Answer) × List Char
  | [], text => ([], text)
  | request :: later, text =>
      let outcome := request.parser.run text
      let (answers, rest) := answersTo later outcome.rest
      (outcome.result :: answers, rest)

/-
  The same of the machine, from a position on. There are no
  answers if any cut fails.
-/
def answersAt
    (bytes : List UInt8) :
    List Request → Nat →
      Option (List (Except ParseError Answer) × Nat)
  | [], position => some ([], position)
  | request :: later, position => do
      let (answer, reached) ← request.bytes.run bytes position
      let (answers, last) ← answersAt bytes later reached
      some (answer :: answers, last)

/- Both give the same answers and come to the same place. -/
theorem exists_answersAt
    (requests : List Request)
    (before text : List Char) :
    ∃ read rest answers,
      text = read ++ rest ∧
        answersTo requests text = (answers, rest) ∧
          answersAt (encode (before ++ text)) requests
              (encode before).length =
            some (answers,
              (encode (before ++ read)).length) := by
  induction requests generalizing before text with
  | nil =>
      refine ⟨[], text, [], rfl, rfl, ?_⟩
      rw [List.append_nil]
      rfl
  | cons request later ih =>
      rcases request.follows before text with
        ⟨read, rest, answer, records, rfl, hRun, hStep⟩
      rcases ih (before ++ read) rest with
        ⟨more, last, answers, rfl, hLater, hThen⟩
      rw [List.append_assoc, List.append_assoc] at hThen
      refine ⟨read ++ more, last, answer :: answers,
        by simp, ?_, ?_⟩
      · simp only [answersTo, hRun, hLater]
      · simp only [answersAt, hStep, hThen,
          Option.bind_eq_bind, Option.bind_some]

/- Behind a lone slash no part of a character is left over. -/
example :
    answersAt "/é".toUTF8.data.toList
        [.skipGap, .peek, .eat 'é', .nextWord] 0 =
      some ([.error (.malformed .malformedComment),
        .ok (.next (some '/')), .ok (.eaten false),
        .error (.malformed .malformedComment)], 0) := by
  cbv

------------------------------------------------------------
-- Cuts of an Input
------------------------------------------------------------

/-
  The position cuts the input into two texts. It is on a
  character boundary.
-/
structure Cut
    (input : String)
    (position : Nat)
    (before after : List Char) : Prop where
  split : input.toList = before ++ after
  size : position = (String.ofList before).utf8ByteSize
  bounded : position ≤ input.utf8ByteSize
  boundary : String.Pos.Raw.IsValid input ⟨position⟩

theorem Cut.of_split
    {input : String}
    {before after : List Char}
    (hSplit : input.toList = before ++ after) :
    Cut input (encode before).length before after := by
  have hInput : input =
      String.ofList before ++ String.ofList after := by
    rw [← String.ofList_append, ← hSplit,
      String.ofList_toList]
  have hSize := length_encode before
  refine ⟨hSplit, hSize, ?_, ?_⟩
  · rw [hSize, hInput, String.utf8ByteSize_append]
    exact Nat.le_add_right _ _
  · rw [String.Pos.Raw.isValid_iff_exists_append, hSize]
    exact ⟨_, _, hInput, rfl⟩

/- The bytes of an input are those of its characters. -/
theorem toList_toUTF8 (input : String) :
    input.toUTF8.data.toList = encode input.toList := by
  have hBytes := toByteArray_encode input.toList
  rw [String.ofList_toList] at hBytes
  rw [← hBytes, List.toList_data_toByteArray]

------------------------------------------------------------
-- Exactness
------------------------------------------------------------

/- The same answer with no comments in it. -/
def Answer.uncounted : Answer → Answer
  | comments _ => comments 0
  | answer => answer

/-
  The gap that is skipped is the longest one, and skipping
  it again changes nothing.
-/
theorem Consumes.longest_and_again
    {gap rest : List Char}
    {answer : Except ParseError Answer}
    (h : Consumes .skipGap gap rest answer) :
    Gap rest.isEmpty gap ∧
      (∀ other after,
        gap ++ rest = other ++ after →
          Gap after.isEmpty other → other <+: gap) ∧
      Consumes .skipGap [] rest
        (answer.map Answer.uncounted) := by
  have hAgain : ∀ {comments : Nat} {rest : List Char},
      LeadingGap comments gap rest → LeadingGap 0 [] rest :=
    fun hGap => ⟨.empty, hGap.noBlank, hGap.noComment⟩
  cases h with
  | malformedComment hRequest hGap =>
      exact ⟨hGap.counted.toGap,
        fun _ _ hText hOther => hGap.longest hOther hText,
        .malformedComment hRequest (hAgain hGap)⟩
  | gap hGap hSlash =>
      exact ⟨hGap.counted.toGap,
        fun _ _ hText hOther => hGap.longest hOther hText,
        .gap (hAgain hGap) hSlash⟩
  | missing hRequest _ => cases hRequest
  | unexpected hRequest _ _ _ => cases hRequest

/-
  Wherever the requests before have led, each one consumes
  of the rest exactly what it has to, whether it succeeds or
  fails, and no cut of the machine fails on the way.
-/
theorem Request.scan_exact
    (input : String)
    (earlier : List Request)
    (request : Request) :
    ∃ before read rest start stop answers answer,
      Cut input start before (read ++ rest) ∧
        Cut input stop (before ++ read) rest ∧
        start ≤ stop ∧
        answersTo earlier input.toList =
          (answers, read ++ rest) ∧
        answersAt input.toUTF8.data.toList earlier 0 =
          some (answers, start) ∧
        request.parser.run (read ++ rest) =
          ⟨answer, rest, []⟩ ∧
        request.bytes.run input.toUTF8.data.toList start =
          some (answer, stop) ∧
        Consumes request read rest answer ∧
        (request = .skipGap →
          Gap rest.isEmpty read ∧
            (∀ other after,
              read ++ rest = other ++ after →
                Gap after.isEmpty other → other <+: read) ∧
            Consumes .skipGap [] rest
              (answer.map Answer.uncounted)) := by
  rcases exists_answersAt earlier [] input.toList with
    ⟨before, text, answers, hInput, hEarlier, hEarlierAt⟩
  rcases request.follows before text with
    ⟨read, rest, answer, records, rfl, hRun, hRunAt⟩
  rw [List.nil_append, ← toList_toUTF8] at hEarlierAt
  rw [← hInput, ← toList_toUTF8] at hRunAt
  rcases Request.run_eq_iff_consumes.mp hRun with
    ⟨rfl, consumed, hText, hConsumes⟩
  have hRead := List.append_cancel_right hText
  subst hRead
  have hSplit : input.toList = (before ++ read) ++ rest := by
    rw [hInput, List.append_assoc]
  refine ⟨before, read, rest, _, _, answers, answer,
    Cut.of_split hInput, Cut.of_split hSplit, ?_,
    hEarlier, hEarlierAt, hRun, hRunAt, hConsumes, ?_⟩
  · rw [encode_append, List.length_append]
    exact Nat.le_add_right _ _
  · rintro rfl
    exact hConsumes.longest_and_again

end ProtoSchema
