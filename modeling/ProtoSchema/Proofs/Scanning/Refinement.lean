import ProtoSchema.Proofs.Scanning.Consumption
import ProtoSchema.Proofs.Scanning.Encoding

/-
  The machine on bytes follows the parsers on characters. It
  stops only where a character ends, so that none of its
  cuts fails, and it gives the same results.

  Key definitions include:
    * `ByteParser.FollowsAt`
    * `ByteParser.Follows`

  Main theorems:
    * `ByteParser.FollowsAt.bind`
    * `ByteParser.follows_skipGap`
    * `ByteParser.follows_expect`
    * `ByteParser.follows_nextWord`
    * `ByteParser.follows_readQuoted`
-/

namespace ProtoSchema

namespace ByteParser

------------------------------------------------------------
-- Following
------------------------------------------------------------

section Following

variable {α β : Type}

/-
  From the place between two texts the machine goes on as
  the parser does: the result is the same, and the position
  that is reached is behind what the parser reads.
-/
def FollowsAt
    (bytes : ByteParser α)
    (parser : Parser α)
    (before text : List Char) : Prop :=
  ∃ read rest result records,
    text = read ++ rest ∧
      parser.run text = ⟨result, rest, records⟩ ∧
        bytes.run (encode (before ++ text))
            (encode before).length =
          some (result, (encode (before ++ read)).length)

/- The machine does so from every place. -/
def Follows
    (bytes : ByteParser α)
    (parser : Parser α) : Prop :=
  ∀ before text, bytes.FollowsAt parser before text

variable {bytes : ByteParser α}
variable {next : α → ByteParser β}
variable {parser : Parser α}
variable {later : α → Parser β}
variable {before text : List Char}

/- What goes on behind the first step may depend on it. -/
theorem FollowsAt.bind
    (hFirst : bytes.FollowsAt parser before text)
    (hNext : ∀ value read rest records,
      text = read ++ rest →
        parser.run text = ⟨.ok value, rest, records⟩ →
          (next value).FollowsAt (later value)
            (before ++ read) rest) :
    (bytes >>= next).FollowsAt (parser >>= later)
      before text := by
  rcases hFirst with
    ⟨read, rest, error | value, records, hText, hRun, hStep⟩
  · exact ⟨read, rest, _, _, hText,
      Parser.bind_of_error hRun, bind_of_error hStep⟩
  · rcases hNext value read rest records hText hRun with
      ⟨more, last, result, others, hRest, hLater, hThen⟩
    rw [List.append_assoc, List.append_assoc, ← hText]
      at hThen
    refine ⟨read ++ more, last, result, records ++ others,
      ?_, ?_, ?_⟩
    · rw [hText, hRest, List.append_assoc]
    · rw [Parser.bind_of_ok hRun, hLater]
      rfl
    · rw [bind_of_ok hStep, hThen]

theorem Follows.bind
    (hFirst : bytes.Follows parser)
    (hNext : ∀ value, (next value).Follows (later value)) :
    (bytes >>= next).Follows (parser >>= later) :=
  fun before text =>
    (hFirst before text).bind fun value _ _ _ _ _ =>
      hNext value _ _

/- A step that does not look at the text. -/
theorem follows_ofExcept (step : Except ParseError α) :
    (ofExcept step).Follows (Parser.ofExcept step) :=
  fun _ text =>
    ⟨[], text, step, [], rfl, rfl, by
      rw [List.append_nil]
      rfl⟩

theorem follows_pure (value : α) :
    (pure value : ByteParser α).Follows (pure value) :=
  follows_ofExcept (.ok value)

theorem follows_fail (error : ParseError) :
    (fail error : ByteParser α).Follows (.fail error) :=
  follows_ofExcept (.error error)

theorem Follows.answering
    (h : bytes.Follows parser)
    (answer : α → Answer) :
    (answer <$> bytes).Follows (parser.answering answer) := by
  rw [Parser.answering_eq]
  exact h.bind fun value => follows_pure (answer value)

end Following

------------------------------------------------------------
-- Gaps
------------------------------------------------------------

theorem follows_skipBlanks :
    skipBlanks.Follows Parser.skipBlanks := by
  intro before text
  refine ⟨text.takeWhile isBlank, text.dropWhile isBlank,
    _, _, by simp, rfl, ?_⟩
  simp only [skipBlanks,
    passWhile_encode reflects_isBlankByte]

theorem follows_skipGap :
    skipGap.Follows Parser.skipGap := by
  intro before text
  rcases exists_leadingGap text with
    ⟨comments, gap, rest, rfl, hGap⟩
  have hPass := passGap_encode hGap before
  have hFrom := hGap.gapFrom_append
  by_cases hSlash : '/' ∈ rest.head?
  · rcases List.head?_eq_some_iff.mp hSlash with
      ⟨tail, rfl⟩
    rw [if_pos hSlash] at hPass
    exact ⟨gap, _, _, _, rfl,
      Parser.skipGap_of_slash hFrom, congrArg some hPass⟩
  · rw [if_neg hSlash] at hPass
    exact ⟨gap, _, _, _, rfl,
      Parser.skipGap_of_gapFrom hFrom hSlash,
      congrArg some hPass⟩

/- Behind a gap, only what begins no gap matters. -/
theorem follows_of_gap
    {α : Type}
    {next : ByteParser α}
    {later : Parser α}
    (hNext : ∀ before text,
      Ungapped text → next.FollowsAt later before text) :
    (skipGap >>= fun _ => next).Follows
      (Parser.skipGap >>= fun _ => later) :=
  fun before text =>
    (follows_skipGap before text).bind
      fun _ _ rest _ _ hRun =>
        hNext _ rest (Parser.ungapped_of_skipGap hRun)

------------------------------------------------------------
-- Single Characters
------------------------------------------------------------

section Characters

variable (before text : List Char)

/- The cut from the position on is the text itself. -/
theorem run_peek_encode :
    peek.run (encode (before ++ text))
        (encode before).length =
      some (.ok text.head?, (encode before).length) := by
  have hSlice := slice?_encode before text []
  rw [List.append_nil] at hSlice
  simp only [peek, hSlice, Option.map_some,
    String.toList_ofList]

theorem follows_peek : peek.Follows Parser.peek := by
  intro before text
  refine ⟨[], text, _, _, rfl, rfl, ?_⟩
  rw [run_peek_encode, List.append_nil]

variable (c : Char)

theorem follows_eat : (eat c).Follows (Parser.eat c) := by
  intro before text
  have hPeek := run_peek_encode before text
  by_cases hHead : text.head? = some c
  · rcases List.head?_eq_some_iff.mp hHead with ⟨rest, rfl⟩
    refine ⟨[c], rest, .ok true, [], rfl, ?_, ?_⟩
    · simp [Parser.eat]
    · rw [eat, bind_of_ok hPeek, if_pos hHead,
        length_encode_snoc]
      rfl
  · refine ⟨[], text, .ok false, [], rfl, ?_, ?_⟩
    · cases text with
      | nil => rfl
      | cons found rest =>
          have hFound : found ≠ c := by simpa using hHead
          simp [Parser.eat, hFound]
    · rw [eat, bind_of_ok hPeek, if_neg hHead,
        List.append_nil]
      rfl

theorem follows_require (context : String) :
    (require c context).Follows
      (Parser.require c context) := by
  intro before text
  have hPeek := run_peek_encode before text
  cases text with
  | nil =>
      refine ⟨[], [], _, _, rfl, rfl, ?_⟩
      rw [require, bind_of_ok hPeek, List.append_nil]
      rfl
  | cons found rest =>
      by_cases hFound : found = c
      · subst hFound
        refine ⟨[found], rest, _, _, rfl,
          Parser.require_cons _ _ _, ?_⟩
        rw [require, bind_of_ok hPeek,
          length_encode_snoc]
        simp only [List.head?_cons, if_true]
        rfl
      · refine ⟨[], found :: rest, _, _, rfl,
          Parser.require_of_ne hFound _ _, ?_⟩
        rw [require, bind_of_ok hPeek, List.append_nil]
        simp only [List.head?_cons, hFound, if_false]
        rfl

theorem follows_expect (context : String) :
    (expect c context).Follows (Parser.expect c context) :=
  follows_skipGap.bind fun _ => follows_require c context

end Characters

------------------------------------------------------------
-- Words
------------------------------------------------------------

/- A delimiter is a byte of its own. -/
theorem toNat_lt_of_isDelimiter
    {c : Char}
    (hChar : isDelimiter c = true) : c.toNat < 128 := by
  simp only [isDelimiter, Bool.or_eq_true,
    decide_eq_true_eq] at hChar
  rcases hChar with
    ((((rfl | rfl) | rfl) | rfl) | rfl) | rfl <;> decide

/-
  Where no gap begins, the word there is cut out. At a blank
  the parser takes more than the machine.
-/
theorem followsAt_takeWord
    (before : List Char)
    {text : List Char}
    (hFront : Ungapped text) :
    takeWord.FollowsAt Parser.takeWord before text := by
  cases text with
  | nil =>
      refine ⟨[], [], .ok none, [], rfl, rfl, ?_⟩
      simp [takeWord]
  | cons c rest =>
      rcases exists_head_encode before c rest with
        ⟨byte, hByte, _, hHead⟩
      have hClass := reflects_isDelimiterByte c byte hByte
      cases hChar : isDelimiter c with
      | true =>
          have hSlice := slice?_encode before [c] rest
          have hStop := length_encode_snoc_ascii before
            (toNat_lt_of_isDelimiter hChar)
          rw [List.append_assoc, hStop] at hSlice
          refine ⟨[c], rest, _, _, rfl,
            Parser.takeWord_delimiter hChar rest, ?_⟩
          rw [hStop]
          simp only [takeWord, hHead, hClass, hChar, if_true]
          exact congrArg (Option.map _) hSlice
      | false =>
          have hBlank := (ungapped_cons_iff.mp hFront).1
          have hWord : (c :: rest).takeWhile isWordChar =
              c :: rest.takeWhile isWordChar := by
            simp [isWordChar, hBlank, hChar]
          have hRun : Parser.takeWord.run (c :: rest) =
              ⟨.ok (some (String.ofList
                  (c :: rest.takeWhile isWordChar))),
                rest.dropWhile isWordChar, []⟩ := by
            simp only [Parser.takeWord, hChar]
            rfl
          have hStop := passWhile_encode
            reflects_isWordByte before (c :: rest)
          have hSlice := slice?_encode before
            (c :: rest.takeWhile isWordChar)
            (rest.dropWhile isWordChar)
          rw [List.append_assoc, List.cons_append,
            List.takeWhile_append_dropWhile] at hSlice
          refine ⟨c :: rest.takeWhile isWordChar,
            rest.dropWhile isWordChar, _, _, by simp, hRun,
            ?_⟩
          simp only [takeWord, hHead, hClass, hChar, hStop,
            hWord, Bool.false_eq_true, if_false]
          exact congrArg (Option.map _) hSlice

theorem follows_nextWord :
    nextWord.Follows Parser.nextWord :=
  follows_of_gap fun before _ hFront =>
    followsAt_takeWord before hFront

section Reading

variable (reading : String)

theorem follows_readWord :
    (readWord reading).Follows
      (Parser.readWord reading) := by
  rw [Parser.readWord_eq]
  refine follows_nextWord.bind fun
    | some word => follows_pure word
    | none => follows_fail _

theorem follows_readWordOf (form : List Char → Bool) :
    (readWordOf form reading).Follows
      (Parser.readWordOf form reading) := by
  refine (follows_readWord reading).bind fun word => ?_
  split
  · exact follows_pure word
  · exact follows_fail _

theorem follows_readInteger :
    (readInteger reading).Follows
      (Parser.readInteger reading) := by
  refine (follows_readWord reading).bind fun word => ?_
  cases Numeral.read? word.toList with
  | some number => exact follows_pure number
  | none => exact follows_fail _

------------------------------------------------------------
-- Quoted Text
------------------------------------------------------------

/-
  The bytes up to the first double quote are a text, and
  without one the machine stops at the end.
-/
theorem follows_takeQuoted :
    (takeQuoted reading).Follows
      (Parser.takeQuoted reading) := by
  intro before text
  by_cases hQuote : '"' ∈ text
  · rcases List.eq_append_cons_of_mem hQuote with
      ⟨body, rest, rfl, hBody⟩
    have hStop := passWhile_ne_encode (by decide) before
      hBody ('"' :: rest) (by simp)
    have hMore := (lt_length_encode_iff (before ++ body)
      ('"' :: rest)).mpr (by simp)
    have hSlice :=
      slice?_encode before body ('"' :: rest)
    rw [List.append_assoc] at hMore hSlice
    refine ⟨body ++ ['"'], rest, _, _, by simp,
      Parser.takeQuoted_quotation reading ⟨body, hBody⟩ rest,
      ?_⟩
    rw [takeQuoted]
    simp only [hStop, if_pos hMore, hSlice]
    rw [← List.append_assoc,
      length_encode_snoc_ascii _ (by decide)]
    rfl
  · have hStop := passWhile_ne_encode (by decide) before
      hQuote [] (by simp)
    rw [List.append_nil] at hStop
    refine ⟨text, [], _, _, by simp,
      Parser.takeQuoted_unterminated hQuote, ?_⟩
    rw [takeQuoted]
    simp only [hStop, Nat.lt_irrefl, if_false]

theorem follows_readQuoted :
    (readQuoted reading).Follows
      (Parser.readQuoted reading) :=
  (follows_expect _ _).bind fun _ =>
    follows_takeQuoted reading

end Reading

end ByteParser

end ProtoSchema
