import Mathlib.Data.List.Chain
import ProtoSchema.Proofs.Scanning.Exactness

/-
  Splitting a text into words. Asked for the next word again
  and again, a scanner returns the words of the text in
  order, and drops nothing but the gaps between them. It
  returns the same words with any other gaps that keep bare
  words apart.

  Key definitions include:
    * `nextWords`
    * `Piece`
    * `spell`
    * `Spacing`
    * `ReturnsWords`

  Main theorems:
    * `nextWords_spell`
    * `exists_spell`
    * `Spacing.returnsWords`
    * `Spacing.maximal`
    * `nextWords_split`
-/

namespace ProtoSchema

------------------------------------------------------------
-- Calls for Words
------------------------------------------------------------

/-
  The answers to calls for the next word, one after another,
  and the text that remains then.
-/
def nextWords
    (calls : Nat)
    (text : List Char) :
    List (Except ParseError Answer) × List Char :=
  answersTo (List.replicate calls .nextWord) text

/-
  The calls return these words in order and then, however
  often it is asked for, no further one.
-/
def ReturnsWords
    (text : List Char)
    (words : List String) : Prop :=
  ∀ more,
    nextWords (words.length + (more + 1)) text =
      (words.map (fun word => .ok (.word (some word))) ++
          List.replicate (more + 1) (.ok (.word none)),
        [])

section Calls

variable {text rest : List Char}
variable {result : Except ParseError Answer}
variable {records : List Record}

theorem nextWords_succ
    (hRun :
      Request.nextWord.parser.run text =
        ⟨result, rest, records⟩)
    (calls : Nat) :
    nextWords (calls + 1) text =
      (result :: (nextWords calls rest).1,
        (nextWords calls rest).2) := by
  simp only [nextWords, List.replicate_succ, answersTo, hRun]

theorem nextWords_add
    (calls later : Nat)
    (text : List Char) :
    nextWords (calls + later) text =
      ((nextWords calls text).1 ++
          (nextWords later (nextWords calls text).2).1,
        (nextWords later (nextWords calls text).2).2) := by
  induction calls generalizing text with
  | zero =>
      rw [Nat.zero_add]
      rfl
  | succ calls ih =>
      rw [Nat.add_right_comm, nextWords_succ rfl,
        nextWords_succ rfl, ih]
      rfl

/- A call that does not move is answered so for ever. -/
theorem nextWords_still
    (hRun :
      Request.nextWord.parser.run text =
        ⟨result, text, records⟩)
    (calls : Nat) :
    nextWords calls text =
      (List.replicate calls result, text) := by
  induction calls with
  | zero => rfl
  | succ calls ih =>
      rw [nextWords_succ hRun, ih]
      rfl

/- A call that has failed fails again, and does not move. -/
theorem nextWord_error_again
    {error : ParseError}
    (hRun :
      Request.nextWord.parser.run text =
        ⟨.error error, rest, records⟩) :
    Request.nextWord.parser.run rest =
      ⟨.error error, rest, []⟩ := by
  rcases Request.run_eq_iff_consumes.mp hRun with
    ⟨_, consumed, _, hConsumes⟩
  cases hConsumes with
  | @malformedComment _ comments _ rest hRequest hGap =>
      have hAgain : LeadingGap 0 [] ('/' :: rest) :=
        ⟨.empty, hGap.noBlank, hGap.noComment⟩
      have hStill :
          Consumes .nextWord [] ('/' :: rest)
            (.error (.malformed .malformedComment)) :=
        .malformedComment hRequest hAgain
      exact hStill.run_parser
  | missing hRequest _ => cases hRequest
  | unexpected hRequest _ _ _ => cases hRequest

/- Once a call has failed, the scanner is stuck there. -/
theorem nextWords_stuck
    {calls : Nat}
    {error : ParseError}
    (hFailed : .error error ∈ (nextWords calls text).1) :
    Request.nextWord.parser.run (nextWords calls text).2 =
      ⟨.error error, (nextWords calls text).2, []⟩ := by
  induction calls generalizing text with
  | zero => exact absurd hFailed List.not_mem_nil
  | succ calls ih =>
      rcases hRun : Request.nextWord.parser.run text with
        ⟨result, rest, records⟩
      rw [nextWords_succ hRun] at hFailed ⊢
      rcases List.mem_cons.mp hFailed with rfl | hLater
      · have hAgain := nextWord_error_again hRun
        rw [nextWords_still hAgain]
        exact hAgain
      · exact ih hLater

/- At the end of a gap no word follows. -/
theorem nextWord_gap
    {gap : List Char}
    (hGap : Gap true gap) :
    Request.nextWord.parser.run gap =
      ⟨.ok (.word none), [], []⟩ := by
  rcases Parser.skipGap_eq_ok_iff.mpr
      ⟨ungapped_nil, gap, hGap, (List.append_nil _).symm⟩
    with ⟨comments, hSkip⟩
  show Outcome.map _ (Parser.nextWord.run gap) = _
  rw [Parser.nextWord, Parser.bind_of_ok hSkip]
  rfl

end Calls

------------------------------------------------------------
-- Words and Gaps
------------------------------------------------------------

/- What may be returned: a delimiter, or a bare word. -/
inductive TextWord where
  | delimiter
      (c : Char)
      (hChar : isDelimiter c = true)
      (hSlash : c ≠ '/')
  | bare (word : BareWord)

namespace TextWord

/- The characters of a word. -/
def chars : TextWord → List Char
  | delimiter c _ _ => [c]
  | bare word => word.chars

/- The word as a string. -/
def text (word : TextWord) : String :=
  String.ofList word.chars

/- Whether a word is a bare one. -/
def isBare : TextWord → Bool
  | delimiter _ _ _ => false
  | bare _ => true

/- Only a bare word needs an end. -/
theorem leadingWord
    (word : TextWord)
    {rest : List Char}
    (hEnds : word.isBare = true → WordEnds rest) :
    LeadingWord word.chars rest := by
  cases word with
  | delimiter c hChar hSlash => exact .delimiter hChar hSlash
  | bare word =>
      exact .bare word.nonempty word.wordChars (hEnds rfl)

theorem exists_of_leadingWord
    {chars rest : List Char}
    (hWord : LeadingWord chars rest) :
    ∃ word : TextWord,
      word.chars = chars ∧
        (word.isBare = true → WordEnds rest) := by
  cases hWord with
  | @delimiter c _ hChar hSlash =>
      exact ⟨.delimiter c hChar hSlash, rfl, nofun⟩
  | bare hSome hChars hEnds =>
      exact ⟨.bare ⟨chars, hSome, hChars⟩, rfl,
        fun _ => hEnds⟩

/- A word begins with a character that begins no gap. -/
theorem exists_cons (word : TextWord) :
    ∃ c rest,
      word.chars = c :: rest ∧
        isBlank c = false ∧
        c ≠ '/' ∧
        isWordChar c = word.isBare := by
  cases word with
  | delimiter c hChar hSlash =>
      refine ⟨c, [], rfl, ?_, hSlash,
        isWordChar_of_isDelimiter hChar⟩
      rcases isDelimiter_iff.mp hChar with
        rfl | rfl | rfl | rfl | rfl | rfl <;> rfl
  | bare word =>
      rcases word.exists_cons with ⟨c, rest, hChars, hChar, _⟩
      refine ⟨c, rest, hChars, isBlank_of_isWordChar hChar,
        ?_, hChar⟩
      rintro rfl
      exact absurd hChar (by decide)

theorem ungapped
    (word : TextWord)
    (rest : List Char) : Ungapped (word.chars ++ rest) := by
  rcases word.exists_cons with
    ⟨c, tail, hChars, hBlank, hSlash, _⟩
  rw [hChars]
  exact ungapped_cons_iff.mpr ⟨hBlank, hSlash⟩

/- No word is a slash. -/
theorem text_ne_slash (word : TextWord) :
    word.text ≠ "/" := by
  intro hText
  rcases word.exists_cons with
    ⟨c, rest, hChars, _, hSlash, _⟩
  have hSame := congrArg String.toList hText
  simp only [text, hChars, String.toList_ofList] at hSame
  exact hSlash (List.cons.inj hSame).1

end TextWord

/- A word and the gap in front of it. -/
structure Piece where
  gap : List Char
  isGap : Gap false gap
  word : TextWord

/- The pieces in turn, and the last gap behind them. -/
def spell : List Piece → List Char → List Char
  | [], last => last
  | piece :: later, last =>
      piece.gap ++ (piece.word.chars ++ spell later last)

/- Two bare words in a row have a gap between them. -/
def Piece.Apart (left right : Piece) : Prop :=
  left.word.isBare = true →
    right.word.isBare = true → right.gap ≠ []

/-
  Words with gaps around them. The last gap may end inside
  a comment.
-/
structure Spacing where
  pieces : List Piece
  apart : pieces.IsChain Piece.Apart
  last : List Char
  isGap : Gap true last

namespace Spacing

/- The text that is spelled. -/
def text (spacing : Spacing) : List Char :=
  spell spacing.pieces spacing.last

/- Its words. -/
def words (spacing : Spacing) : List String :=
  spacing.pieces.map (·.word.text)

/-
  No bare word of the text can be made longer: what stands
  before it does not end, and what stands behind it does not
  begin, with a character of a word.
-/
def Maximal (spacing : Spacing) : Prop :=
  ∀ earlier piece later,
    spacing.pieces = earlier ++ piece :: later →
      piece.word.isBare = true →
        (∀ c ∈ (spell earlier piece.gap).getLast?,
            isWordChar c = false) ∧
          WordEnds (spell later spacing.last)

end Spacing

------------------------------------------------------------
-- Around a Bare Word
------------------------------------------------------------

/- An inner gap ends with a blank. -/
theorem Gap.isBlank_getLast
    {gap : List Char}
    (hGap : Gap false gap) :
    ∀ c ∈ gap.getLast?, isBlank c = true := by
  induction hGap with
  | empty => simp
  | @blank c rest hBlank _ ih =>
      cases rest with
      | nil => simpa using hBlank
      | cons d rest =>
          rw [List.getLast?_cons_cons]
          exact ih
  | @comment body rest _ _ ih =>
      rw [show '/' :: '/' :: (body ++ '\n' :: rest) =
          '/' :: '/' :: (body ++ ['\n']) ++ rest by simp,
        List.getLast?_append]
      cases hLast : rest.getLast? with
      | none => simp [List.getLast?_cons, isBlank]
      | some c => simpa [hLast] using ih
  | unfinished hFinal _ => cases hFinal

/- A gap does not continue a word, and may be empty. -/
theorem Gap.wordEnds_append
    {final : Bool}
    {gap rest : List Char}
    (hGap : Gap final gap)
    (hRest : WordEnds rest) : WordEnds (gap ++ rest) := by
  cases gap with
  | nil => exact hRest
  | cons c gap => exact hGap.wordEnds.append (by simp)

theorem spell_append
    (earlier later : List Piece)
    (last : List Char) :
    spell (earlier ++ later) last =
      spell earlier (spell later last) := by
  induction earlier with
  | nil => rfl
  | cons piece earlier ih =>
      simp only [List.cons_append, spell, ih]

/- The last gap stands at the end. -/
theorem spell_eq
    (pieces : List Piece)
    (last : List Char) :
    spell pieces last = spell pieces [] ++ last := by
  induction pieces with
  | nil => rfl
  | cons piece later ih => simp [spell, ih]

/- A bare word is over where the next piece begins. -/
theorem wordEnds_spell
    {piece : Piece}
    {later : List Piece}
    {last : List Char}
    (hApart : (piece :: later).IsChain Piece.Apart)
    (hLast : WordEnds last)
    (hBare : piece.word.isBare = true) :
    WordEnds (spell later last) := by
  cases later with
  | nil => exact hLast
  | cons next later =>
      have hNext : piece.Apart next := hApart.rel_head? rfl
      by_cases hGap : next.gap = []
      · rcases next.word.exists_cons with
          ⟨c, rest, hChars, _, _, hChar⟩
        rw [spell, hGap, hChars]
        apply wordEnds_cons_iff.mpr
        cases hWord : next.word.isBare with
        | false => exact hChar.trans hWord
        | true => exact absurd hGap (hNext hBare hWord)
      · exact next.isGap.wordEnds.append hGap

/- A bare word that is over stands apart from the next one. -/
theorem Piece.apart_of_wordEnds
    {piece next : Piece}
    {later : List Piece}
    {last : List Char}
    (hEnds :
      piece.word.isBare = true →
        WordEnds (spell (next :: later) last)) :
    piece.Apart next := by
  intro hBare hNext hGap
  rcases next.word.exists_cons with
    ⟨c, tail, hChars, _, _, hChar⟩
  have hOver := hEnds hBare
  rw [spell, hGap, hChars] at hOver
  rw [hNext, wordEnds_cons_iff.mp hOver] at hChar
  contradiction

/- It does not continue what stands before it. -/
theorem getLast_spell
    {earlier : List Piece}
    {piece : Piece}
    (hApart : (earlier ++ [piece]).IsChain Piece.Apart)
    (hBare : piece.word.isBare = true) :
    ∀ c ∈ (spell earlier piece.gap).getLast?,
      isWordChar c = false := by
  intro c hLast
  by_cases hGap : piece.gap = []
  · rcases List.eq_nil_or_concat earlier with
      rfl | ⟨before, other, rfl⟩
    · simp [spell, hGap] at hLast
    · have hOther : other.Apart piece :=
        (List.isChain_append.mp hApart).2.2 other (by simp)
          piece rfl
      rw [List.concat_eq_append, spell_append, spell_eq]
        at hLast
      cases hWord : other.word with
      | delimiter d hChar _ =>
          simp only [spell, hGap, hWord, TextWord.chars]
            at hLast
          simp only [List.append_nil, List.getLast?_append,
            List.getLast?_singleton, Option.some_or,
            Option.mem_some_iff] at hLast
          exact hLast ▸ isWordChar_of_isDelimiter hChar
      | bare word =>
          exact absurd hGap
            (hOther (by rw [hWord]; rfl) hBare)
  · rw [spell_eq, List.getLast?_append_of_ne_nil _ hGap]
      at hLast
    have hBlank := piece.isGap.isBlank_getLast c hLast
    simp [isWordChar, hBlank]

theorem Spacing.maximal (spacing : Spacing) :
    spacing.Maximal := by
  intro earlier piece later hPieces hBare
  have hApart := spacing.apart
  rw [hPieces] at hApart
  refine ⟨getLast_spell ?_ hBare,
    wordEnds_spell hApart.right_of_append
      spacing.isGap.wordEnds hBare⟩
  rw [List.append_cons] at hApart
  exact hApart.left_of_append

------------------------------------------------------------
-- From Words to Calls
------------------------------------------------------------

/- A piece at the front is passed, and its word returned. -/
theorem nextWord_piece
    (piece : Piece)
    {rest : List Char}
    (hEnds : piece.word.isBare = true → WordEnds rest) :
    Request.nextWord.parser.run
        (piece.gap ++ (piece.word.chars ++ rest)) =
      ⟨.ok (.word (some piece.word.text)), rest, []⟩ := by
  rcases Parser.skipGap_eq_ok_iff.mpr
      ⟨piece.word.ungapped rest, piece.gap,
        piece.isGap.ofInner, rfl⟩
    with ⟨comments, hSkip⟩
  show Outcome.map _ (Parser.nextWord.run _) = _
  rw [Parser.nextWord, Parser.bind_of_ok hSkip,
    (piece.word.leadingWord hEnds).takeWord]
  rfl

/-
  The first calls return the words of the pieces, and those
  after them go on at the end of the pieces.
-/
theorem nextWords_spell
    {pieces : List Piece}
    (hApart : pieces.IsChain Piece.Apart)
    {last : List Char}
    (hLast : WordEnds last)
    (calls : Nat) :
    nextWords (pieces.length + calls) (spell pieces last) =
      (pieces.map
            (fun piece =>
              .ok (.word (some piece.word.text))) ++
          (nextWords calls last).1,
        (nextWords calls last).2) := by
  induction pieces with
  | nil =>
      rw [List.length_nil, Nat.zero_add]
      rfl
  | cons piece later ih =>
      have hRun := nextWord_piece piece
        (wordEnds_spell hApart hLast)
      rw [List.length_cons, Nat.add_right_comm, spell,
        nextWords_succ hRun, ih hApart.tail]
      rfl

theorem Spacing.returnsWords (spacing : Spacing) :
    ReturnsWords spacing.text spacing.words := by
  intro more
  have hEnd : nextWords (more + 1) spacing.last =
      (List.replicate (more + 1) (.ok (.word none)), []) := by
    rw [nextWords_succ (nextWord_gap spacing.isGap),
      nextWords_still (nextWord_gap .empty)]
    rfl
  have hCalls :=
    nextWords_spell spacing.apart spacing.isGap.wordEnds
      (more + 1)
  rw [hEnd] at hCalls
  simpa [Spacing.text, Spacing.words, Function.comp_def]
    using hCalls

------------------------------------------------------------
-- From Calls to Words
------------------------------------------------------------

/-
  Every text is spelled by pieces, up to a last gap or to
  where the next call fails.
-/
theorem exists_spell (text : List Char) :
    ∃ pieces last,
      pieces.IsChain Piece.Apart ∧
        text = spell pieces last ∧
        WordEnds last ∧
        (Gap true last ∨
          ∃ error stop,
            Request.nextWord.parser.run last =
              ⟨.error error, stop, []⟩) := by
  induction hLength : text.length using Nat.strongRecOn
    generalizing text with
  | ind length ih =>
      subst hLength
      rcases exists_consumes .nextWord text with
        ⟨consumed, rest, result, rfl, hConsumes⟩
      have hRun := hConsumes.run_parser
      cases hConsumes with
      | malformedComment _ hGap =>
          exact ⟨[], _, .nil, rfl,
            hGap.counted.toGap.wordEnds_append
              (wordEnds_cons_iff.mpr rfl),
            .inr ⟨_, _, hRun⟩⟩
      | missing hRequest _ => cases hRequest
      | unexpected hRequest _ _ _ => cases hRequest
      | ended hGap =>
          have hEnd : Gap true consumed := hGap.counted.toGap
          refine ⟨[], consumed, .nil, ?_, hEnd.wordEnds,
            .inl hEnd⟩
          exact List.append_nil consumed
      | @nextWord comments gap chars _ hGap hWord =>
          rcases TextWord.exists_of_leadingWord hWord with
            ⟨word, rfl, hEnds⟩
          rcases word.exists_cons with ⟨c, tail, hChars, _⟩
          have hShorter :
              rest.length <
                (gap ++ word.chars ++ rest).length := by
            simp only [hChars, List.length_append,
              List.length_cons]
            omega
          rcases ih _ hShorter rest rfl with
            ⟨later, last, hApart, rfl, hLast, hEnd⟩
          have hInner : Gap false gap := by
            have hCounted := hGap.counted.toGap
            rw [hChars] at hCounted
            exact hCounted
          refine ⟨⟨gap, hInner, word⟩ :: later, last,
            hApart.cons ?_, by simp [spell], hLast, hEnd⟩
          intro next hNext
          rcases List.head?_eq_some_iff.mp hNext with
            ⟨more, rfl⟩
          exact Piece.apart_of_wordEnds hEnds

/- If a call finds no word, the calls have found them all. -/
theorem exists_spacing
    {text : List Char}
    {calls : Nat}
    (hNone : .ok (.word none) ∈ (nextWords calls text).1) :
    ∃ spacing : Spacing, spacing.text = text := by
  rcases exists_spell text with
    ⟨pieces, last, hApart, rfl, hLast, hGap | hFailed⟩
  · exact ⟨⟨pieces, hApart, last, hGap⟩, rfl⟩
  · rcases hFailed with ⟨error, stop, hRun⟩
    have hMore :
        .ok (.word none) ∈
          (nextWords (pieces.length + (calls + 1))
            (spell pieces last)).1 := by
      rw [show pieces.length + (calls + 1) =
          calls + (pieces.length + 1) by omega,
        nextWords_add]
      exact List.mem_append_left _ hNone
    rw [nextWords_spell hApart hLast, nextWords_succ hRun,
      nextWords_still (nextWord_error_again hRun)] at hMore
    simp at hMore

/-
  Calls for words split a text exactly. If they come to its
  end, it consists of the words that they have returned and
  of gaps, no bare word could have been longer, and none is a
  slash. However words are spelled, the calls return these
  words and then none. A call that fails is repeated by all
  later ones, which do not move.
-/
theorem nextWords_split (text : List Char) :
    (∀ calls,
        .ok (.word none) ∈ (nextWords calls text).1 →
          ∃ spacing : Spacing,
            spacing.text = text ∧
              ReturnsWords text spacing.words ∧
              spacing.Maximal ∧
              "/" ∉ spacing.words) ∧
      (∀ spacing : Spacing,
        spacing.text = text →
          ReturnsWords text spacing.words) ∧
      ∀ calls error,
        .error error ∈ (nextWords calls text).1 →
          ∀ later,
            nextWords (calls + later) text =
              ((nextWords calls text).1 ++
                  List.replicate later (.error error),
                (nextWords calls text).2) := by
  refine ⟨?_, ?_, ?_⟩
  · intro calls hNone
    rcases exists_spacing hNone with ⟨spacing, rfl⟩
    refine ⟨spacing, rfl, spacing.returnsWords,
      spacing.maximal, ?_⟩
    intro hSlash
    rcases List.mem_map.mp hSlash with ⟨piece, _, hText⟩
    exact piece.word.text_ne_slash hText
  · rintro spacing rfl
    exact spacing.returnsWords
  · intro calls error hFailed later
    rw [nextWords_add,
      nextWords_still (nextWords_stuck hFailed)]

/-
  Words that touch delimiters and comments, in a text that
  ends inside a comment.
-/
theorem nextWords_split_touching :
    let text := "a//x\n\x7b\"é=b//end".toList
    .ok (.word none) ∈ (nextWords 7 text).1 ∧
      ∃ spacing : Spacing,
        spacing.text = text ∧
          ReturnsWords text spacing.words ∧
          spacing.Maximal ∧
          "/" ∉ spacing.words := by
  intro text
  have hCalls : (nextWords 7 text).1 =
      ["a", "\x7b", "\"", "é", "=", "b"].map
          (fun word => .ok (.word (some word))) ++
        [.ok (.word none)] := by
    rfl
  have hNone : .ok (.word none) ∈ (nextWords 7 text).1 := by
    rw [hCalls]
    exact List.mem_append_right _ (List.mem_singleton.mpr rfl)
  exact ⟨hNone, (nextWords_split text).1 7 hNone⟩

end ProtoSchema
