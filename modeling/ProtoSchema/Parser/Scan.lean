import ProtoSchema.Parser.Progress
import ProtoSchema.Text.Numeral
import ProtoSchema.Text.Word

/-
  The words of schema text. Between words stand gaps of
  blanks and line comments; a word is a delimiter or a
  longest run of word characters. None of these parsers
  writes a record.

  Key definitions include:
    * `gapFrom`
    * `skipGap`
    * `expect`
    * `nextWord`
    * `readIdentifier`
    * `readType`
    * `readQuoted`
    * `readInteger`

  Main theorems:
    * `gapFrom_suffix`
    * `expect_advances`
    * `readWord_advances`
-/

namespace ProtoSchema

namespace Parser

------------------------------------------------------------
-- Gaps
------------------------------------------------------------

/-
  The number of comments in the gap at the front of the
  text, and the text after the gap. A comment begins with
  two slashes and runs through the end of its line, or of
  the text. The flag tells whether the text begins inside
  one.
-/
def gapFrom : Bool → List Char → Nat × List Char
  | _, [] => (0, [])
  | true, c :: rest => gapFrom (c ≠ '\n') rest
  | false, '/' :: '/' :: rest =>
      let (comments, after) := gapFrom true rest
      (comments + 1, after)
  | false, c :: rest =>
      if isBlank c then
        gapFrom false rest
      else
        (0, c :: rest)

/- What follows a gap is a final part of the text. -/
theorem gapFrom_suffix
    (inComment : Bool)
    (text : List Char) :
    (gapFrom inComment text).2 <:+ text := by
  fun_induction gapFrom inComment text with
  | case1 => exact List.suffix_refl _
  | case2 c rest ih =>
      exact ih.trans (List.suffix_cons _ _)
  | case3 rest comments after hGap ih =>
      rw [hGap] at ih
      exact (ih.trans (List.suffix_cons _ _)).trans
        (List.suffix_cons _ _)
  | case4 c rest _ _ ih =>
      exact ih.trans (List.suffix_cons _ _)
  | case5 c rest _ _ => exact List.suffix_refl _

/- Skip blanks alone. -/
def skipBlanks : Parser Unit where
  run text := ⟨.ok (), text.dropWhile isBlank, []⟩

/-
  Skip the gap at the front and count its comments. A slash
  that remains begins no comment, and is a fault.
-/
def skipGap : Parser Nat where
  run text :=
    match gapFrom false text with
    | (_, '/' :: rest) =>
        ⟨.error (.malformed .malformedComment),
          '/' :: rest, []⟩
    | (comments, rest) => ⟨.ok comments, rest, []⟩

theorem skipGap_rest (text : List Char) :
    (skipGap.run text).rest = (gapFrom false text).2 := by
  unfold skipGap
  dsimp only
  split <;> simp_all

theorem skipGap_shrinks : skipGap.Shrinks := by
  intro text
  rw [skipGap_rest]
  exact gapFrom_suffix false text

------------------------------------------------------------
-- Single Characters
------------------------------------------------------------

/- The next character, which is not read. -/
def peek : Parser (Option Char) where
  run text := ⟨.ok text.head?, text, []⟩

/- Read the next character if it is `c`. -/
def eat (c : Char) : Parser Bool where
  run
    | [] => ⟨.ok false, [], []⟩
    | found :: rest =>
        if found = c then
          ⟨.ok true, rest, []⟩
        else
          ⟨.ok false, found :: rest, []⟩

/- Read the next character, which has to be `c`. -/
def require
    (c : Char)
    (context : String) : Parser Unit where
  run
    | [] =>
        ⟨.error (.unexpectedEnd s!"'{c}' {context}"),
          [], []⟩
    | found :: rest =>
        if found = c then
          ⟨.ok (), rest, []⟩
        else
          ⟨.error
            (.malformed (.unexpectedChar c context found)),
            found :: rest, []⟩

theorem require_advances
    (c : Char)
    (context : String) :
    (require c context).Advances where
  shrinks := by
    intro text
    unfold require
    dsimp only
    split
    · exact List.suffix_refl _
    · split
      · exact List.suffix_cons _ _
      · exact List.suffix_refl _
  lt := by
    intro text rest value records h
    unfold require at h
    dsimp only at h
    split at h
    · simp at h
    · split at h
      · simp only [Outcome.mk.injEq] at h
        rcases h with ⟨_, hRest, _⟩
        simp [hRest]
      · simp at h

/- Skip a gap and read `c`, which has to follow it. -/
def expect
    (c : Char)
    (context : String) : Parser Unit := do
  let _ ← skipGap
  require c context

theorem expect_advances
    (c : Char)
    (context : String) :
    (expect c context).Advances :=
  skipGap_shrinks.bind_advances fun _ =>
    require_advances c context

------------------------------------------------------------
-- Words
------------------------------------------------------------

/-
  The word at the front of the text: a delimiter alone, or
  the first character and every word character after it.
-/
def takeWord : Parser (Option String) where
  run
    | [] => ⟨.ok none, [], []⟩
    | c :: rest =>
        if isDelimiter c then
          ⟨.ok (some (String.singleton c)), rest, []⟩
        else
          ⟨.ok (some (String.ofList
              (c :: rest.takeWhile isWordChar))),
            rest.dropWhile isWordChar, []⟩

theorem takeWord_shrinks : takeWord.Shrinks := by
  intro text
  unfold takeWord
  dsimp only
  split
  · exact List.suffix_refl _
  · split
    · exact List.suffix_cons _ _
    · exact (List.dropWhile_suffix _).trans
        (List.suffix_cons _ _)

/-
  Skip a gap and read a word. There is none at the end of
  the text.
-/
def nextWord : Parser (Option String) := do
  let _ ← skipGap
  takeWord

theorem nextWord_shrinks : nextWord.Shrinks :=
  skipGap_shrinks.bind fun _ => takeWord_shrinks

/- A word that has been found is not empty. -/
theorem takeWord_lt
    {text rest : List Char}
    {word : String}
    {records : List Record}
    (h : takeWord.run text =
      ⟨.ok (some word), rest, records⟩) :
    rest.length < text.length := by
  unfold takeWord at h
  dsimp only at h
  split at h
  · simp at h
  next c tail =>
    split at h
    · simp only [Outcome.mk.injEq] at h
      rcases h with ⟨_, hRest, _⟩
      simp [hRest]
    · simp only [Outcome.mk.injEq] at h
      rcases h with ⟨_, hRest, _⟩
      have hLength :=
        (List.dropWhile_suffix isWordChar (l := tail)).length_le
      rw [hRest] at hLength
      simp only [List.length_cons]
      omega

theorem nextWord_lt
    {text rest : List Char}
    {word : String}
    {records : List Record}
    (h : nextWord.run text =
      ⟨.ok (some word), rest, records⟩) :
    rest.length < text.length := by
  rcases bind_eq_ok_iff.mp h with
    ⟨comments, middle, before, after, hGap, hWord, _⟩
  have hSuffix := skipGap_shrinks text
  rw [hGap] at hSuffix
  exact Nat.lt_of_lt_of_le (takeWord_lt hWord)
    hSuffix.length_le

/- The word there has to be at the front of the text. -/
def requireWord (reading : String) : Parser String := do
  match ← takeWord with
  | some word => pure word
  | none => fail (.unexpectedEnd reading)

theorem requireWord_advances (reading : String) :
    (requireWord reading).Advances where
  shrinks :=
    takeWord_shrinks.bind fun
      | some word => shrinks_pure word
      | none => shrinks_fail _
  lt := by
    intro text rest value records h
    rcases bind_eq_ok_iff.mp h with
      ⟨found, middle, before, after, hRun, hRest, _⟩
    cases found with
    | none => simp [fail] at hRest
    | some word =>
        simp only [pure_eq, Outcome.mk.injEq] at hRest
        rw [← hRest.2.1]
        exact takeWord_lt hRun

/- Skip a gap and read a word, which has to follow it. -/
def readWord (reading : String) : Parser String := do
  let _ ← skipGap
  requireWord reading

theorem readWord_advances (reading : String) :
    (readWord reading).Advances :=
  skipGap_shrinks.bind_advances fun _ =>
    requireWord_advances reading

/- Read a word that has to be of a certain form. -/
def readWordOf
    (form : List Char → Bool)
    (reading : String) : Parser String := do
  let word ← readWord reading
  if form word.toList then
    pure word
  else
    fail (.malformed (.malformedWord reading word))

theorem readWordOf_advances
    (form : List Char → Bool)
    (reading : String) :
    (readWordOf form reading).Advances :=
  (readWord_advances reading).bind fun word => by
    split
    · exact shrinks_pure word
    · exact shrinks_fail _

/- Read an identifier. -/
def readIdentifier (reading : String) : Parser String :=
  readWordOf isIdentifier reading

/- Read a type reference. -/
def readType (reading : String) : Parser String :=
  readWordOf isTypeReference reading

/- Read an integer. -/
def readInteger (reading : String) : Parser Int64 := do
  let word ← readWord reading
  match Numeral.read? word.toList with
  | some number => pure number
  | none => fail (.malformed (.notAnInteger reading word))

theorem readInteger_advances (reading : String) :
    (readInteger reading).Advances :=
  (readWord_advances reading).bind fun word => by
    split
    · exact shrinks_pure _
    · exact shrinks_fail _

------------------------------------------------------------
-- Quoted Text
------------------------------------------------------------

/-
  Read up to and including the next double quote. Nothing
  in between is special.
-/
def takeQuoted (reading : String) : Parser String where
  run text :=
    match text.dropWhile (· ≠ '"') with
    | [] => ⟨.error (.unexpectedEnd reading), [], []⟩
    | _ :: rest =>
        ⟨.ok (String.ofList (text.takeWhile (· ≠ '"'))),
          rest, []⟩

theorem takeQuoted_shrinks (reading : String) :
    (takeQuoted reading).Shrinks := by
  intro text
  have hSuffix :=
    List.dropWhile_suffix (l := text) (· ≠ '"')
  unfold takeQuoted
  dsimp only
  split
  · exact List.nil_suffix
  next c rest hDrop =>
    rw [hDrop] at hSuffix
    exact (List.suffix_cons c rest).trans hSuffix

/- Skip a gap and read text between double quotes. -/
def readQuoted (reading : String) : Parser String := do
  expect '"' s!"to open {reading}"
  takeQuoted reading

theorem readQuoted_advances (reading : String) :
    (readQuoted reading).Advances :=
  (expect_advances _ _).bind fun _ =>
    takeQuoted_shrinks reading

end Parser

end ProtoSchema
