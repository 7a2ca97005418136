import ProtoSchema.Parser.Declaration
import ProtoSchema.Proofs.Reading.Turns
import ProtoSchema.Proofs.Scanning.LeadingGap

/-
  How far parsers look ahead. A parser of words looks at the
  character behind the word, to see that it ends there. A
  parser that ends with a mark looks at nothing behind it,
  so that a declaration is read alike wherever it stands.

  Key definitions include:
    * `Parser.Peeks`
    * `Parser.Contained`
    * `Parser.Delimited`

  Main theorems:
    * `Parser.Peeks.bind`
    * `Parser.Peeks.bind_delimited`
    * `Parser.peeks_readWord`
    * `Parser.Delimited.turnHere`
    * `Parser.Delimited.readTurn`
-/

namespace ProtoSchema

namespace Parser

variable {α β : Type}

/-
  What the parser does when it succeeds is told by what it
  reads and by the next character, which it leaves.
-/
structure Peeks (parser : Parser α) : Prop where
  again :
    ∀ {text rest : List Char} {value : α}
      {records : List Record},
      parser.run text = ⟨.ok value, rest, records⟩ →
        ∃ read,
          text = read ++ rest ∧
            ∀ other,
              other.head? = rest.head? →
                parser.run (read ++ other) =
                  ⟨.ok value, other, records⟩

/- It is told by what it reads alone. -/
structure Contained (parser : Parser α) : Prop where
  again :
    ∀ {text rest : List Char} {value : α}
      {records : List Record},
      parser.run text = ⟨.ok value, rest, records⟩ →
        ∃ read,
          text = read ++ rest ∧
            ∀ other,
              parser.run (read ++ other) =
                ⟨.ok value, other, records⟩

/- So it is, and the parser reads something. -/
structure Delimited (parser : Parser α) : Prop where
  again :
    ∀ {text rest : List Char} {value : α}
      {records : List Record},
      parser.run text = ⟨.ok value, rest, records⟩ →
        ∃ c read,
          text = c :: (read ++ rest) ∧
            ∀ other,
              parser.run (c :: (read ++ other)) =
                ⟨.ok value, other, records⟩

theorem Contained.peeks
    {parser : Parser α}
    (h : Contained parser) : Peeks parser := by
  constructor
  intro text rest value records hRun
  rcases h.again hRun with ⟨read, hText, hRead⟩
  exact ⟨read, hText, fun other _ => hRead other⟩

theorem Delimited.contained
    {parser : Parser α}
    (h : Delimited parser) : Contained parser := by
  constructor
  intro text rest value records hRun
  rcases h.again hRun with ⟨c, read, hText, hRead⟩
  exact ⟨c :: read, hText, hRead⟩

------------------------------------------------------------
-- Parsers That Read Nothing
------------------------------------------------------------

theorem contained_pure (value : α) :
    Contained (pure value) := by
  constructor
  intro text rest found records hRun
  simp only [pure_eq, Outcome.mk.injEq,
    Except.ok.injEq] at hRun
  rcases hRun with ⟨rfl, rfl, rfl⟩
  exact ⟨[], rfl, fun _ => rfl⟩

theorem contained_write (record : Record) :
    Contained (write record) := by
  constructor
  intro text rest value records hRun
  simp only [write, Outcome.mk.injEq] at hRun
  rcases hRun with ⟨_, rfl, rfl⟩
  exact ⟨[], rfl, fun _ => rfl⟩

/- A parser that fails never comes to read anything. -/
theorem delimited_fail (error : ParseError) :
    Delimited (fail error : Parser α) := by
  constructor
  intro text rest value records hRun
  simp [fail] at hRun

------------------------------------------------------------
-- Sequencing
------------------------------------------------------------

section Sequencing

variable {first : Parser α}
variable {next : α → Parser β}

/-
  What follows the first part of a text begins as the second
  part does, or as what follows that.
-/
theorem head?_append_congr
    {read rest other : List Char}
    (hHead : other.head? = rest.head?) :
    (read ++ other).head? = (read ++ rest).head? := by
  cases read with
  | nil => exact hHead
  | cons c read => rfl

theorem Peeks.bind
    (hFirst : Peeks first)
    (hNext : ∀ value, Peeks (next value)) :
    Peeks (first >>= next) := by
  constructor
  intro text rest value records hRun
  rcases bind_eq_ok_iff.mp hRun with
    ⟨found, middle, before, after, hBefore, hAfter, rfl⟩
  rcases hFirst.again hBefore with ⟨read, rfl, hRead⟩
  rcases (hNext found).again hAfter with ⟨more, rfl, hMore⟩
  refine ⟨read ++ more, by simp, fun other hHead => ?_⟩
  rw [List.append_assoc,
    bind_of_ok (hRead _ (head?_append_congr hHead)),
    hMore other hHead]
  rfl

theorem Contained.bind
    (hFirst : Contained first)
    (hNext : ∀ value, Contained (next value)) :
    Contained (first >>= next) := by
  constructor
  intro text rest value records hRun
  rcases bind_eq_ok_iff.mp hRun with
    ⟨found, middle, before, after, hBefore, hAfter, rfl⟩
  rcases hFirst.again hBefore with ⟨read, rfl, hRead⟩
  rcases (hNext found).again hAfter with ⟨more, rfl, hMore⟩
  refine ⟨read ++ more, by simp, fun other => ?_⟩
  rw [List.append_assoc, bind_of_ok (hRead _), hMore other]
  rfl

theorem Delimited.bind
    (hFirst : Delimited first)
    (hNext : ∀ value, Contained (next value)) :
    Delimited (first >>= next) := by
  constructor
  intro text rest value records hRun
  rcases bind_eq_ok_iff.mp hRun with
    ⟨found, middle, before, after, hBefore, hAfter, rfl⟩
  rcases hFirst.again hBefore with ⟨c, read, rfl, hRead⟩
  rcases (hNext found).again hAfter with ⟨more, rfl, hMore⟩
  refine ⟨c, read ++ more, by simp, fun other => ?_⟩
  rw [List.append_assoc, bind_of_ok (hRead _), hMore other]
  rfl

/-
  A peek does no harm if what comes next begins with a
  character of its own.
-/
theorem Peeks.bind_delimited
    (hFirst : Peeks first)
    (hNext : ∀ value, Delimited (next value)) :
    Delimited (first >>= next) := by
  constructor
  intro text rest value records hRun
  rcases bind_eq_ok_iff.mp hRun with
    ⟨found, middle, before, after, hBefore, hAfter, rfl⟩
  rcases hFirst.again hBefore with ⟨read, rfl, hRead⟩
  rcases (hNext found).again hAfter with ⟨c, more, rfl, hMore⟩
  have hAgain :
      ∀ other,
        (first >>= next).run (read ++ c :: (more ++ other)) =
          ⟨.ok value, other, before ++ after⟩ := by
    intro other
    have hHead :
        first.run (read ++ c :: (more ++ other)) =
          ⟨.ok found, c :: (more ++ other), before⟩ :=
      hRead _ rfl
    rw [bind_of_ok hHead, hMore other]
    rfl
  cases read with
  | nil => exact ⟨c, more, rfl, hAgain⟩
  | cons d read =>
      refine ⟨d, read ++ c :: more, by simp, fun other => ?_⟩
      rw [← hAgain other]
      simp

end Sequencing

------------------------------------------------------------
-- Gaps and Words
------------------------------------------------------------

/-
  A gap ends before the next character, whatever follows
  that; and at the end of the text nothing else can follow.
-/
theorem peeks_skipGap : Peeks skipGap := by
  constructor
  intro text rest comments records hRun
  rcases exists_leadingGap text with
    ⟨count, gap, after, rfl, hGap⟩
  have hRest : after = rest := by
    have hFrom := skipGap_rest (gap ++ after)
    rw [hRun, hGap.gapFrom_append] at hFrom
    exact hFrom.symm
  subst hRest
  have hFront := ungapped_of_skipGap hRun
  have hSlash : '/' ∉ after.head? := fun hHead =>
    (hFront _ hHead).2 rfl
  rw [skipGap_of_gapFrom hGap.gapFrom_append hSlash,
    Outcome.mk.injEq, Except.ok.injEq] at hRun
  rcases hRun with ⟨rfl, _, rfl⟩
  refine ⟨gap, rfl, fun other hHead => ?_⟩
  have hEmpty : after.isEmpty = other.isEmpty := by
    cases after <;> cases other <;> simp_all
  have hOther : LeadingGap count gap other :=
    ⟨hEmpty ▸ hGap.counted, hHead ▸ hGap.noBlank, by
      rintro ⟨tail, rfl⟩
      exact hSlash hHead.symm⟩
  exact skipGap_of_gapFrom hOther.gapFrom_append
    (hHead ▸ hSlash)

theorem peeks_noteComments (place : Diagnostics) :
    Peeks (noteComments place) := by
  refine peeks_skipGap.bind fun comments => ?_
  split
  · exact (contained_write _).peeks
  · exact (contained_pure _).peeks

theorem delimited_require
    (c : Char)
    (context : String) :
    Delimited (require c context) := by
  constructor
  intro text rest value records hRun
  rcases require_eq_ok_iff.mp hRun with ⟨rfl, rfl⟩
  exact ⟨c, [], rfl, fun other => require_cons c context other⟩

theorem delimited_expect
    (c : Char)
    (context : String) :
    Delimited (expect c context) :=
  peeks_skipGap.bind_delimited fun _ =>
    delimited_require c context

/-
  A word with no gap in front of it ends before the next
  character, too.
-/
theorem takeWord_again
    {text rest : List Char}
    {word : Option String}
    {records : List Record}
    (hFront : Ungapped text)
    (hRun : takeWord.run text = ⟨.ok word, rest, records⟩) :
    ∃ read,
      text = read ++ rest ∧
        ∀ other,
          other.head? = rest.head? →
            takeWord.run (read ++ other) =
              ⟨.ok word, other, records⟩ := by
  rcases hFront.cases with
    rfl | ⟨bare, behind, rfl, hEnds⟩ | ⟨c, behind, rfl, hChar⟩
  · simp only [takeWord, Outcome.mk.injEq,
      Except.ok.injEq] at hRun
    rcases hRun with ⟨rfl, rfl, rfl⟩
    refine ⟨[], rfl, fun other hHead => ?_⟩
    rw [List.head?_eq_none_iff.mp hHead]
    rfl
  · rw [takeWord_bareWord bare hEnds, Outcome.mk.injEq]
      at hRun
    rcases hRun with ⟨hWord, rfl, rfl⟩
    refine ⟨bare.chars, rfl, fun other hHead => ?_⟩
    have hOther : WordEnds other := by
      unfold WordEnds
      rwa [hHead]
    rw [takeWord_bareWord bare hOther, hWord]
  · rw [takeWord_delimiter hChar, Outcome.mk.injEq] at hRun
    rcases hRun with ⟨hWord, rfl, rfl⟩
    refine ⟨[c], rfl, fun other _ => ?_⟩
    rw [List.singleton_append, takeWord_delimiter hChar,
      hWord]

theorem peeks_nextWord : Peeks nextWord := by
  constructor
  intro text rest word records hRun
  rcases bind_eq_ok_iff.mp hRun with
    ⟨comments, middle, before, after, hGap, hWord, rfl⟩
  rcases takeWord_again (ungapped_of_skipGap hGap) hWord with
    ⟨read, rfl, hRead⟩
  rcases peeks_skipGap.again hGap with ⟨gap, rfl, hSkip⟩
  refine ⟨gap ++ read, by simp, fun other hHead => ?_⟩
  rw [List.append_assoc, nextWord,
    bind_of_ok (hSkip _ (head?_append_congr hHead)),
    hRead other hHead]
  rfl

theorem peeks_readWord (reading : String) :
    Peeks (readWord reading) := by
  rw [readWord_eq]
  refine peeks_nextWord.bind fun word => ?_
  cases word with
  | some word => exact (contained_pure word).peeks
  | none => exact (delimited_fail _).contained.peeks

theorem peeks_readWordOf
    (form : List Char → Bool)
    (reading : String) :
    Peeks (readWordOf form reading) := by
  refine (peeks_readWord reading).bind fun word => ?_
  split
  · exact (contained_pure word).peeks
  · exact (delimited_fail _).contained.peeks

theorem peeks_readInteger (reading : String) :
    Peeks (readInteger reading) := by
  refine (peeks_readWord reading).bind fun word => ?_
  split
  · exact (contained_pure _).peeks
  · exact (delimited_fail _).contained.peeks

------------------------------------------------------------
-- Blocks
------------------------------------------------------------

section Blocks

variable {entry : Parser α}

/-
  The character that tells what stands here is the first one
  that is read.
-/
theorem Delimited.turnHere
    (hEntry : Delimited entry)
    (reading : String) :
    Delimited (turnHere reading entry) := by
  constructor
  intro text rest turn records hRun
  cases text with
  | nil => simp [Parser.turnHere] at hRun
  | cons c text =>
      by_cases hBrace : c = '\x7d'
      · subst hBrace
        simp only [Parser.turnHere, Outcome.mk.injEq] at hRun
        rcases hRun with ⟨hTurn, rfl, rfl⟩
        exact ⟨_, [], rfl, fun other => by
          rw [← hTurn]
          rfl⟩
      by_cases hSemicolon : c = ';'
      · subst hSemicolon
        simp only [Parser.turnHere, Outcome.mk.injEq] at hRun
        rcases hRun with ⟨hTurn, rfl, rfl⟩
        exact ⟨_, [], rfl, fun other => by
          rw [← hTurn]
          rfl⟩
      · rw [turnHere_of_entry hBrace hSemicolon] at hRun
        rcases hRead : entry.run (c :: text) with
          ⟨error | value, after, written⟩
        · simp [hRead, Outcome.map, Except.map] at hRun
        · simp only [hRead, Outcome.map, Except.map,
            Outcome.mk.injEq, Except.ok.injEq] at hRun
          rcases hRun with ⟨rfl, rfl, rfl⟩
          rcases hEntry.again hRead with
            ⟨d, read, hText, hAgain⟩
          rcases List.cons.inj hText with ⟨rfl, rfl⟩
          refine ⟨c, read, rfl, fun other => ?_⟩
          rw [turnHere_of_entry hBrace hSemicolon,
            hAgain other]
          rfl

theorem Delimited.readTurn
    (hEntry : Delimited entry)
    (kind : BlockKind)
    (name : String)
    (place : Diagnostics) :
    Delimited (readTurn kind name place entry) :=
  (peeks_noteComments place).bind_delimited fun _ =>
    hEntry.turnHere _

end Blocks

end Parser

end ProtoSchema
