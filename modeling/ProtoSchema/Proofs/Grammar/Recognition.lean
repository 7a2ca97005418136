import ProtoSchema.Proofs.Grammar.Form
import ProtoSchema.Proofs.Layout.Scanning

/-
  Parsers that recognize a form of the grammar: they accept
  exactly the texts that begin with a spelling of the form,
  and answer with what it denotes.

  Both directions quantify over the lexemes that follow, so
  that recognition is kept by sequencing.

  Key definitions include:
    * `Recognizes`
    * `RecognizesHere`

  Main theorems:
    * `Recognizes.of_gap`
    * `Recognizes.bind`
    * `Recognizes.expect`
    * `Recognizes.readWord_bind`
    * `Recognizes.readQuoted`
-/

namespace ProtoSchema

namespace Parser

open Grammar

variable {α β : Type}

/-
  The parser accepts the texts that spell a derivation of the
  form and any lexemes after it, leaves the latter, and
  answers with the value that is derived.
-/
structure Recognizes
    (parser : Parser α)
    (form : List Lexeme → α → Prop) : Prop where
  sound :
    ∀ {text rest : List Char} {value : α}
      {records : List Record} {following : List Lexeme},
      parser.run text = ⟨.ok value, rest, records⟩ →
        Spells following rest →
          ∃ lexemes,
            form lexemes value ∧
              Spells (lexemes ++ following) text
  complete :
    ∀ {text : List Char} {lexemes following : List Lexeme}
      {value : α},
      form lexemes value →
        Spells (lexemes ++ following) text →
          ∃ rest records,
            parser.run text = ⟨.ok value, rest, records⟩ ∧
              Spells following rest

/- The same of texts that no gap begins. -/
structure RecognizesHere
    (parser : Parser α)
    (form : List Lexeme → α → Prop) : Prop where
  sound :
    ∀ {text rest : List Char} {value : α}
      {records : List Record} {following : List Lexeme},
      Ungapped text →
        parser.run text = ⟨.ok value, rest, records⟩ →
          Spells following rest →
            ∃ lexemes,
              form lexemes value ∧
                Spells (lexemes ++ following) text
  complete :
    ∀ {text : List Char} {lexemes following : List Lexeme}
      {value : α},
      Ungapped text →
        form lexemes value →
          Spells (lexemes ++ following) text →
            ∃ rest records,
              parser.run text = ⟨.ok value, rest, records⟩ ∧
                Spells following rest

------------------------------------------------------------
-- Sequencing
------------------------------------------------------------

section Sequencing

variable {parser : Parser α}
variable {next : α → Parser β}
variable {form form' : List Lexeme → α → Prop}
variable {forms : α → List Lexeme → β → Prop}

/- Recognition depends on the derivations only. -/
theorem Recognizes.congr
    (h : Recognizes parser form)
    (hForm :
      ∀ lexemes value,
        form lexemes value ↔ form' lexemes value) :
    Recognizes parser form' := by
  have hEq : form = form' := by
    funext lexemes value
    exact propext (hForm lexemes value)
  exact hEq ▸ h

theorem recognizes_pure (value : α) :
    Recognizes (pure value)
      (fun lexemes found => lexemes = [] ∧ found = value) where
  sound := by
    intro text rest found records following hRun hRest
    simp only [pure_eq, Outcome.mk.injEq,
      Except.ok.injEq] at hRun
    rcases hRun with ⟨rfl, rfl, _⟩
    exact ⟨[], ⟨rfl, rfl⟩, hRest⟩
  complete := by
    intro text lexemes following found h hText
    rcases h with ⟨rfl, rfl⟩
    exact ⟨text, [], rfl, hText⟩

/- What always fails recognizes what nothing derives. -/
theorem recognizes_fail
    (error : ParseError)
    (hForm : ∀ lexemes value, ¬ form lexemes value) :
    Recognizes (fail error) form where
  sound := fun hRun => by simp [fail] at hRun
  complete := fun h => absurd h (hForm _ _)

/- What a record says is not read. -/
theorem recognizes_write (record : Record) :
    Recognizes (write record)
      (fun lexemes _ => lexemes = []) where
  sound := by
    intro text rest found records following hRun hRest
    simp only [write, Outcome.mk.injEq] at hRun
    rcases hRun with ⟨_, rfl, _⟩
    exact ⟨[], rfl, hRest⟩
  complete := by
    intro text lexemes following found hEq hText
    subst hEq
    exact ⟨text, [record], rfl, hText⟩

/- One form after the other. -/
theorem Recognizes.bind
    (hFirst : Recognizes parser form)
    (hNext : ∀ value, Recognizes (next value) (forms value)) :
    Recognizes (parser >>= next)
      (fun lexemes value =>
        ∃ found before after,
          form before found ∧ forms found after value ∧
            lexemes = before ++ after) where
  sound := by
    intro text rest value records following hRun hRest
    rcases bind_eq_ok_iff.mp hRun with
      ⟨found, middle, _, _, hRead, hThen, _⟩
    rcases (hNext found).sound hThen hRest with
      ⟨after, hAfter, hMiddle⟩
    rcases hFirst.sound hRead hMiddle with
      ⟨before, hBefore, hText⟩
    exact ⟨before ++ after,
      ⟨found, before, after, hBefore, hAfter, rfl⟩,
      by rwa [List.append_assoc]⟩
  complete := by
    intro text lexemes following value h hText
    rcases h with ⟨found, before, after, hBefore, hAfter, rfl⟩
    rw [List.append_assoc] at hText
    rcases hFirst.complete hBefore hText with
      ⟨middle, _, hRead, hMiddle⟩
    rcases (hNext found).complete hAfter hMiddle with
      ⟨rest, _, hThen, hRest⟩
    exact ⟨rest, _,
      bind_eq_ok_iff.mpr
        ⟨found, middle, _, _, hRead, hThen, rfl⟩,
      hRest⟩

/- The answer may be turned into another. -/
theorem Recognizes.map
    (h : Recognizes parser form)
    (f : α → β) :
    Recognizes (do let value ← parser; pure (f value))
      (fun lexemes value =>
        ∃ found, form lexemes found ∧ value = f found) := by
  refine (h.bind fun found => recognizes_pure (f found)).congr
    fun lexemes value => ?_
  constructor
  · intro h
    rcases h with ⟨found, before, _, hBefore, ⟨rfl, rfl⟩, rfl⟩
    exact ⟨found, by rwa [List.append_nil], rfl⟩
  · intro h
    rcases h with ⟨found, hFound, rfl⟩
    exact ⟨found, lexemes, [], hFound, ⟨rfl, rfl⟩,
      (List.append_nil _).symm⟩

/- A record may be written first. -/
theorem Recognizes.write_bind
    (h : Recognizes parser form)
    (record : Record) :
    Recognizes (do write record; parser) form := by
  refine ((recognizes_write record).bind fun _ => h).congr
    fun lexemes value => ?_
  constructor
  · intro h
    rcases h with ⟨_, _, after, rfl, hAfter, rfl⟩
    exact hAfter
  · intro hValue
    exact ⟨(), [], lexemes, rfl, hValue, rfl⟩

end Sequencing

------------------------------------------------------------
-- Gaps
------------------------------------------------------------

/- What recognizes a form does so where no gap is. -/
theorem Recognizes.here
    {parser : Parser α}
    {form : List Lexeme → α → Prop}
    (h : Recognizes parser form) :
    RecognizesHere parser form :=
  ⟨fun _ => h.sound, fun _ => h.complete⟩

/- Behind a gap, only texts without one have to be read. -/
theorem Recognizes.of_gap
    {parser : Parser α}
    {next : α → Parser β}
    {form : List Lexeme → β → Prop}
    (hSkips : SkipsGap parser)
    (h : ∀ value, RecognizesHere (next value) form) :
    Recognizes (parser >>= next) form where
  sound := by
    intro text rest value records following hRun hRest
    rcases bind_eq_ok_iff.mp hRun with
      ⟨found, middle, _, _, hRead, hThen, _⟩
    rcases hSkips.mp ⟨found, _, hRead⟩ with ⟨comments, hGap⟩
    rcases
        (h found).sound (ungapped_of_skipGap hGap) hThen hRest with
      ⟨lexemes, hForm, hMiddle⟩
    exact ⟨lexemes, hForm, spells_of_skipGap hGap hMiddle⟩
  complete := by
    intro text lexemes following value hForm hText
    rcases skipGap_of_spells hText with
      ⟨comments, middle, hGap, hFront, hMiddle⟩
    rcases hSkips.mpr ⟨comments, hGap⟩ with ⟨found, _, hRead⟩
    rcases (h found).complete hFront hForm hMiddle with
      ⟨rest, _, hThen, hRest⟩
    exact ⟨rest, _,
      bind_eq_ok_iff.mpr
        ⟨found, middle, _, _, hRead, hThen, rfl⟩,
      hRest⟩

------------------------------------------------------------
-- Marks and Quotations
------------------------------------------------------------

theorem recognizesHere_require
    (sign : Mark)
    (context : String) :
    RecognizesHere (require sign.char context)
      (fun lexemes _ => lexemes = [.mark sign]) where
  sound := by
    intro text rest value records following _ hRun hRest
    rcases require_eq_ok_iff.mp hRun with ⟨rfl, _⟩
    exact ⟨_, rfl, .cons _ hRest⟩
  complete := by
    intro text lexemes following value hFront hEq hText
    subst hEq
    rcases hText.exists_rest hFront with ⟨rest, rfl, hRest⟩
    exact ⟨rest, [], require_cons _ _ _, hRest⟩

theorem Recognizes.expect
    (sign : Mark)
    (context : String) :
    Recognizes (expect sign.char context)
      (fun lexemes _ => lexemes = [.mark sign]) :=
  .of_gap skipsGap_skipGap fun _ =>
    recognizesHere_require sign context

/- A mark, and another form after it. -/
theorem Recognizes.expect_bind
    {parser : Parser α}
    {form : List Lexeme → α → Prop}
    (h : Recognizes parser form)
    (sign : Mark)
    (context : String) :
    Recognizes
      (do Parser.expect sign.char context; parser)
      (fun lexemes value =>
        ∃ after,
          form after value ∧
            lexemes = .mark sign :: after) := by
  refine ((Recognizes.expect sign context).bind
    fun _ => h).congr fun lexemes value => ?_
  constructor
  · intro h
    rcases h with ⟨_, _, after, rfl, hAfter, rfl⟩
    exact ⟨after, hAfter, rfl⟩
  · intro h
    rcases h with ⟨after, hAfter, rfl⟩
    exact ⟨(), [.mark sign], after, rfl, hAfter, rfl⟩

theorem Recognizes.readQuoted (reading : String) :
    Recognizes (readQuoted reading)
      (fun lexemes value =>
        ∃ quotation : Quotation,
          value = quotation.text ∧
            lexemes = [.quoted quotation]) := by
  rw [Parser.readQuoted, Parser.expect, bind_assoc]
  refine .of_gap skipsGap_skipGap fun _ => ⟨?_, ?_⟩
  · intro text rest value records following _ hRun hRest
    rcases bind_eq_ok_iff.mp hRun with
      ⟨_, middle, _, _, hOpen, hTake, _⟩
    rcases require_eq_ok_iff.mp hOpen with ⟨rfl, _⟩
    rcases takeQuoted_eq_ok_iff.mp hTake with
      ⟨quotation, rfl, rfl, _⟩
    have hText := Spells.cons
      (.quoted quotation) hRest
    simp only [Lexeme.chars, List.cons_append,
      List.append_assoc, List.nil_append] at hText
    exact ⟨_, ⟨quotation, rfl, rfl⟩, hText⟩
  · intro text lexemes following value hFront h hText
    rcases h with ⟨quotation, rfl, rfl⟩
    rcases hText.exists_rest hFront with ⟨rest, rfl, hRest⟩
    simp only [Lexeme.chars, List.cons_append,
      List.append_assoc, List.nil_append]
    refine ⟨rest, _, bind_eq_ok_iff.mpr
      ⟨(), _, _, _, require_cons _ _ _,
        takeQuoted_eq_ok_iff.mpr
          ⟨quotation, rfl, rfl, rfl⟩, rfl⟩, hRest⟩

------------------------------------------------------------
-- Words
------------------------------------------------------------

theorem isIdentifier_delimiter
    {c : Char}
    (hChar : isDelimiter c = true) :
    isIdentifier [c] = false := by
  rcases isDelimiter_iff.mp hChar with
    rfl | rfl | rfl | rfl | rfl | rfl <;> decide

theorem isTypeReference_delimiter
    {c : Char}
    (hChar : isDelimiter c = true) :
    isTypeReference [c] = false := by
  rcases isDelimiter_iff.mp hChar with
    rfl | rfl | rfl | rfl | rfl | rfl <;> decide

theorem read?_delimiter
    {c : Char}
    (hChar : isDelimiter c = true) :
    Numeral.read? [c] = none := by
  rcases isDelimiter_iff.mp hChar with
    rfl | rfl | rfl | rfl | rfl | rfl <;> decide

/- A delimiter is a mark, or begins what is no bare word. -/
theorem isDelimiter_cases
    {c : Char}
    (hChar : isDelimiter c = true) :
    (∃ sign : Mark, c = sign.char) ∨ c = '"' ∨ c = '/' := by
  rcases isDelimiter_iff.mp hChar with
    rfl | rfl | rfl | rfl | rfl | rfl
  · exact .inl ⟨.openBrace, rfl⟩
  · exact .inl ⟨.closeBrace, rfl⟩
  · exact .inl ⟨.equals, rfl⟩
  · exact .inl ⟨.semicolon, rfl⟩
  · exact .inr (.inl rfl)
  · exact .inr (.inr rfl)

section Words

variable {next : String → Parser β}
variable {forms : BareWord → List Lexeme → β → Prop}
variable {markForms : Mark → List Lexeme → β → Prop}

/-
  What a word or a mark begins. A double quote can be read
  as a word too, so that what follows has to refuse it.
-/
theorem recognizesHere_requireWord_bind
    (reading : String)
    (hWord :
      ∀ word : BareWord,
        Recognizes (next word.text) (forms word))
    (hMark :
      ∀ sign : Mark,
        Recognizes (next (String.singleton sign.char))
          (markForms sign))
    (hQuote :
      ∃ error, next (String.singleton '"') = fail error) :
    RecognizesHere (requireWord reading >>= next)
      (fun lexemes value =>
        (∃ word after,
            forms word after value ∧
              lexemes = .word word :: after) ∨
          ∃ sign after,
            markForms sign after value ∧
              lexemes = .mark sign :: after) where
  sound := by
    intro text rest value records following hFront hRun hRest
    rcases bind_eq_ok_iff.mp hRun with
      ⟨found, middle, before, after, hRead, hThen, _⟩
    rcases hFront.cases with
      rfl | ⟨word, tail, rfl, hEnds⟩ | ⟨c, tail, rfl, hChar⟩
    · rw [requireWord_nil] at hRead
      simp at hRead
    · rw [requireWord_bareWord reading word hEnds] at hRead
      simp only [Outcome.mk.injEq, Except.ok.injEq] at hRead
      rcases hRead with ⟨rfl, rfl, _⟩
      rcases (hWord word).sound hThen hRest with
        ⟨lexemes, hForm, hTail⟩
      exact ⟨_, .inl ⟨word, lexemes, hForm, rfl⟩,
        .cons _ (spellsAfter_true_iff.mpr ⟨hTail, hEnds⟩)⟩
    · rw [requireWord_delimiter reading hChar] at hRead
      simp only [Outcome.mk.injEq, Except.ok.injEq] at hRead
      rcases hRead with ⟨rfl, rfl, _⟩
      rcases isDelimiter_cases hChar with
        ⟨sign, rfl⟩ | rfl | rfl
      · rcases (hMark sign).sound hThen hRest with
          ⟨lexemes, hForm, hTail⟩
        exact ⟨_, .inr ⟨sign, lexemes, hForm, rfl⟩,
          .cons (.mark sign) hTail⟩
      · rcases hQuote with ⟨error, hFail⟩
        rw [hFail] at hThen
        simp [fail] at hThen
      · exact absurd rfl (ungapped_cons_iff.mp hFront).2
  complete := by
    intro text lexemes following value hFront h hText
    rcases h with
      ⟨word, after, hForm, rfl⟩ | ⟨sign, after, hForm, rfl⟩
    · rcases hText.exists_rest hFront with ⟨middle, rfl, hAfter⟩
      rcases spellsAfter_true_iff.mp hAfter with
        ⟨hMiddle, hEnds⟩
      rcases (hWord word).complete hForm hMiddle with
        ⟨rest, _, hThen, hRest⟩
      exact ⟨rest, _, bind_eq_ok_iff.mpr
        ⟨word.text, middle, _, _,
          requireWord_bareWord reading word hEnds, hThen,
          rfl⟩, hRest⟩
    · rcases hText.exists_rest hFront with ⟨middle, rfl, hAfter⟩
      rcases (hMark sign).complete hForm hAfter with
        ⟨rest, _, hThen, hRest⟩
      exact ⟨rest, _, bind_eq_ok_iff.mpr
        ⟨String.singleton sign.char, middle, _, _,
          requireWord_delimiter reading
            sign.isDelimiter_char middle, hThen, rfl⟩,
        hRest⟩

/- The same with a gap before the word. -/
theorem Recognizes.readWord_bind_mark
    (reading : String)
    (hWord :
      ∀ word : BareWord,
        Recognizes (next word.text) (forms word))
    (hMark :
      ∀ sign : Mark,
        Recognizes (next (String.singleton sign.char))
          (markForms sign))
    (hQuote :
      ∃ error, next (String.singleton '"') = fail error) :
    Recognizes (readWord reading >>= next)
      (fun lexemes value =>
        (∃ word after,
            forms word after value ∧
              lexemes = .word word :: after) ∨
          ∃ sign after,
            markForms sign after value ∧
              lexemes = .mark sign :: after) := by
  rw [readWord, bind_assoc]
  exact .of_gap skipsGap_skipGap fun _ =>
    recognizesHere_requireWord_bind reading hWord hMark
      hQuote

/- The same where only a bare word is accepted. -/
theorem Recognizes.readWord_bind
    (reading : String)
    (hWord :
      ∀ word : BareWord,
        Recognizes (next word.text) (forms word))
    (hRefused :
      ∀ c, isDelimiter c = true →
        ∃ error, next (String.singleton c) = fail error) :
    Recognizes (readWord reading >>= next)
      (fun lexemes value =>
        ∃ word after,
          forms word after value ∧
            lexemes = .word word :: after) := by
  have hMark : ∀ sign : Mark,
      Recognizes (next (String.singleton sign.char))
        (fun _ _ => False) := by
    intro sign
    rcases hRefused sign.char sign.isDelimiter_char with
      ⟨error, hFail⟩
    rw [hFail]
    exact recognizes_fail error fun _ _ h => h
  refine (Recognizes.readWord_bind_mark reading hWord hMark
    (hRefused '"' (by decide))).congr
    fun lexemes value => ?_
  simp

/- A word of a form that no delimiter has. -/
theorem Recognizes.readWordOf_bind
    {isForm : List Char → Bool}
    (reading : String)
    (hDelimiter :
      ∀ c, isDelimiter c = true → isForm [c] = false)
    (hWord :
      ∀ word : BareWord,
        Recognizes (next word.text) (forms word)) :
    Recognizes (readWordOf isForm reading >>= next)
      (fun lexemes value =>
        ∃ word after,
          (isForm word.chars = true ∧
            forms word after value) ∧
            lexemes = .word word :: after) := by
  rw [readWordOf, bind_assoc]
  refine .readWord_bind reading (fun word => ?_)
    fun c hChar => ?_
  · rw [BareWord.toList_text]
    by_cases hForm : isForm word.chars = true
    · rw [if_pos hForm, pure_bind]
      exact (hWord word).congr fun lexemes value =>
        (and_iff_right hForm).symm
    · rw [if_neg hForm, fail_bind]
      exact recognizes_fail _ fun _ _ h => hForm h.1
  · rw [String.toList_singleton, hDelimiter c hChar]
    exact ⟨_, rfl⟩

/- An integer. -/
theorem Recognizes.readInteger_bind
    {next : Int64 → Parser β}
    {forms : Int64 → List Lexeme → β → Prop}
    (reading : String)
    (hNext : ∀ number, Recognizes (next number) (forms number)) :
    Recognizes (readInteger reading >>= next)
      (fun lexemes value =>
        ∃ word after,
          (∃ number,
            Numeral.read? word.chars = some number ∧
              forms number after value) ∧
            lexemes = .word word :: after) := by
  rw [readInteger, bind_assoc]
  refine .readWord_bind reading (fun word => ?_)
    fun c hChar => ?_
  · rw [BareWord.toList_text]
    cases hRead : Numeral.read? word.chars with
    | none =>
        exact recognizes_fail _ fun _ _ h => by simp at h
    | some number =>
        rw [pure_bind]
        exact (hNext number).congr fun lexemes value => by simp
  · rw [String.toList_singleton, read?_delimiter hChar]
    exact ⟨_, rfl⟩

end Words

end Parser

end ProtoSchema
