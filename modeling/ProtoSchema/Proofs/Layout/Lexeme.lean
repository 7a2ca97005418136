import ProtoSchema.Proofs.Layout.Gap

/-
  Lexemes, and the texts that spell a sequence of them with
  gaps before, between and after. Two bare words have a gap
  between them that is not empty; all other lexemes may
  touch.

  Key definitions include:
    * `BareWord`
    * `Mark`
    * `Quotation`
    * `Lexeme`
    * `SpellsAfter`
    * `Spells`
    * `WordEnds`

  Main theorems:
    * `Spells.exists_gap`
    * `Spells.exists_rest`
    * `spellsAfter_true_iff`
-/

namespace ProtoSchema

------------------------------------------------------------
-- Lexemes
------------------------------------------------------------

/- A word that no delimiter and no blank interrupts. -/
structure BareWord where
  chars : List Char
  nonempty : chars ≠ []
  wordChars : ∀ c ∈ chars, isWordChar c = true
deriving DecidableEq

/- The word as a string. -/
def BareWord.text (word : BareWord) : String :=
  String.ofList word.chars

/- The delimiters that the grammar uses. -/
inductive Mark where
  | openBrace
  | closeBrace
  | equals
  | semicolon
deriving DecidableEq, Repr

/- The character of a mark. -/
def Mark.char : Mark → Char
  | openBrace => '\x7b'
  | closeBrace => '\x7d'
  | equals => '='
  | semicolon => ';'

/- What stands between two double quotes. -/
structure Quotation where
  chars : List Char
  unquoted : '"' ∉ chars
deriving DecidableEq

/- The content of a quotation as a string. -/
def Quotation.text (quotation : Quotation) : String :=
  String.ofList quotation.chars

/- The pieces of a schema that are not gaps. -/
inductive Lexeme where
  | word (bare : BareWord)
  | mark (sign : Mark)
  | quoted (quotation : Quotation)
deriving DecidableEq

namespace Lexeme

/- The characters of a lexeme. -/
def chars : Lexeme → List Char
  | .word bare => bare.chars
  | .mark sign => [sign.char]
  | .quoted quotation => '"' :: (quotation.chars ++ ['"'])

/- Whether a lexeme is a bare word. -/
def isWord : Lexeme → Bool
  | .word _ => true
  | .mark _ => false
  | .quoted _ => false

end Lexeme

------------------------------------------------------------
-- Characters of Lexemes
------------------------------------------------------------

theorem isBlank_of_isWordChar
    {c : Char}
    (hChar : isWordChar c = true) : isBlank c = false := by
  simp only [isWordChar, Bool.and_eq_true,
    Bool.not_eq_true'] at hChar
  exact hChar.1

theorem isDelimiter_of_isWordChar
    {c : Char}
    (hChar : isWordChar c = true) :
    isDelimiter c = false := by
  simp only [isWordChar, Bool.and_eq_true,
    Bool.not_eq_true'] at hChar
  exact hChar.2

theorem isWordChar_of_isDelimiter
    {c : Char}
    (hChar : isDelimiter c = true) :
    isWordChar c = false := by
  simp [isWordChar, hChar]

/- There are six delimiters. -/
theorem isDelimiter_iff
    {c : Char} :
    isDelimiter c = true ↔
      c = '\x7b' ∨ c = '\x7d' ∨ c = '=' ∨ c = ';' ∨
        c = '"' ∨ c = '/' := by
  simp only [isDelimiter, Bool.or_eq_true,
    decide_eq_true_eq, or_assoc]

theorem Mark.isDelimiter_char (mark : Mark) :
    isDelimiter mark.char = true := by
  cases mark <;> decide

/- A bare word begins with one of its characters. -/
theorem BareWord.exists_cons (word : BareWord) :
    ∃ c rest,
      word.chars = c :: rest ∧ isWordChar c = true ∧
        ∀ d ∈ rest, isWordChar d = true := by
  have hChars := word.wordChars
  cases hWord : word.chars with
  | nil => exact absurd hWord word.nonempty
  | cons c rest =>
      rw [hWord] at hChars
      exact ⟨c, rest, rfl, hChars c List.mem_cons_self,
        fun d hMem => hChars d (List.mem_cons_of_mem c hMem)⟩

/- No gap stands in front of a lexeme's own characters. -/
theorem Lexeme.ungapped
    (lexeme : Lexeme)
    (rest : List Char) :
    Ungapped (lexeme.chars ++ rest) := by
  cases lexeme with
  | word bare =>
      rcases bare.exists_cons with ⟨c, tail, hWord, hChar, _⟩
      rw [Lexeme.chars, hWord, List.cons_append,
        ungapped_cons_iff]
      refine ⟨isBlank_of_isWordChar hChar, ?_⟩
      intro hEq
      subst hEq
      simp [isWordChar, isDelimiter] at hChar
  | mark sign =>
      rw [Lexeme.chars, List.cons_append, ungapped_cons_iff]
      cases sign <;> decide
  | quoted quotation =>
      rw [Lexeme.chars, List.cons_append, ungapped_cons_iff]
      decide

theorem Lexeme.chars_ne_nil (lexeme : Lexeme) :
    lexeme.chars ≠ [] := by
  cases lexeme with
  | word bare => exact bare.nonempty
  | mark sign => simp [Lexeme.chars]
  | quoted quotation => simp [Lexeme.chars]

theorem Lexeme.exists_cons (lexeme : Lexeme) :
    ∃ c tail, lexeme.chars = c :: tail := by
  cases hChars : lexeme.chars with
  | nil => exact absurd hChars lexeme.chars_ne_nil
  | cons c tail => exact ⟨c, tail, rfl⟩

/-
  A mark is all of a lexeme that begins with its character.
-/
theorem Lexeme.eq_mark
    {lexeme : Lexeme}
    {tail : List Char}
    {sign : Mark}
    (hChars : lexeme.chars = sign.char :: tail) :
    lexeme = .mark sign := by
  cases lexeme with
  | word bare =>
      have hChar := bare.wordChars sign.char
        (by rw [show bare.chars = _ from hChars]; simp)
      rw [isWordChar_of_isDelimiter sign.isDelimiter_char]
        at hChar
      contradiction
  | mark other =>
      have hChar : other.char = sign.char :=
        (List.cons.inj hChars).1
      cases other <;> cases sign <;>
        first | rfl | exact absurd hChar (by decide)
  | quoted quotation =>
      have hChar : '"' = sign.char :=
        (List.cons.inj hChars).1
      cases sign <;> exact absurd hChar (by decide)

/- So is a quotation of one that begins with its quote. -/
theorem Lexeme.exists_quotation
    {lexeme : Lexeme}
    {tail : List Char}
    (hChars : lexeme.chars = '"' :: tail) :
    ∃ quotation, lexeme = .quoted quotation := by
  cases lexeme with
  | word bare =>
      have hChar := bare.wordChars '"'
        (by rw [show bare.chars = _ from hChars]; simp)
      exact absurd hChar (by decide)
  | mark sign =>
      have hChar : sign.char = '"' :=
        (List.cons.inj hChars).1
      cases sign <;> exact absurd hChar (by decide)
  | quoted quotation => exact ⟨quotation, rfl⟩

------------------------------------------------------------
-- Spelling
------------------------------------------------------------

/-
  The text spells the lexemes with a gap before each and one
  at the end. The flag tells that a bare word stands just
  before the text.
-/
inductive SpellsAfter :
    Bool → List Lexeme → List Char → Prop where
  | finish
      {afterWord : Bool}
      {gap : List Char}
      (hGap : Gap true gap) : SpellsAfter afterWord [] gap
  | lexeme
      {afterWord : Bool}
      {gap text : List Char}
      {first : Lexeme}
      {lexemes : List Lexeme}
      (hGap : Gap false gap)
      (hApart :
        afterWord = true → first.isWord = true → gap ≠ [])
      (hRest : SpellsAfter first.isWord lexemes text) :
      SpellsAfter afterWord (first :: lexemes)
        (gap ++ (first.chars ++ text))

/- The text spells the lexemes. -/
def Spells
    (lexemes : List Lexeme)
    (text : List Char) : Prop :=
  SpellsAfter false lexemes text

/- A word that ends before the text is not continued by it. -/
def WordEnds (text : List Char) : Prop :=
  ∀ c ∈ text.head?, isWordChar c = false

theorem wordEnds_nil : WordEnds [] := by
  simp [WordEnds]

theorem wordEnds_cons_iff
    {c : Char}
    {rest : List Char} :
    WordEnds (c :: rest) ↔ isWordChar c = false := by
  simp [WordEnds]

instance : DecidablePred WordEnds
  | [] => isTrue wordEnds_nil
  | _ :: _ => decidable_of_iff _ wordEnds_cons_iff.symm

/- A gap ends a word. -/
theorem Gap.wordEnds
    {final : Bool}
    {gap : List Char}
    (hGap : Gap final gap) : WordEnds gap := by
  intro c hHead
  rcases hGap.head hHead with hBlank | rfl
  · simp [isWordChar, hBlank]
  · decide

/- Every lexeme but a bare word ends a word. -/
theorem Lexeme.wordEnds
    {lexeme : Lexeme}
    (hLexeme : lexeme.isWord = false)
    (rest : List Char) :
    WordEnds (lexeme.chars ++ rest) := by
  cases lexeme with
  | word bare => simp [Lexeme.isWord] at hLexeme
  | mark sign =>
      exact wordEnds_cons_iff.mpr
        (isWordChar_of_isDelimiter sign.isDelimiter_char)
  | quoted quotation =>
      exact wordEnds_cons_iff.mpr (by decide)

theorem WordEnds.append
    {first rest : List Char}
    (hFirst : WordEnds first)
    (hNonempty : first ≠ []) : WordEnds (first ++ rest) := by
  cases first with
  | nil => exact absurd rfl hNonempty
  | cons c first =>
      exact wordEnds_cons_iff.mpr (wordEnds_cons_iff.mp hFirst)

section Spelling

variable {afterWord : Bool}
variable {lexemes : List Lexeme}
variable {text gap : List Char}

/- What may follow a bare word may follow anything. -/
theorem SpellsAfter.spells
    (h : SpellsAfter afterWord lexemes text) :
    Spells lexemes text := by
  cases h with
  | finish hGap => exact .finish hGap
  | lexeme hGap _ hRest =>
      exact .lexeme hGap (by simp) hRest

/- What spells lexemes after a bare word ends it. -/
theorem SpellsAfter.wordEnds
    (h : SpellsAfter true lexemes text) : WordEnds text := by
  cases h with
  | finish hGap => exact hGap.wordEnds
  | @lexeme _ gap rest first lexemes hGap hApart _ =>
      by_cases hNil : gap = []
      · subst hNil
        have hFirst : first.isWord = false := by
          cases hWord : first.isWord with
          | false => rfl
          | true => exact absurd rfl (hApart rfl hWord)
        exact Lexeme.wordEnds hFirst rest
      · exact hGap.wordEnds.append hNil

/-
  A text may follow a bare word if it ends the word; nothing
  else depends on what stands before.
-/
theorem Spells.spellsAfter
    (h : Spells lexemes text)
    (hEnds : afterWord = true → WordEnds text) :
    SpellsAfter afterWord lexemes text := by
  cases h with
  | finish hGap => exact .finish hGap
  | @lexeme _ gap rest first lexemes hGap _ hRest =>
      refine .lexeme hGap ?_ hRest
      intro hAfter hWord hNil
      subst hAfter
      subst hNil
      cases first with
      | word bare =>
          rcases bare.exists_cons with
            ⟨c, tail, hChars, hChar, _⟩
          have hEnd := hEnds rfl
          rw [List.nil_append, Lexeme.chars, hChars,
            List.cons_append, wordEnds_cons_iff, hChar]
            at hEnd
          contradiction
      | mark sign => simp [Lexeme.isWord] at hWord
      | quoted quotation => simp [Lexeme.isWord] at hWord

/- A lexeme in front of a spelling. -/
theorem Spells.cons
    (first : Lexeme)
    (h : SpellsAfter first.isWord lexemes text) :
    Spells (first :: lexemes) (first.chars ++ text) := by
  have hText : Spells (first :: lexemes)
      ([] ++ (first.chars ++ text)) :=
    .lexeme .empty (by simp) h
  exact hText

/- A gap in front of a spelling. -/
theorem Spells.gap_append
    (h : Spells lexemes text)
    (hGap : Gap false gap) : Spells lexemes (gap ++ text) := by
  cases h with
  | finish hFinal => exact .finish (hGap.append hFinal)
  | lexeme hFirst _ hRest =>
      rw [← List.append_assoc]
      exact .lexeme (hGap.append hFirst) (by simp) hRest

/- Nothing spells nothing. -/
theorem Spells.eq_nil
    (h : Spells lexemes []) : lexemes = [] := by
  generalize hText : ([] : List Char) = text at h
  cases h with
  | finish => rfl
  | @lexeme _ gap rest first lexemes _ _ _ =>
      simp [first.chars_ne_nil] at hText

/- The gap in front of a spelling, final or not. -/
theorem Spells.of_gap
    (h : Spells lexemes text)
    (hGap : Gap text.isEmpty gap) :
    Spells lexemes (gap ++ text) := by
  cases text with
  | nil =>
      rw [h.eq_nil, List.append_nil]
      exact .finish hGap
  | cons c text => exact h.gap_append hGap

/- Every spelling begins with a gap, and goes on without. -/
theorem Spells.exists_gap
    (h : Spells lexemes text) :
    ∃ gap rest,
      text = gap ++ rest ∧ Gap rest.isEmpty gap ∧
        Ungapped rest ∧ Spells lexemes rest := by
  cases h with
  | finish hGap =>
      exact ⟨text, [], by simp, hGap, ungapped_nil,
        .finish .empty⟩
  | @lexeme _ gap rest first lexemes hGap _ hRest =>
      exact ⟨gap, first.chars ++ rest, rfl, hGap.ofInner,
        first.ungapped rest, .cons first hRest⟩

/- Without a gap at the front, nothing is spelled by nothing. -/
theorem Spells.eq_nil_of_ungapped
    (h : Spells [] text)
    (hFront : Ungapped text) : text = [] := by
  cases h with
  | finish hGap =>
      exact hGap.eq_nil_of_ungapped hFront

/- Without a gap at the front, the first lexeme stands there. -/
theorem Spells.exists_rest
    {first : Lexeme}
    (h : Spells (first :: lexemes) text)
    (hFront : Ungapped text) :
    ∃ rest,
      text = first.chars ++ rest ∧
        SpellsAfter first.isWord lexemes rest := by
  cases h with
  | @lexeme _ gap rest _ _ hGap _ hRest =>
      rw [hGap.eq_nil hFront]
      exact ⟨rest, rfl, hRest⟩

/- After a bare word there must be what ends it. -/
theorem spellsAfter_true_iff :
    SpellsAfter true lexemes text ↔
      Spells lexemes text ∧ WordEnds text :=
  ⟨fun h => ⟨h.spells, h.wordEnds⟩,
    fun h => h.1.spellsAfter fun _ => h.2⟩

end Spelling

------------------------------------------------------------
-- Spelling from the Front
------------------------------------------------------------

section Spelling

variable {lexemes : List Lexeme}
variable {text : List Char}

theorem Spells.blank_cons
    {c : Char}
    (h : Spells lexemes text)
    (hBlank : isBlank c = true) :
    Spells lexemes (c :: text) :=
  h.gap_append (.blank hBlank .empty)

theorem Spells.mark_cons
    (h : Spells lexemes text)
    (sign : Mark) :
    Spells (.mark sign :: lexemes) (sign.char :: text) :=
  .cons _ h

/- A word in front of a character that ends it. -/
theorem Spells.word_append
    {c : Char}
    (h : Spells lexemes (c :: text))
    (hEnd : isWordChar c = false)
    (word : BareWord) :
    Spells (.word word :: lexemes)
      (word.chars ++ c :: text) :=
  .cons _ (spellsAfter_true_iff.mpr
    ⟨h, wordEnds_cons_iff.mpr hEnd⟩)

theorem Spells.quoted_append
    (h : Spells lexemes text)
    (quotation : Quotation) :
    Spells (.quoted quotation :: lexemes)
      ('"' :: (quotation.chars ++ '"' :: text)) := by
  have hText := Spells.cons (.quoted quotation) h
  rwa [Lexeme.chars, List.cons_append, List.append_assoc]
    at hText

/- A word and a blank in front of a spelling. -/
theorem Spells.spaced_append
    (h : Spells lexemes text)
    (word : BareWord) :
    Spells (.word word :: lexemes)
      (word.chars ++ ' ' :: text) :=
  (h.blank_cons (by decide)).word_append (by decide) word

/- Indentation in front of a spelling. -/
theorem Spells.spaces_append
    (h : Spells lexemes text)
    (count : Nat) :
    Spells lexemes (List.replicate count ' ' ++ text) := by
  induction count with
  | zero => exact h
  | succ count ih => exact ih.blank_cons (by decide)

end Spelling

end ProtoSchema
