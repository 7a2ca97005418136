import ProtoSchema.Proofs.Layout.Lexeme

/-
  Where a text may be cut. A place in a text lies in one of
  five zones, as the characters before it tell: between
  lexemes, in a bare word, behind a slash, in a comment or
  in a quotation. A cut is clean if neither a bare word nor
  the two slashes that open a comment stand across it.

  Key definitions include:
    * `Zone`
    * `Zone.after`
    * `CutsWord`
    * `CutsSlashes`
    * `CleanCut`

  Main theorems:
    * `Gap.after_between`
    * `Lexeme.after_between`
    * `SpellsAfter.after_zone`
    * `CleanCut.of_gap`
    * `CleanCut.of_lexeme`
    * `cleanCut_line`
-/

namespace ProtoSchema

------------------------------------------------------------
-- Zones of a Text
------------------------------------------------------------

/- What a place in a text lies in. -/
inductive Zone where
  /- In a gap, or behind a delimiter. -/
  | between
  /- Behind a character of a bare word. -/
  | word
  /- Behind a slash that may open a comment. -/
  | slash
  | comment
  | quotation
deriving DecidableEq, Repr

namespace Zone

/- The zone behind one more character. -/
def next : Zone → Char → Zone
  | .comment, c => if c = '\n' then .between else .comment
  | .quotation, c =>
      if c = '"' then .between else .quotation
  | zone, c =>
      if c = '/' then
        if zone = .slash then .comment else .slash
      else if c = '"' then
        .quotation
      else if isWordChar c then
        .word
      else
        .between

/- The zone behind a text that begins in a zone. -/
def after
    (zone : Zone)
    (text : List Char) : Zone :=
  text.foldl next zone

@[simp] theorem after_nil (zone : Zone) :
    zone.after [] = zone :=
  rfl

@[simp] theorem after_cons
    (zone : Zone)
    (c : Char)
    (text : List Char) :
    zone.after (c :: text) = (zone.next c).after text :=
  rfl

@[simp] theorem after_append
    (zone : Zone)
    (first rest : List Char) :
    zone.after (first ++ rest) =
      (zone.after first).after rest :=
  List.foldl_append

/- A word that has ended leaves no mark on what follows. -/
theorem word_after
    {text : List Char}
    (hText : text ≠ []) :
    word.after text = between.after text := by
  cases text with
  | nil => contradiction
  | cons c text => simp [next]

------------------------------------------------------------
-- Lexemes and Gaps
------------------------------------------------------------

theorem comment_after
    {body : List Char}
    (hBody : '\n' ∉ body) : comment.after body = .comment := by
  induction body with
  | nil => rfl
  | cons c body ih =>
      rw [List.mem_cons, not_or] at hBody
      rcases hBody with ⟨hChar, hBody⟩
      rw [after_cons, next, if_neg (Ne.symm hChar)]
      exact ih hBody

theorem quotation_after
    {chars : List Char}
    (hChars : '"' ∉ chars) :
    quotation.after chars = .quotation := by
  induction chars with
  | nil => rfl
  | cons c chars ih =>
      rw [List.mem_cons, not_or] at hChars
      rcases hChars with ⟨hChar, hChars⟩
      rw [after_cons, next, if_neg (Ne.symm hChar)]
      exact ih hChars

theorem next_wordChar
    {zone : Zone}
    (hZone : zone = .between ∨ zone = .word)
    {c : Char}
    (hChar : isWordChar c = true) : zone.next c = .word := by
  have hSlash : c ≠ '/' := by
    intro hEq
    subst hEq
    exact absurd hChar (by decide)
  have hQuote : c ≠ '"' := by
    intro hEq
    subst hEq
    exact absurd hChar (by decide)
  rcases hZone with hZone | hZone
  · simp [hZone, next, hSlash, hQuote, hChar]
  · simp [hZone, next, hSlash, hQuote, hChar]

theorem word_after_wordChars
    {chars : List Char}
    (hChars : ∀ c ∈ chars, isWordChar c = true) :
    word.after chars = .word := by
  induction chars with
  | nil => rfl
  | cons c chars ih =>
      rw [List.forall_mem_cons] at hChars
      rw [after_cons, next_wordChar (.inr rfl) hChars.1]
      exact ih hChars.2

theorem between_next_blank
    {c : Char}
    (hBlank : isBlank c = true) :
    between.next c = .between := by
  simp only [isBlank, Bool.or_eq_true,
    decide_eq_true_eq] at hBlank
  rcases hBlank with
    (((hChar | hChar) | hChar) | hChar) | hChar <;>
    subst hChar <;> decide

end Zone

/- A gap ends between lexemes, or in a comment at the end. -/
theorem Gap.after_between
    {final : Bool}
    {gap : List Char}
    (hGap : Gap final gap) :
    Zone.between.after gap = .between ∨
      (final = true ∧
        Zone.between.after gap = .comment) := by
  induction hGap with
  | empty => exact .inl rfl
  | blank hBlank _ ih =>
      rw [Zone.after_cons, Zone.between_next_blank hBlank]
      exact ih
  | @comment body rest hBody _ ih =>
      have hOpen :
          Zone.between.after ('/' :: '/' :: body) =
            .comment := by
        simp [Zone.next, Zone.comment_after hBody]
      rw [← List.cons_append, ← List.cons_append,
        Zone.after_append, hOpen]
      exact ih
  | unfinished hFinal hBody =>
      refine .inr ⟨hFinal, ?_⟩
      simp [Zone.next, Zone.comment_after hBody]

/- A gap in the middle of a text ends between lexemes. -/
theorem Gap.after_inner
    {gap : List Char}
    (hGap : Gap false gap) :
    Zone.between.after gap = .between := by
  rcases hGap.after_between with hZone | ⟨hFinal, _⟩
  · exact hZone
  · contradiction

/- The zone behind a lexeme. -/
def Lexeme.zone (lexeme : Lexeme) : Zone :=
  if lexeme.isWord then .word else .between

theorem Lexeme.after_between (lexeme : Lexeme) :
    Zone.between.after lexeme.chars = lexeme.zone := by
  cases lexeme with
  | word bare =>
      rcases bare.exists_cons with
        ⟨c, tail, hChars, hChar, hTail⟩
      rw [Lexeme.chars, hChars, Zone.after_cons,
        Zone.next_wordChar (.inl rfl) hChar]
      exact Zone.word_after_wordChars hTail
  | mark sign => cases sign <;> decide
  | quoted quotation =>
      simp [Lexeme.chars, Lexeme.zone, Lexeme.isWord,
        Zone.next,
        Zone.quotation_after quotation.unquoted]

/- Behind a lexeme, reading goes on as between lexemes. -/
theorem Lexeme.after_append
    (lexeme : Lexeme)
    {rest : List Char}
    (hRest : rest ≠ []) :
    Zone.between.after (lexeme.chars ++ rest) =
      Zone.between.after rest := by
  rw [Zone.after_append, lexeme.after_between,
    Lexeme.zone]
  split
  · exact Zone.word_after hRest
  · rfl

/-
  A text that spells lexemes ends between lexemes or in a
  comment, unless the last of them is a bare word.
-/
theorem SpellsAfter.after_zone
    {afterWord : Bool}
    {lexemes : List Lexeme}
    {text : List Char}
    (h : SpellsAfter afterWord lexemes text) :
    let zone := if afterWord then Zone.word else .between
    zone.after text = .between ∨
      zone.after text = .comment ∨
        lexemes.foldl (fun _ last => last.isWord) afterWord =
          true := by
  induction h with
  | @finish afterWord gap hGap =>
      cases afterWord with
      | true => exact .inr (.inr rfl)
      | false =>
          rcases hGap.after_between with
            hZone | ⟨_, hZone⟩
          · exact .inl hZone
          · exact .inr (.inl hZone)
  | @lexeme afterWord gap text first lexemes hGap _ _ ih =>
      have hNonempty : gap ++ (first.chars ++ text) ≠ [] := by
        simp [first.chars_ne_nil]
      have hZone :
          (if afterWord then Zone.word else .between).after
              (gap ++ (first.chars ++ text)) =
            first.zone.after text := by
        have hBetween :
            Zone.between.after
                (gap ++ (first.chars ++ text)) =
              first.zone.after text := by
          rw [Zone.after_append, hGap.after_inner,
            Zone.after_append, first.after_between]
        cases afterWord with
        | true =>
            exact (Zone.word_after hNonempty).trans hBetween
        | false => exact hBetween
      dsimp only
      rw [hZone, List.foldl_cons]
      exact ih

------------------------------------------------------------
-- Cuts
------------------------------------------------------------

/- A bare word stands across the cut. -/
def CutsWord (front back : List Char) : Prop :=
  Zone.between.after front = .word ∧ ¬ WordEnds back

/- The slashes that open a comment stand across the cut. -/
def CutsSlashes (front back : List Char) : Prop :=
  Zone.between.after front = .slash ∧ '/' ∈ back.head?

instance (front back : List Char) :
    Decidable (CutsWord front back) := by
  unfold CutsWord
  infer_instance

instance (front back : List Char) :
    Decidable (CutsSlashes front back) := by
  unfold CutsSlashes
  infer_instance

/- Neither stands across the cut. -/
structure CleanCut (front back : List Char) : Prop where
  word : ¬ CutsWord front back
  slashes : ¬ CutsSlashes front back

/- Cuts inside a comment and a quotation, and in a word. -/
example :
    CleanCut "// one".toList "two\n;".toList ∧
      CleanCut "= \"pro".toList "to3\"".toList ∧
        ¬ CleanCut "mess".toList "age".toList :=
  ⟨⟨by decide, by decide⟩, ⟨by decide, by decide⟩,
    fun h => h.word (by decide)⟩

/- Elsewhere than in a word or behind a slash, cuts are clean. -/
theorem cleanCut_of_after
    {front : List Char}
    (hZone :
      Zone.between.after front = .between ∨
        Zone.between.after front = .comment)
    (back : List Char) : CleanCut front back := by
  rcases hZone with hZone | hZone
  · exact ⟨by simp [CutsWord, hZone],
      by simp [CutsSlashes, hZone]⟩
  · exact ⟨by simp [CutsWord, hZone],
      by simp [CutsSlashes, hZone]⟩

/- A text may be cut at the end of a line. -/
theorem cleanCut_line
    (front back : List Char) :
    CleanCut front ('\n' :: back) where
  word := fun h =>
    h.2 (wordEnds_cons_iff.mpr (by decide))
  slashes := fun h => by simp [CutsSlashes] at h

namespace CleanCut

variable {front back rest : List Char}

/- Whether a cut is clean is told by the zone it lies in. -/
theorem of_after
    (h : CleanCut front back)
    (hZone :
      rest ≠ [] →
        Zone.between.after front =
          Zone.between.after rest) :
    CleanCut rest back := by
  by_cases hRest : rest = []
  · subst hRest
    exact cleanCut_of_after (.inl rfl) back
  · have hSame := hZone hRest
    exact ⟨by simpa [CutsWord, hSame] using h.word,
      by simpa [CutsSlashes, hSame] using h.slashes⟩

/- The gap at the front does not matter. -/
theorem of_gap
    {gap : List Char}
    (h : CleanCut (gap ++ rest) back)
    (hGap : Gap rest.isEmpty gap) : CleanCut rest back := by
  apply h.of_after
  intro hRest
  have hEmpty : rest.isEmpty = false := by simpa using hRest
  rw [hEmpty] at hGap
  rw [Zone.after_append, hGap.after_inner]

/- Nor does the lexeme at the front. -/
theorem of_lexeme
    (lexeme : Lexeme)
    (h : CleanCut (lexeme.chars ++ rest) back) :
    CleanCut rest back :=
  h.of_after lexeme.after_append

/- A word before a clean cut is not continued behind it. -/
theorem wordEnds
    {word : BareWord}
    (h : CleanCut (word.chars ++ rest) back)
    (hEnds : WordEnds rest) : WordEnds (rest ++ back) := by
  by_cases hRest : rest = []
  · subst hRest
    by_cases hBack : WordEnds back
    · exact hBack
    · refine absurd ⟨?_, hBack⟩ h.word
      rw [List.append_nil]
      exact (Lexeme.word word).after_between
  · exact hEnds.append hRest

end CleanCut

/- A text that ends with a mark may be cut off there. -/
theorem Spells.cleanCut
    {lexemes : List Lexeme}
    {sign : Mark}
    {text : List Char}
    (h : Spells (lexemes ++ [.mark sign]) text)
    (back : List Char) : CleanCut text back := by
  apply cleanCut_of_after
  rcases h.after_zone with hZone | hZone | hWord
  · exact .inl hZone
  · exact .inr hZone
  · rw [List.foldl_append] at hWord
    simp [Lexeme.isWord] at hWord

end ProtoSchema
