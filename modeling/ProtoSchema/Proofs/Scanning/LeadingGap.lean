import ProtoSchema.Proofs.Layout.Scanning

/-
  The gap at the front of a text, with the number of its
  comments. It is the longest gap there.

  Key definitions include:
    * `CountedGap`
    * `LeadingGap`

  Main theorems:
    * `LeadingGap.gapFrom_append`
    * `LeadingGap.longest`
    * `exists_leadingGap`
    * `LeadingGap.run_skipGap_bind`
-/

namespace ProtoSchema

------------------------------------------------------------
-- Counted Comments
------------------------------------------------------------

/- A gap, as in `Gap`, with the number of its comments. -/
inductive CountedGap
    (final : Bool) : Nat → List Char → Prop where
  | empty : CountedGap final 0 []
  | blank
      {c : Char}
      {comments : Nat}
      {rest : List Char}
      (hBlank : isBlank c = true)
      (hRest : CountedGap final comments rest) :
      CountedGap final comments (c :: rest)
  | comment
      {comments : Nat}
      {body rest : List Char}
      (hBody : '\n' ∉ body)
      (hRest : CountedGap final comments rest) :
      CountedGap final (comments + 1)
        ('/' :: '/' :: (body ++ '\n' :: rest))
  | unfinished
      {body : List Char}
      (hFinal : final = true)
      (hBody : '\n' ∉ body) :
      CountedGap final 1 ('/' :: '/' :: body)

namespace CountedGap

variable {final : Bool}
variable {comments : Nat}
variable {gap rest : List Char}

/- The count aside, it is a gap. -/
theorem toGap
    (hGap : CountedGap final comments gap) :
    Gap final gap := by
  induction hGap with
  | empty => exact .empty
  | blank hBlank _ ih => exact .blank hBlank ih
  | comment hBody _ ih => exact .comment hBody ih
  | unfinished hFinal hBody =>
      exact .unfinished hFinal hBody

/- A comment may hold any character but the end of a line. -/
theorem comment_cons
    {c : Char}
    (hChar : c ≠ '\n')
    (hGap : CountedGap final comments ('/' :: '/' :: rest)) :
    CountedGap final comments
      ('/' :: '/' :: c :: rest) := by
  cases hGap with
  | blank hBlank _ => simp [isBlank] at hBlank
  | @comment comments body tail hBody hRest =>
      have hBody' : '\n' ∉ c :: body := by
        simp [hChar.symm, hBody]
      exact .comment hBody' hRest
  | unfinished hFinal hBody =>
      have hBody' : '\n' ∉ c :: rest := by
        simp [hChar.symm, hBody]
      exact .unfinished hFinal hBody'

end CountedGap

/-
  The gap at the front of a text and what is left then: no
  blank, and no comment. A slash that begins no comment may
  be left. The gap ends inside a comment only where the text
  does.
-/
structure LeadingGap
    (comments : Nat)
    (gap rest : List Char) : Prop where
  counted : CountedGap rest.isEmpty comments gap
  noBlank : ∀ c ∈ rest.head?, isBlank c = false
  noComment : ¬ ['/', '/'] <+: rest

------------------------------------------------------------
-- The Front of a Text
------------------------------------------------------------

namespace Parser

/- Nothing is passed over where nothing begins a gap. -/
theorem gapFrom_stop
    {text : List Char}
    (hBlank : ∀ c ∈ text.head?, isBlank c = false)
    (hComment : ¬ ['/', '/'] <+: text) :
    gapFrom false text = (0, text) := by
  cases text with
  | nil => rfl
  | cons c rest =>
      have hSlashes :
          ∀ tail, c = '/' → rest = '/' :: tail → False := by
        rintro tail rfl rfl
        exact hComment ⟨tail, rfl⟩
      rw [gapFrom.eq_4 _ _ hSlashes, hBlank c rfl]
      rfl

/- What remains does not begin with a comment. -/
theorem not_comment_gapFrom
    (inComment : Bool)
    (text : List Char) :
    ¬ ['/', '/'] <+: (gapFrom inComment text).2 := by
  fun_induction gapFrom inComment text with
  | case1 => simp
  | case2 c rest ih => exact ih
  | case3 rest comments after hAfter ih =>
      rw [hAfter] at ih
      exact ih
  | case4 c rest _ _ ih => exact ih
  | case5 c rest hSlashes _ =>
      rintro ⟨tail, hText⟩
      rcases List.cons.inj hText with ⟨rfl, rfl⟩
      exact hSlashes tail rfl rfl

/-
  The comments that are counted are those of the gap that is
  passed over, also when the text begins inside one.
-/
theorem exists_countedGap_gapFrom
    (inComment : Bool)
    (text : List Char) :
    ∃ gap,
      text = gap ++ (gapFrom inComment text).2 ∧
        CountedGap (gapFrom inComment text).2.isEmpty
          ((gapFrom inComment text).1 +
            if inComment then 1 else 0)
          (if inComment then '/' :: '/' :: gap else gap) := by
  fun_induction gapFrom inComment text with
  | case1 inComment =>
      refine ⟨[], rfl, ?_⟩
      cases inComment with
      | false => exact .empty
      | true => exact .unfinished rfl (by simp)
  | case2 c rest ih =>
      rcases ih with ⟨gap, hText, hGap⟩
      refine ⟨c :: gap, congrArg (c :: ·) hText, ?_⟩
      by_cases hChar : c = '\n'
      · subst hChar
        have hComment : CountedGap _ _
            ('/' :: '/' :: ([] ++ '\n' :: gap)) :=
          .comment (by simp) (by simpa using hGap)
        exact hComment
      · exact .comment_cons hChar (by simpa [hChar] using hGap)
  | case3 rest comments after hAfter ih =>
      rcases ih with ⟨gap, hText, hGap⟩
      rw [hAfter] at hText hGap
      exact ⟨'/' :: '/' :: gap, by simp [← hText],
        by simpa using hGap⟩
  | case4 c rest _ hBlank ih =>
      rcases ih with ⟨gap, hText, hGap⟩
      exact ⟨c :: gap, by simp [← hText],
        .blank hBlank (by simpa using hGap)⟩
  | case5 c rest _ hBlank =>
      exact ⟨[], rfl, .empty⟩

end Parser

/- Every text begins with such a gap, if an empty one. -/
theorem exists_leadingGap (text : List Char) :
    ∃ comments gap rest,
      text = gap ++ rest ∧ LeadingGap comments gap rest := by
  rcases Parser.exists_countedGap_gapFrom false text with
    ⟨gap, hText, hGap⟩
  exact ⟨_, gap, _, hText, by simpa using hGap,
    Parser.isBlank_gapFrom false text,
    Parser.not_comment_gapFrom false text⟩

namespace LeadingGap

open ProtoSchema.Parser

variable {comments : Nat}
variable {gap rest : List Char}

/- The gap in front of a text is passed over and counted. -/
theorem gapFrom_append
    (hGap : LeadingGap comments gap rest) :
    gapFrom false (gap ++ rest) = (comments, rest) := by
  have hStop := gapFrom_stop hGap.noBlank hGap.noComment
  have hCounted := hGap.counted
  clear hGap
  generalize hFinal : rest.isEmpty = final at hCounted
  induction hCounted with
  | empty => exact hStop
  | blank hBlank _ ih =>
      rw [List.cons_append, gapFrom_blank hBlank]
      exact ih
  | comment hBody _ ih =>
      simp only [List.cons_append, List.append_assoc,
        gapFrom, gapFrom_comment hBody, ih]
  | unfinished hEnd hBody =>
      rw [hEnd, List.isEmpty_iff] at hFinal
      subst hFinal
      simp [gapFrom, gapFrom_unfinished hBody]

/- No gap at the front of the text reaches further. -/
theorem longest
    (hGap : LeadingGap comments gap rest)
    {other after : List Char}
    (hOther : Gap after.isEmpty other)
    (hText : gap ++ rest = other ++ after) :
    other <+: gap := by
  have hRest : rest <:+ after := by
    have hFrom : (gapFrom false (gap ++ rest)).2 = rest :=
      congrArg Prod.snd hGap.gapFrom_append
    rw [hText] at hFrom
    cases after with
    | nil =>
        rw [List.append_nil, gapFrom_final hOther] at hFrom
        exact hFrom ▸ List.suffix_refl []
    | cons c after =>
        rw [gapFrom_gap_append hOther] at hFrom
        rw [← hFrom]
        exact gapFrom_suffix false (c :: after)
  have hLength := congrArg List.length hText
  simp only [List.length_append] at hLength
  have hShorter := hRest.length_le
  exact List.prefix_of_prefix_length_le
    (List.prefix_append other after)
    (hText ▸ List.prefix_append gap rest) (by omega)

------------------------------------------------------------
-- Skipping the Gap
------------------------------------------------------------

section Skipping

variable {α : Type}
variable {next : Nat → Parser α}

/- What follows the gap is read on from there. -/
theorem run_skipGap_bind
    (hGap : LeadingGap comments gap rest)
    (hSlash : '/' ∉ rest.head?) :
    (skipGap >>= next).run (gap ++ rest) =
      (next comments).run rest := by
  rw [bind_of_ok
    (skipGap_of_gapFrom hGap.gapFrom_append hSlash)]
  rfl

/- A slash that is left is a malformed comment. -/
theorem run_skipGap_bind_slash
    (hGap : LeadingGap comments gap ('/' :: rest)) :
    (skipGap >>= next).run (gap ++ '/' :: rest) =
      ⟨.error (.malformed .malformedComment),
        '/' :: rest, []⟩ :=
  bind_of_error (skipGap_of_slash hGap.gapFrom_append)

end Skipping

end LeadingGap

end ProtoSchema
