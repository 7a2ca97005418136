import ProtoSchema.Parser.Scan

/-
  Gaps: the blanks and line comments that stand before and
  after the words of a schema, apart from how they are
  skipped.

  Key definitions include:
    * `Gap`
    * `Ungapped`

  Main theorems:
    * `Gap.append`
    * `Gap.close`
    * `Parser.exists_gap_gapFrom`
    * `Parser.skipGap_eq_ok_iff`
-/

namespace ProtoSchema

------------------------------------------------------------
-- Gaps
------------------------------------------------------------

/-
  A sequence of blanks and line comments. A comment runs
  through the end of its line; only a gap that is `final`,
  at the end of the text, may end inside one.
-/
inductive Gap (final : Bool) : List Char → Prop where
  | empty : Gap final []
  | blank
      {c : Char}
      {rest : List Char}
      (hBlank : isBlank c = true)
      (hRest : Gap final rest) : Gap final (c :: rest)
  | comment
      {body rest : List Char}
      (hBody : '\n' ∉ body)
      (hRest : Gap final rest) :
      Gap final ('/' :: '/' :: (body ++ '\n' :: rest))
  | unfinished
      {body : List Char}
      (hFinal : final = true)
      (hBody : '\n' ∉ body) :
      Gap final ('/' :: '/' :: body)

namespace Gap

/- A gap may be followed by a further gap. -/
theorem append
    {final : Bool}
    {first rest : List Char}
    (hFirst : Gap false first)
    (hRest : Gap final rest) :
    Gap final (first ++ rest) := by
  induction hFirst with
  | empty => exact hRest
  | blank hBlank _ ih => exact .blank hBlank ih
  | @comment body gap hBody _ ih =>
      have hGap : Gap final
          ('/' :: '/' :: (body ++ '\n' :: (gap ++ rest))) :=
        .comment hBody ih
      simpa using hGap
  | unfinished hFinal _ => simp at hFinal

/- A gap in the middle of a text may stand at its end. -/
theorem ofInner
    {final : Bool}
    {gap : List Char}
    (hGap : Gap false gap) : Gap final gap := by
  have hEmpty : Gap final [] := .empty
  simpa using hGap.append hEmpty

/- The end of a line closes a gap. -/
theorem close
    {final : Bool}
    {gap : List Char}
    (hGap : Gap final gap) : Gap false (gap ++ ['\n']) := by
  induction hGap with
  | empty => exact .blank (by decide) .empty
  | blank hBlank _ ih => exact .blank hBlank ih
  | @comment body rest hBody _ ih =>
      have hRest : Gap false
          ('/' :: '/' ::
            (body ++ '\n' :: (rest ++ ['\n']))) :=
        .comment hBody ih
      simpa using hRest
  | unfinished _ hBody =>
      exact .comment hBody .empty

/- A comment may hold any character but the end of a line. -/
theorem comment_cons
    {final : Bool}
    {c : Char}
    {rest : List Char}
    (hChar : c ≠ '\n')
    (hGap : Gap final ('/' :: '/' :: rest)) :
    Gap final ('/' :: '/' :: c :: rest) := by
  cases hGap with
  | blank hBlank _ => simp [isBlank] at hBlank
  | @comment body tail hBody hRest =>
      have hBody' : '\n' ∉ c :: body := by
        simp [hChar.symm, hBody]
      have hComment : Gap final
          ('/' :: '/' :: ((c :: body) ++ '\n' :: tail)) :=
        .comment hBody' hRest
      exact hComment
  | unfinished hFinal hBody =>
      have hBody' : '\n' ∉ c :: rest := by
        simp [hChar.symm, hBody]
      exact .unfinished hFinal hBody'

/- A gap begins with a blank or a slash, if at all. -/
theorem head
    {final : Bool}
    {gap : List Char}
    (hGap : Gap final gap)
    {c : Char}
    (hHead : c ∈ gap.head?) :
    isBlank c = true ∨ c = '/' := by
  cases hGap with
  | empty => simp at hHead
  | blank hBlank _ =>
      simp only [List.head?_cons, Option.mem_some_iff]
        at hHead
      exact .inl (hHead ▸ hBlank)
  | comment _ _ =>
      simp only [List.head?_cons, Option.mem_some_iff]
        at hHead
      exact .inr hHead.symm
  | unfinished _ _ =>
      simp only [List.head?_cons, Option.mem_some_iff]
        at hHead
      exact .inr hHead.symm

end Gap

/- No gap stands at the front of the text. -/
def Ungapped (text : List Char) : Prop :=
  ∀ c ∈ text.head?, isBlank c = false ∧ c ≠ '/'

theorem ungapped_nil : Ungapped [] := by
  simp [Ungapped]

theorem ungapped_cons_iff
    {c : Char}
    {rest : List Char} :
    Ungapped (c :: rest) ↔ isBlank c = false ∧ c ≠ '/' := by
  simp [Ungapped]

instance : DecidablePred Ungapped
  | [] => isTrue ungapped_nil
  | _ :: _ => decidable_of_iff _ ungapped_cons_iff.symm

/- A gap in front of a text without one is empty. -/
theorem Gap.eq_nil
    {final : Bool}
    {gap rest : List Char}
    (hGap : Gap final gap)
    (hFront : Ungapped (gap ++ rest)) : gap = [] := by
  cases gap with
  | nil => rfl
  | cons c gap =>
      rcases ungapped_cons_iff.mp hFront with ⟨hBlank, hSlash⟩
      rcases hGap.head (c := c) rfl with h | h
      · rw [hBlank] at h
        contradiction
      · contradiction

theorem Gap.eq_nil_of_ungapped
    {final : Bool}
    {gap : List Char}
    (hGap : Gap final gap)
    (hFront : Ungapped gap) : gap = [] := by
  rw [← List.append_nil gap] at hFront
  exact hGap.eq_nil hFront

------------------------------------------------------------
-- Skipping Gaps
------------------------------------------------------------

namespace Parser

theorem gapFrom_blank
    {c : Char}
    (hBlank : isBlank c = true)
    (rest : List Char) :
    gapFrom false (c :: rest) = gapFrom false rest := by
  have hSlash : c ≠ '/' := by
    intro hEq
    subst hEq
    simp [isBlank] at hBlank
  rw [gapFrom.eq_4 _ _ (fun _ h _ => hSlash h), if_pos hBlank]

/- A comment that the end of a line closes. -/
theorem gapFrom_comment
    {body : List Char}
    (hBody : '\n' ∉ body)
    (rest : List Char) :
    gapFrom true (body ++ '\n' :: rest) =
      gapFrom false rest := by
  induction body with
  | nil => simp [gapFrom]
  | cons c body ih =>
      simp only [List.mem_cons, not_or] at hBody
      rcases hBody with ⟨hChar, hBody⟩
      simp [gapFrom, Ne.symm hChar, ih hBody]

/- A comment that nothing closes. -/
theorem gapFrom_unfinished
    {body : List Char}
    (hBody : '\n' ∉ body) :
    gapFrom true body = (0, []) := by
  induction body with
  | nil => rfl
  | cons c body ih =>
      simp only [List.mem_cons, not_or] at hBody
      rcases hBody with ⟨hChar, hBody⟩
      simp [gapFrom, Ne.symm hChar, ih hBody]

/- A gap in front of a text is passed over. -/
theorem gapFrom_gap_append
    {gap : List Char}
    (hGap : Gap false gap)
    (rest : List Char) :
    (gapFrom false (gap ++ rest)).2 =
      (gapFrom false rest).2 := by
  induction hGap with
  | empty => rfl
  | blank hBlank _ ih =>
      rw [List.cons_append, gapFrom_blank hBlank]
      exact ih
  | comment hBody _ ih =>
      simp only [List.cons_append, List.append_assoc,
        gapFrom, gapFrom_comment hBody]
      exact ih
  | unfinished hFinal _ => simp at hFinal

/- A gap at the end of the text is passed over whole. -/
theorem gapFrom_final
    {gap : List Char}
    (hGap : Gap true gap) : (gapFrom false gap).2 = [] := by
  induction hGap with
  | empty => rfl
  | blank hBlank _ ih =>
      rw [gapFrom_blank hBlank]
      exact ih
  | comment hBody _ ih =>
      simp only [gapFrom, gapFrom_comment hBody]
      exact ih
  | unfinished _ hBody =>
      simp [gapFrom, gapFrom_unfinished hBody]

/- Without a gap at the front, nothing is passed over. -/
theorem gapFrom_ungapped
    {text : List Char}
    (hFront : Ungapped text) :
    gapFrom false text = (0, text) := by
  cases text with
  | nil => rfl
  | cons c rest =>
      rcases ungapped_cons_iff.mp hFront with ⟨hBlank, hSlash⟩
      rw [gapFrom.eq_4 _ _ (fun _ h _ => hSlash h)]
      simp [hBlank]

/-
  What is passed over is a gap, also when the text begins
  inside a comment. It is final exactly at the end.
-/
theorem exists_gap_gapFrom
    (inComment : Bool)
    (text : List Char) :
    ∃ gap,
      text = gap ++ (gapFrom inComment text).2 ∧
        Gap (gapFrom inComment text).2.isEmpty
          (if inComment then '/' :: '/' :: gap else gap) := by
  fun_induction gapFrom inComment text with
  | case1 inComment =>
      refine ⟨[], rfl, ?_⟩
      cases inComment with
      | false => exact .empty
      | true => exact .unfinished rfl (by simp)
  | case2 c rest ih =>
      rcases ih with ⟨gap, hText, hGap⟩
      refine ⟨c :: gap, congrArg (c :: ·) hText, ?_⟩
      by_cases hChar : c = '\n'
      · subst hChar
        have hComment : Gap _
            ('/' :: '/' :: ([] ++ '\n' :: gap)) :=
          .comment (by simp) (by simpa using hGap)
        exact hComment
      · exact .comment_cons hChar (by simpa [hChar] using hGap)
  | case3 rest comments after hAfter ih =>
      rcases ih with ⟨gap, hText, hGap⟩
      rw [hAfter] at hText hGap
      exact ⟨'/' :: '/' :: gap, by simp [← hText],
        by simpa using hGap⟩
  | case4 c rest _ hBlank ih =>
      rcases ih with ⟨gap, hText, hGap⟩
      exact ⟨c :: gap, by simp [← hText],
        .blank hBlank (by simpa using hGap)⟩
  | case5 c rest _ hBlank =>
      exact ⟨[], rfl, .empty⟩

/- What remains does not begin with a blank. -/
theorem isBlank_gapFrom
    (inComment : Bool)
    (text : List Char) :
    ∀ c ∈ (gapFrom inComment text).2.head?,
      isBlank c = false := by
  fun_induction gapFrom inComment text with
  | case1 => simp
  | case2 c rest ih => exact ih
  | case3 rest comments after hAfter ih =>
      rw [hAfter] at ih
      exact ih
  | case4 c rest _ _ ih => exact ih
  | case5 c rest _ hBlank => simpa using hBlank

/- A gap before anything but a slash is skipped. -/
theorem skipGap_of_gapFrom
    {text rest : List Char}
    {comments : Nat}
    (hGap : gapFrom false text = (comments, rest))
    (hSlash : '/' ∉ rest.head?) :
    skipGap.run text = ⟨.ok comments, rest, []⟩ := by
  simp only [skipGap, hGap]
  split
  next tail h =>
    simp only [Prod.mk.injEq] at h
    simp [h.2] at hSlash
  next h =>
    simp only [Prod.mk.injEq] at h
    simp [h.1, h.2]

/- A slash that begins no comment is not skipped. -/
theorem skipGap_of_slash
    {text rest : List Char}
    {comments : Nat}
    (hGap : gapFrom false text = (comments, '/' :: rest)) :
    skipGap.run text =
      ⟨.error (.malformed .malformedComment),
        '/' :: rest, []⟩ := by
  simp [skipGap, hGap]

/-
  Skipping a gap succeeds exactly if none is left at the
  front of what remains, and what was skipped is one.
-/
theorem skipGap_eq_ok_iff
    {text rest : List Char} :
    (∃ comments, skipGap.run text = ⟨.ok comments, rest, []⟩) ↔
      Ungapped rest ∧
        ∃ gap, Gap rest.isEmpty gap ∧ text = gap ++ rest := by
  rcases hFrom : gapFrom false text with ⟨comments, after⟩
  constructor
  · intro h
    rcases h with ⟨count, hRun⟩
    have hAfter : after = rest := by
      have hRest := skipGap_rest text
      rw [hRun, hFrom] at hRest
      exact hRest.symm
    subst hAfter
    rcases exists_gap_gapFrom false text with ⟨gap, hText, hGap⟩
    have hBlank := isBlank_gapFrom false text
    rw [hFrom] at hText hGap hBlank
    refine ⟨fun c hHead => ⟨hBlank c hHead, ?_⟩,
      gap, hGap, hText⟩
    intro hEq
    subst hEq
    rcases List.head?_eq_some_iff.mp hHead with ⟨tail, rfl⟩
    rw [skipGap_of_slash hFrom] at hRun
    simp at hRun
  · intro h
    rcases h with ⟨hFront, gap, hGap, rfl⟩
    have hAfter : after = rest := by
      cases rest with
      | nil =>
          have hEnd := gapFrom_final hGap
          rw [List.append_nil] at hFrom
          rwa [hFrom] at hEnd
      | cons c rest =>
          have hRest := gapFrom_gap_append hGap (c :: rest)
          rw [hFrom, gapFrom_ungapped hFront] at hRest
          exact hRest
    subst hAfter
    exact ⟨comments, skipGap_of_gapFrom hFrom
      fun hHead => (hFront _ hHead).2 rfl⟩

end Parser

end ProtoSchema
