import ProtoSchema.Proofs.Scanning.LeadingGap

/-
  What each request to a scanner reads and answers, stated
  as a split of the text that remains: what is consumed, and
  what is left. The scanner consumes exactly that, on
  success and on failure.

  Key definitions include:
    * `WordForm`
    * `Request`
    * `Answer`
    * `Request.parser`
    * `LeadingWord`
    * `Consumes`

  Main theorems:
    * `Consumes.run_parser`
    * `exists_consumes`
    * `Request.run_eq_iff_consumes`
-/

namespace ProtoSchema

------------------------------------------------------------
-- Requests
------------------------------------------------------------

/- What a word has to be. -/
inductive WordForm where
  | any
  | identifier
  | type
  | integer
deriving DecidableEq, Repr

/-
  What can be asked of a scanner. The texts say what is
  being read, and show in errors only.
-/
inductive Request where
  | skipBlanks
  | skipGap
  | peek
  | eat (c : Char)
  | expect
      (c : Char)
      (context : String)
  | nextWord
  | word
      (form : WordForm)
      (reading : String)
  | quoted (reading : String)
deriving DecidableEq, Repr

/- What a scanner answers to a request. -/
inductive Answer where
  | done
  | comments (count : Nat)
  | next (found : Option Char)
  | eaten (eaten : Bool)
  | word (found : Option String)
  | text (found : String)
  | number (found : Int64)
deriving DecidableEq, Repr

/- A parser whose value is handed on as an answer. -/
def Parser.answering
    {α : Type}
    (parser : Parser α)
    (answer : α → Answer) : Parser Answer where
  run text := (parser.run text).map answer

/- The parser of the words of a form. -/
def WordForm.parser
    (reading : String) : WordForm → Parser Answer
  | any => (Parser.readWord reading).answering .text
  | identifier =>
      (Parser.readIdentifier reading).answering .text
  | type => (Parser.readType reading).answering .text
  | integer =>
      (Parser.readInteger reading).answering .number

/- The parser that does what is asked. -/
def Request.parser : Request → Parser Answer
  | skipBlanks =>
      Parser.skipBlanks.answering fun _ => .done
  | skipGap => Parser.skipGap.answering .comments
  | peek => Parser.peek.answering .next
  | eat c => (Parser.eat c).answering .eaten
  | expect c context =>
      (Parser.expect c context).answering fun _ => .done
  | nextWord => Parser.nextWord.answering .word
  | word form reading => form.parser reading
  | quoted reading =>
      (Parser.readQuoted reading).answering .text

------------------------------------------------------------
-- Consumption
------------------------------------------------------------

/-
  The word stands at the front of the rest: a delimiter
  other than a slash, or a longest run of word characters.
-/
inductive LeadingWord :
    List Char → List Char → Prop where
  | delimiter
      {c : Char}
      {rest : List Char}
      (hChar : isDelimiter c = true)
      (hSlash : c ≠ '/') : LeadingWord [c] rest
  | bare
      {word rest : List Char}
      (hSome : word ≠ [])
      (hChars : ∀ c ∈ word, isWordChar c = true)
      (hEnds : WordEnds rest) : LeadingWord word rest

/- What a word is, or is not, as a word of the form. -/
def WordForm.judge
    (reading word : String) :
    WordForm → Except ParseError Answer
  | any => .ok (.text word)
  | identifier =>
      if isIdentifier word.toList then
        .ok (.text word)
      else
        .error (.malformed (.malformedWord reading word))
  | type =>
      if isTypeReference word.toList then
        .ok (.text word)
      else
        .error (.malformed (.malformedWord reading word))
  | integer =>
      match Numeral.read? word.toList with
      | some number => .ok (.number number)
      | none =>
          .error (.malformed (.notAnInteger reading word))

namespace Request

/- Whether a gap is passed over first. -/
def skipsGap : Request → Bool
  | skipBlanks => false
  | peek => false
  | eat _ => false
  | _ => true

/- The character that has to stand behind the gap. -/
def required? : Request → Option (Char × String)
  | expect c context => some (c, context)
  | quoted reading => some ('"', s!"to open {reading}")
  | _ => none

end Request

/-
  The request consumes the first text in front of the second
  and is answered so. Whatever fails behind the gap leaves
  the gap consumed; a word that is read is consumed also if
  it is refused, and a quotation without an end is consumed
  with the whole text.
-/
inductive Consumes :
    Request → List Char → List Char →
      Except ParseError Answer → Prop where
  | blanks
      {blanks rest : List Char}
      (hBlanks : ∀ c ∈ blanks, isBlank c = true)
      (hRest : ∀ c ∈ rest.head?, isBlank c = false) :
      Consumes .skipBlanks blanks rest (.ok .done)
  | peek
      {rest : List Char} :
      Consumes .peek [] rest (.ok (.next rest.head?))
  | eaten
      {c : Char}
      {rest : List Char} :
      Consumes (.eat c) [c] rest (.ok (.eaten true))
  | uneaten
      {c : Char}
      {rest : List Char}
      (hRest : c ∉ rest.head?) :
      Consumes (.eat c) [] rest (.ok (.eaten false))
  | malformedComment
      {request : Request}
      {comments : Nat}
      {gap rest : List Char}
      (hRequest : request.skipsGap = true)
      (hGap : LeadingGap comments gap ('/' :: rest)) :
      Consumes request gap ('/' :: rest)
        (.error (.malformed .malformedComment))
  | gap
      {comments : Nat}
      {gap rest : List Char}
      (hGap : LeadingGap comments gap rest)
      (hSlash : '/' ∉ rest.head?) :
      Consumes .skipGap gap rest (.ok (.comments comments))
  | missing
      {request : Request}
      {c : Char}
      {context : String}
      {comments : Nat}
      {gap : List Char}
      (hRequest : request.required? = some (c, context))
      (hGap : LeadingGap comments gap []) :
      Consumes request gap []
        (.error (.unexpectedEnd s!"'{c}' {context}"))
  | unexpected
      {request : Request}
      {c found : Char}
      {context : String}
      {comments : Nat}
      {gap rest : List Char}
      (hRequest : request.required? = some (c, context))
      (hGap : LeadingGap comments gap (found :: rest))
      (hSlash : found ≠ '/')
      (hFound : found ≠ c) :
      Consumes request gap (found :: rest)
        (.error
          (.malformed (.unexpectedChar c context found)))
  | expected
      {c : Char}
      {context : String}
      {comments : Nat}
      {gap rest : List Char}
      (hGap : LeadingGap comments gap (c :: rest))
      (hSlash : c ≠ '/') :
      Consumes (.expect c context) (gap ++ [c]) rest
        (.ok .done)
  | ended
      {comments : Nat}
      {gap : List Char}
      (hGap : LeadingGap comments gap []) :
      Consumes .nextWord gap [] (.ok (.word none))
  | nextWord
      {comments : Nat}
      {gap word rest : List Char}
      (hGap : LeadingGap comments gap (word ++ rest))
      (hWord : LeadingWord word rest) :
      Consumes .nextWord (gap ++ word) rest
        (.ok (.word (some (String.ofList word))))
  | wordMissing
      {form : WordForm}
      {reading : String}
      {comments : Nat}
      {gap : List Char}
      (hGap : LeadingGap comments gap []) :
      Consumes (.word form reading) gap []
        (.error (.unexpectedEnd reading))
  | word
      {form : WordForm}
      {reading : String}
      {comments : Nat}
      {gap word rest : List Char}
      (hGap : LeadingGap comments gap (word ++ rest))
      (hWord : LeadingWord word rest) :
      Consumes (.word form reading) (gap ++ word) rest
        (form.judge reading (String.ofList word))
  | unterminated
      {reading : String}
      {comments : Nat}
      {gap body : List Char}
      (hGap : LeadingGap comments gap ('"' :: body))
      (hBody : '"' ∉ body) :
      Consumes (.quoted reading) (gap ++ '"' :: body) []
        (.error (.unexpectedEnd reading))
  | quoted
      {reading : String}
      {comments : Nat}
      {gap body rest : List Char}
      (hGap : LeadingGap comments gap
        ('"' :: (body ++ '"' :: rest)))
      (hBody : '"' ∉ body) :
      Consumes (.quoted reading)
        (gap ++ '"' :: (body ++ ['"'])) rest
        (.ok (.text (String.ofList body)))

------------------------------------------------------------
-- Words
------------------------------------------------------------

namespace LeadingWord

variable {word rest : List Char}

/- A word at the front is taken whole. -/
theorem takeWord
    (hWord : LeadingWord word rest) :
    Parser.takeWord.run (word ++ rest) =
      ⟨.ok (some (String.ofList word)), rest, []⟩ := by
  cases hWord with
  | @delimiter c _ hChar _ =>
      exact Parser.takeWord_delimiter hChar rest
  | bare hSome hChars hEnds =>
      exact Parser.takeWord_bareWord ⟨word, hSome, hChars⟩
        hEnds

/- A word does not begin with a slash. -/
theorem not_slash
    (hWord : LeadingWord word rest) :
    '/' ∉ (word ++ rest).head? := by
  cases hWord with
  | delimiter _ hSlash => simpa using hSlash
  | bare hSome hChars _ =>
      cases word with
      | nil => contradiction
      | cons c word =>
          intro hHead
          simp only [List.cons_append, List.head?_cons,
            Option.mem_some_iff] at hHead
          subst hHead
          exact absurd (hChars _ List.mem_cons_self)
            (by decide)

/- Behind a gap a text is at its end or begins with a word. -/
theorem exists_of_ungapped
    {text : List Char}
    (hFront : Ungapped text)
    (hText : text ≠ []) :
    ∃ word rest, text = word ++ rest ∧
      LeadingWord word rest := by
  rcases hFront.cases with
    h | ⟨word, rest, rfl, hEnds⟩ | ⟨c, rest, rfl, hChar⟩
  · contradiction
  · exact ⟨word.chars, rest, rfl,
      .bare word.nonempty word.wordChars hEnds⟩
  · exact ⟨[c], rest, rfl,
      .delimiter hChar (ungapped_cons_iff.mp hFront).2⟩

end LeadingWord

------------------------------------------------------------
-- Running Requests
------------------------------------------------------------

open ProtoSchema.Parser

/- What follows in a sequence is what answers. -/
theorem Parser.bind_answering
    {α β : Type}
    (first : Parser α)
    (next : α → Parser β)
    (answer : β → Answer) :
    (first >>= next).answering answer =
      first >>= fun value => (next value).answering answer := by
  apply ext_run
  intro text
  rcases hFirst : first.run text with
    ⟨error | value, rest, records⟩
  · show ((first >>= next).run text).map answer = _
    rw [bind_of_error hFirst, bind_of_error hFirst]
    rfl
  · show ((first >>= next).run text).map answer = _
    rw [bind_of_ok hFirst, bind_of_ok hFirst]
    rfl

theorem Parser.answering_eq
    {α : Type}
    (parser : Parser α)
    (answer : α → Answer) :
    parser.answering answer =
      parser >>= fun value => pure (answer value) := by
  have hBind := bind_answering parser pure answer
  rw [bind_pure] at hBind
  exact hBind

/- A word of a form is a word that is judged. -/
theorem WordForm.parser_eq
    (form : WordForm)
    (reading : String) :
    form.parser reading =
      readWord reading >>= fun word =>
        ofExcept (form.judge reading word) := by
  cases form with
  | any => exact answering_eq _ _
  | identifier =>
      rw [WordForm.parser, readIdentifier, readWordOf,
        bind_answering]
      congr
      funext word
      simp only [judge]
      split <;> rfl
  | type =>
      rw [WordForm.parser, readType, readWordOf,
        bind_answering]
      congr
      funext word
      simp only [judge]
      split <;> rfl
  | integer =>
      rw [WordForm.parser, readInteger, bind_answering]
      congr
      funext word
      cases hRead : Numeral.read? word.toList <;>
        simp only [judge, hRead] <;> rfl

/- What is done behind the gap, of the comments in it. -/
def Request.behindGap
    (request : Request)
    (comments : Nat) : Parser Answer :=
  match request with
  | expect c context =>
      (require c context).answering fun _ => .done
  | nextWord => takeWord.answering .word
  | word form reading => do
      let word ← requireWord reading
      ofExcept (form.judge reading word)
  | quoted reading =>
      (require '"' s!"to open {reading}" >>= fun _ =>
        takeQuoted reading).answering .text
  | _ => pure (.comments comments)

theorem Request.parser_eq
    {request : Request}
    (hRequest : request.skipsGap = true) :
    request.parser =
      Parser.skipGap >>= request.behindGap := by
  cases request with
  | skipBlanks => simp [skipsGap] at hRequest
  | peek => simp [skipsGap] at hRequest
  | eat c => simp [skipsGap] at hRequest
  | skipGap => exact answering_eq _ _
  | expect c context => exact bind_answering _ _ _
  | nextWord => exact bind_answering _ _ _
  | word form reading =>
      rw [Request.parser, WordForm.parser_eq, readWord,
        Parser.bind_assoc]
      rfl
  | quoted reading =>
      rw [Request.parser, readQuoted, Parser.expect,
        Parser.bind_assoc, bind_answering]
      rfl

/- A character that has to stand behind the gap comes first. -/
theorem Request.exists_behindGap_eq
    {request : Request}
    {c : Char}
    {context : String}
    (hRequest : request.required? = some (c, context))
    (comments : Nat) :
    ∃ next : Unit → Parser Answer,
      request.behindGap comments =
        require c context >>= next := by
  cases request with
  | expect c context =>
      simp only [required?, Option.some.injEq,
        Prod.mk.injEq] at hRequest
      rcases hRequest with ⟨rfl, rfl⟩
      exact ⟨_, answering_eq _ _⟩
  | quoted reading =>
      simp only [required?, Option.some.injEq,
        Prod.mk.injEq] at hRequest
      rcases hRequest with ⟨rfl, rfl⟩
      exact ⟨_, bind_answering _ _ _⟩
  | _ => simp [required?] at hRequest

theorem Request.skipsGap_of_required
    {request : Request}
    {wanted : Char × String}
    (hRequest : request.required? = some wanted) :
    request.skipsGap = true := by
  cases request <;> simp [required?, skipsGap] at hRequest ⊢

/- Without a closing quote the text is read to its end. -/
theorem Parser.takeQuoted_unterminated
    {reading : String}
    {text : List Char}
    (hText : '"' ∉ text) :
    (takeQuoted reading).run text =
      ⟨.error (.unexpectedEnd reading), [], []⟩ := by
  have hPos : ∀ c ∈ text, decide (c ≠ '"') = true := by
    intro c hMem
    simp only [decide_eq_true_eq]
    rintro rfl
    exact hText hMem
  have hDrop : (text ++ []).dropWhile (· ≠ '"') = [] :=
    List.dropWhile_append_of_pos hPos
  rw [List.append_nil] at hDrop
  simp only [takeQuoted, hDrop]

/- What a request consumes is what its parser reads. -/
theorem Consumes.run_parser
    {request : Request}
    {consumed rest : List Char}
    {result : Except ParseError Answer}
    (h : Consumes request consumed rest result) :
    request.parser.run (consumed ++ rest) =
      ⟨result, rest, []⟩ := by
  cases h with
  | blanks hBlanks hRest =>
      have hDrop : rest.dropWhile isBlank = rest := by
        cases rest with
        | nil => rfl
        | cons c rest =>
            rw [List.dropWhile_cons, hRest c rfl]
            rfl
      show Outcome.map _ ⟨.ok (), _, []⟩ = _
      rw [List.dropWhile_append_of_pos hBlanks, hDrop]
      rfl
  | peek => rfl
  | @eaten c rest =>
      show Outcome.map _ ((eat c).run (c :: rest)) = _
      rw [eat]
      simp only [if_true]
      rfl
  | @uneaten c rest hRest =>
      show Outcome.map _ ((eat c).run rest) = _
      cases rest with
      | nil => rfl
      | cons found rest =>
          have hFound : found ≠ c := by simpa using hRest
          rw [eat]
          simp only [hFound, if_false]
          rfl
  | malformedComment hRequest hGap =>
      rw [Request.parser_eq hRequest]
      exact hGap.run_skipGap_bind_slash
  | gap hGap hSlash =>
      rw [Request.parser_eq rfl, hGap.run_skipGap_bind hSlash]
      rfl
  | missing hRequest hGap =>
      rcases Request.exists_behindGap_eq hRequest _ with
        ⟨next, hNext⟩
      rw [Request.parser_eq
          (Request.skipsGap_of_required hRequest),
        hGap.run_skipGap_bind (by simp), hNext]
      rfl
  | unexpected hRequest hGap hSlash hFound =>
      rcases Request.exists_behindGap_eq hRequest _ with
        ⟨next, hNext⟩
      rw [Request.parser_eq
          (Request.skipsGap_of_required hRequest),
        hGap.run_skipGap_bind (by simpa using hSlash), hNext]
      exact bind_of_error (require_of_ne hFound _ _)
  | @expected c context _ gap rest hGap hSlash =>
      rw [Request.parser_eq rfl, List.append_assoc,
        List.singleton_append,
        hGap.run_skipGap_bind (by simpa using hSlash)]
      show Outcome.map _ ((require c context).run _) = _
      rw [require_cons]
      rfl
  | ended hGap =>
      rw [Request.parser_eq rfl,
        hGap.run_skipGap_bind (by simp)]
      rfl
  | nextWord hGap hWord =>
      rw [Request.parser_eq rfl, List.append_assoc,
        hGap.run_skipGap_bind hWord.not_slash]
      show Outcome.map _ (takeWord.run _) = _
      rw [hWord.takeWord]
      rfl
  | wordMissing hGap =>
      rw [Request.parser_eq rfl,
        hGap.run_skipGap_bind (by simp)]
      rfl
  | @word form reading _ _ word _ hGap hWord =>
      rw [Request.parser_eq rfl, List.append_assoc,
        hGap.run_skipGap_bind hWord.not_slash]
      exact bind_of_ok
        (requireWord_of_takeWord reading hWord.takeWord)
  | @unterminated reading _ _ body hGap hBody =>
      rw [Request.parser_eq rfl, List.append_nil,
        hGap.run_skipGap_bind (by simp)]
      show Outcome.map _ ((require _ _ >>= fun _ =>
        takeQuoted reading).run _) = _
      rw [bind_of_ok (require_cons _ _ body),
        takeQuoted_unterminated hBody]
      rfl
  | @quoted reading _ _ body rest hGap hBody =>
      have hText : ∀ gap : List Char,
          gap ++ '"' :: (body ++ ['"']) ++ rest =
            gap ++ '"' :: (body ++ '"' :: rest) := by
        simp
      rw [Request.parser_eq rfl, hText,
        hGap.run_skipGap_bind (by simp)]
      show Outcome.map _ ((require _ _ >>= fun _ =>
        takeQuoted reading).run _) = _
      rw [bind_of_ok (require_cons _ _ _),
        takeQuoted_quotation reading ⟨body, hBody⟩ rest]
      rfl

------------------------------------------------------------
-- Totality
------------------------------------------------------------

/- Behind a gap that ends, each request has its answer. -/
theorem exists_consumes_end
    {request : Request}
    (hRequest : request.skipsGap = true)
    {comments : Nat}
    {gap : List Char}
    (hGap : LeadingGap comments gap []) :
    ∃ result, Consumes request gap [] result := by
  cases request with
  | skipBlanks => simp [Request.skipsGap] at hRequest
  | peek => simp [Request.skipsGap] at hRequest
  | eat c => simp [Request.skipsGap] at hRequest
  | skipGap => exact ⟨_, .gap hGap (by simp)⟩
  | expect c context => exact ⟨_, .missing rfl hGap⟩
  | nextWord => exact ⟨_, .ended hGap⟩
  | word form reading => exact ⟨_, .wordMissing hGap⟩
  | quoted reading => exact ⟨_, .missing rfl hGap⟩

/- So it has in front of any character but a slash. -/
theorem exists_consumes_cons
    {request : Request}
    (hRequest : request.skipsGap = true)
    {comments : Nat}
    {gap rest : List Char}
    {c : Char}
    (hGap : LeadingGap comments gap (c :: rest))
    (hSlash : c ≠ '/') :
    ∃ consumed after result,
      gap ++ c :: rest = consumed ++ after ∧
        Consumes request consumed after result := by
  have hFront : Ungapped (c :: rest) :=
    ungapped_cons_iff.mpr ⟨hGap.noBlank c rfl, hSlash⟩
  rcases LeadingWord.exists_of_ungapped hFront (by simp) with
    ⟨word, after, hText, hWord⟩
  cases request with
  | skipBlanks => simp [Request.skipsGap] at hRequest
  | peek => simp [Request.skipsGap] at hRequest
  | eat c => simp [Request.skipsGap] at hRequest
  | skipGap =>
      exact ⟨gap, _, _, rfl, .gap hGap (by simpa using hSlash)⟩
  | expect wanted context =>
      by_cases hFound : c = wanted
      · subst hFound
        exact ⟨gap ++ [c], rest, _, by simp,
          .expected hGap hSlash⟩
      · exact ⟨gap, _, _, rfl,
          .unexpected rfl hGap hSlash hFound⟩
  | nextWord =>
      rw [hText] at hGap
      exact ⟨gap ++ word, after, _, by simp [hText],
        .nextWord hGap hWord⟩
  | word form reading =>
      rw [hText] at hGap
      exact ⟨gap ++ word, after, _, by simp [hText],
        .word hGap hWord⟩
  | quoted reading =>
      by_cases hFound : c = '"'
      · subst hFound
        by_cases hQuote : '"' ∈ rest
        · rcases List.eq_append_cons_of_mem hQuote with
            ⟨body, tail, rfl, hBody⟩
          exact ⟨gap ++ '"' :: (body ++ ['"']), tail, _,
            by simp, .quoted hGap hBody⟩
        · exact ⟨gap ++ '"' :: rest, [], _, by simp,
            .unterminated hGap hQuote⟩
      · exact ⟨gap, _, _, rfl,
          .unexpected rfl hGap hSlash hFound⟩

/- Every request consumes some part of every text. -/
theorem exists_consumes
    (request : Request)
    (text : List Char) :
    ∃ consumed rest result,
      text = consumed ++ rest ∧
        Consumes request consumed rest result := by
  rcases exists_leadingGap text with
    ⟨comments, gap, rest, rfl, hGap⟩
  by_cases hRequest : request.skipsGap = true
  · cases rest with
    | nil =>
        rcases exists_consumes_end hRequest hGap with
          ⟨result, hConsumes⟩
        exact ⟨gap, [], result, rfl, hConsumes⟩
    | cons c rest =>
        by_cases hSlash : c = '/'
        · subst hSlash
          exact ⟨gap, _, _, rfl,
            .malformedComment hRequest hGap⟩
        · exact exists_consumes_cons hRequest hGap hSlash
  · generalize gap ++ rest = text
    cases request with
    | skipBlanks =>
        refine ⟨text.takeWhile isBlank,
          text.dropWhile isBlank, _, by simp,
          .blanks (List.all_eq_true.mp List.all_takeWhile) ?_⟩
        intro c hHead
        have hNot := List.head?_dropWhile_not isBlank text
        rw [Option.mem_def.mp hHead] at hNot
        simpa using hNot
    | peek => exact ⟨[], text, _, rfl, .peek⟩
    | eat c =>
        by_cases hHead : c ∈ text.head?
        · rcases List.head?_eq_some_iff.mp hHead with
            ⟨rest, rfl⟩
          exact ⟨[c], rest, _, rfl, .eaten⟩
        · exact ⟨[], text, _, rfl, .uneaten hHead⟩
    | _ => simp [Request.skipsGap] at hRequest

/-
  A parser reads and answers exactly what its request
  consumes.
-/
theorem Request.run_eq_iff_consumes
    {request : Request}
    {text rest : List Char}
    {result : Except ParseError Answer}
    {records : List Record} :
    request.parser.run text = ⟨result, rest, records⟩ ↔
      records = [] ∧
        ∃ consumed, text = consumed ++ rest ∧
          Consumes request consumed rest result := by
  constructor
  · intro hRun
    rcases exists_consumes request text with
      ⟨consumed, after, found, rfl, hConsumes⟩
    rw [hConsumes.run_parser, Outcome.mk.injEq] at hRun
    rcases hRun with ⟨rfl, rfl, rfl⟩
    exact ⟨rfl, consumed, rfl, hConsumes⟩
  · intro h
    rcases h with ⟨rfl, consumed, rfl, hConsumes⟩
    exact hConsumes.run_parser

end ProtoSchema
