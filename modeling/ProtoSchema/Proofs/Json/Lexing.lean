import Mathlib.Data.List.Chain
import ProtoSchema.Proofs.Json.Integer
import ProtoSchema.Proofs.Json.Quotation

/-
  A text with blanks anywhere between its tokens is read as
  these tokens, if no two bare words touch.

  Key definitions include:
    * `Json.Token.WrittenAs`
    * `Json.Spaced`
    * `Json.Apart`

  Main theorems:
    * `Json.tokens?_of_spaced`
-/

namespace ProtoSchema

namespace Json

------------------------------------------------------------
-- Written Tokens
------------------------------------------------------------

/-
  The ways to write a token. Integers that do not fit into
  64 bits and other numbers have none here.
-/
inductive Token.WrittenAs : Token → List Char → Prop where
  | punctuation
      {c : Char}
      {token : Token}
      (hToken : punctuation? c = some token) :
      WrittenAs token [c]
  | text
      {chars quoted : List Char}
      (hQuotes : Quotes chars quoted) :
      WrittenAs (.text (some (String.ofList chars)))
        ('"' :: quoted ++ ['"'])
  | null : WrittenAs (.scalar .null) "null".toList
  | yes : WrittenAs (.scalar (.bool true)) "true".toList
  | no : WrittenAs (.scalar (.bool false)) "false".toList
  | int
      {value : Int}
      (hRange : InRange value) :
      WrittenAs (.scalar (.int value))
        (Numeral.writeInt value)

/- Tokens written one after the other, between blanks. -/
inductive Spaced : List Token → List Char → Prop where
  | nil : Spaced [] []
  | blank
      {c : Char}
      {tokens : List Token}
      {text : List Char}
      (hBlank : isSpace c = true)
      (hRest : Spaced tokens text) :
      Spaced tokens (c :: text)
  | token
      {token : Token}
      {tokens : List Token}
      {written text : List Char}
      (hWritten : token.WrittenAs written)
      (hRest : Spaced tokens text) :
      Spaced (token :: tokens) (written ++ text)

theorem Spaced.blanks
    {blanks : List Char}
    {tokens : List Token}
    {text : List Char}
    (hBlanks : ∀ c ∈ blanks, isSpace c = true)
    (hRest : Spaced tokens text) :
    Spaced tokens (blanks ++ text) := by
  induction blanks with
  | nil => exact hRest
  | cons c rest ih =>
      refine .blank (hBlanks c List.mem_cons_self) (ih ?_)
      intro d hMem
      exact hBlanks d (List.mem_cons_of_mem c hMem)

/- A token that is written as one bare word. -/
def Token.IsBare : Token → Prop
  | .scalar _ => True
  | _ => False

/- Of two tokens that follow each other one is not bare. -/
def Apart (first second : Token) : Prop :=
  first.IsBare → ¬ second.IsBare

------------------------------------------------------------
-- Characters
------------------------------------------------------------

theorem isBare_of_isDigit
    {c : Char}
    (hDigit : c.isDigit = true) : isBare c = true := by
  simp [isBare, Char.isAlphanum, hDigit]

theorem isBare_of_mem_writeInt
    {value : Int}
    {c : Char}
    (hMem : c ∈ Numeral.writeInt value) :
    isBare c = true := by
  rcases mem_writeInt hMem with rfl | hDigit
  · decide
  · exact isBare_of_isDigit hDigit

theorem mem_of_isSpace
    {c : Char}
    (hBlank : isSpace c = true) :
    c ∈ [' ', '\t', '\n', '\r'] := by
  simpa [isSpace, or_assoc] using hBlank

theorem mem_of_punctuation
    {c : Char}
    {token : Token}
    (hToken : punctuation? c = some token) :
    c ∈ ['[', ']', '\x7b', '\x7d', ',', ':'] := by
  by_cases hMem : c ∈ ['[', ']', '\x7b', '\x7d', ',', ':']
  · exact hMem
  · simp only [List.mem_cons, List.not_mem_nil, or_false,
      not_or] at hMem
    simp [punctuation?, hMem] at hToken

/- Blanks, quotes and punctuation are in no bare word. -/
theorem not_isBare_of_isSpace
    {c : Char}
    (hBlank : isSpace c = true) : isBare c = false := by
  have hAll :
      [' ', '\t', '\n', '\r'].all (!isBare ·) = true := by
    decide
  simpa using
    List.all_eq_true.mp hAll c (mem_of_isSpace hBlank)

theorem not_isBare_of_punctuation
    {c : Char}
    {token : Token}
    (hToken : punctuation? c = some token) :
    isBare c = false := by
  have hAll :
      ['[', ']', '\x7b', '\x7d', ',', ':'].all
        (!isBare ·) = true := by
    decide
  simpa using
    List.all_eq_true.mp hAll c (mem_of_punctuation hToken)

/- Punctuation is neither a blank nor a quote. -/
theorem not_isSpace_of_punctuation
    {c : Char}
    {token : Token}
    (hToken : punctuation? c = some token) :
    isSpace c = false ∧ c ≠ '"' := by
  have hAll :
      ['[', ']', '\x7b', '\x7d', ',', ':'].all
        (fun d => !isSpace d && d != '"') = true := by
    decide
  simpa using
    List.all_eq_true.mp hAll c (mem_of_punctuation hToken)

------------------------------------------------------------
-- Reading One Token
------------------------------------------------------------

theorem tokens?_blank
    {c : Char}
    (hBlank : isSpace c = true)
    (text : List Char) :
    tokens? (c :: text) = tokens? text := by
  rw [tokens?, if_pos hBlank]

theorem tokens?_punctuation
    {c : Char}
    {token : Token}
    (hToken : punctuation? c = some token)
    (text : List Char) :
    tokens? (c :: text) =
      (tokens? text).map (token :: ·) := by
  rcases not_isSpace_of_punctuation hToken with
    ⟨hBlank, hQuote⟩
  have hBare := not_isBare_of_punctuation hToken
  rw [tokens?]
  simp only [hBlank, hQuote, hBare, hToken,
    Bool.false_eq_true, if_false, bind, Option.bind_some]
  rw [Option.map_eq_bind]
  rfl

theorem tokens?_quoted
    {chars quoted : List Char}
    (hQuotes : Quotes chars quoted)
    (text : List Char) :
    tokens? ('"' :: (quoted ++ '"' :: text)) =
      (tokens? text).map
        (.text (some (String.ofList chars)) :: ·) := by
  rcases hQuotes.exists_pieces text with
    ⟨pieces, hSplit, hJoin⟩
  rw [tokens?, if_neg (by decide), if_pos rfl]
  generalize splitQuoted? (quoted ++ '"' :: text) = result
    at hSplit ⊢
  subst hSplit
  simp only [hJoin, Option.map_some]
  exact Option.map_eq_bind.symm

/- A bare word ends before the first other character. -/
theorem tokens?_bare
    {word text : List Char}
    {value : Json}
    (hWord : word ≠ [])
    (hBare : ∀ c ∈ word, isBare c = true)
    (hValue : ofBare? word = some value)
    (hEnd : ∀ c ∈ text.head?, isBare c = false) :
    tokens? (word ++ text) =
      (tokens? text).map (.scalar value :: ·) := by
  cases word with
  | nil => exact absurd rfl hWord
  | cons c rest =>
      have hFirst := hBare c List.mem_cons_self
      have hRest : ∀ d ∈ rest, isBare d = true :=
        fun d hMem => hBare d (List.mem_cons_of_mem c hMem)
      have hBlank : ¬ isSpace c = true := by
        intro hBlank
        rw [not_isBare_of_isSpace hBlank] at hFirst
        exact nomatch hFirst
      have hQuote : c ≠ '"' := by
        rintro rfl
        exact nomatch hFirst
      have hStop : text.takeWhile isBare = [] ∧
          text.dropWhile isBare = text := by
        cases text with
        | nil => exact ⟨rfl, rfl⟩
        | cons d _ => simp [hEnd d rfl]
      rw [List.cons_append, tokens?, if_neg hBlank,
        if_neg hQuote, if_pos hFirst,
        List.takeWhile_append_of_pos hRest,
        List.dropWhile_append_of_pos hRest, hStop.1,
        hStop.2, List.append_nil, hValue,
        Option.map_eq_bind]
      rfl

/-
  A token is read as it is written. One that is a bare word
  must not touch another.
-/
theorem tokens?_written
    {token : Token}
    {written text : List Char}
    (hWritten : token.WrittenAs written)
    (hEnd :
      token.IsBare → ∀ c ∈ text.head?, isBare c = false) :
    tokens? (written ++ text) =
      (tokens? text).map (token :: ·) := by
  cases hWritten with
  | punctuation hToken => exact tokens?_punctuation hToken _
  | text hQuotes =>
      simp only [List.cons_append, List.append_assoc,
        List.nil_append]
      exact tokens?_quoted hQuotes _
  | null =>
      exact tokens?_bare (by decide)
        (List.all_eq_true.mp (by decide)) rfl
        (hEnd trivial)
  | yes =>
      exact tokens?_bare (by decide)
        (List.all_eq_true.mp (by decide)) rfl
        (hEnd trivial)
  | no =>
      exact tokens?_bare (by decide)
        (List.all_eq_true.mp (by decide)) rfl
        (hEnd trivial)
  | int hRange =>
      exact tokens?_bare (Numeral.writeInt_ne_nil _)
        (fun _ => isBare_of_mem_writeInt)
        (ofBare?_writeInt hRange) (hEnd trivial)

------------------------------------------------------------
-- Reading All Tokens
------------------------------------------------------------

/- Only a bare word begins with a character of one. -/
theorem Token.WrittenAs.head_not_bare
    {token : Token}
    {written : List Char}
    (hWritten : token.WrittenAs written)
    (hToken : ¬ token.IsBare)
    (text : List Char) :
    ∀ c ∈ (written ++ text).head?, isBare c = false := by
  cases hWritten with
  | punctuation hPunctuation =>
      rintro c ⟨⟩
      exact not_isBare_of_punctuation hPunctuation
  | text =>
      rintro c ⟨⟩
      decide
  | null => exact absurd trivial hToken
  | yes => exact absurd trivial hToken
  | no => exact absurd trivial hToken
  | int => exact absurd trivial hToken

theorem Spaced.head_not_bare
    {tokens : List Token}
    {text : List Char}
    (hSpaced : Spaced tokens text)
    (hHead : ∀ token ∈ tokens.head?, ¬ token.IsBare) :
    ∀ c ∈ text.head?, isBare c = false := by
  cases hSpaced with
  | nil => exact fun _ hMem => nomatch hMem
  | blank hBlank =>
      rintro c ⟨⟩
      exact not_isBare_of_isSpace hBlank
  | token hWritten =>
      exact hWritten.head_not_bare (hHead _ rfl) _

/- The tokens of a text that was written from them. -/
theorem tokens?_of_spaced
    {tokens : List Token}
    {text : List Char}
    (hSpaced : Spaced tokens text)
    (hApart : tokens.IsChain Apart) :
    tokens? text = some tokens := by
  induction hSpaced with
  | nil => rw [tokens?]
  | blank hBlank _ ih =>
      rw [tokens?_blank hBlank, ih hApart]
  | token hWritten hRest ih =>
      rcases List.isChain_cons.mp hApart with
        ⟨hNext, hTail⟩
      rw [tokens?_written hWritten, ih hTail,
        Option.map_some]
      intro hBare
      exact hRest.head_not_bare
        fun next hMem => hNext next hMem hBare

end Json

end ProtoSchema
