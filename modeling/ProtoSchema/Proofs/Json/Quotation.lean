import ProtoSchema.Json.Token
import ProtoSchema.Json.Writer

/-
  Quoted text is read as the characters that it stands for,
  whichever of the ways to write them is taken. The written
  form of a text is one of them.

  Key definitions include:
    * `Json.Quotes`

  Main theorems:
    * `Json.Quotes.exists_pieces`
    * `Json.quotes_escape`
-/

namespace ProtoSchema

namespace Json

------------------------------------------------------------
-- Ways to Quote a Text
------------------------------------------------------------

/-
  The second text stands for the first between quotes. A
  character stands for itself, unless it is a quote, a
  backslash or a control character; some have a letter that
  stands for them behind a backslash; and every character
  has its number, as one unit of UTF-16 or as two.
-/
inductive Quotes : List Char → List Char → Prop where
  | nil : Quotes [] []
  | plain
      {c : Char}
      {chars text : List Char}
      (hQuote : c ≠ '"')
      (hBackslash : c ≠ '\\')
      (hControl : ¬ c < ' ')
      (hRest : Quotes chars text) :
      Quotes (c :: chars) (c :: text)
  | letter
      {letter c : Char}
      {chars text : List Char}
      (hLetter :
        (letter, c) ∈
          [('"', '"'), ('\\', '\\'), ('/', '/'),
            ('b', '\x08'), ('f', '\x0c'), ('n', '\n'),
            ('r', '\r'), ('t', '\t')])
      (hRest : Quotes chars text) :
      Quotes (c :: chars) ('\\' :: letter :: text)
  | unit
      {c u₁ u₂ u₃ u₄ : Char}
      {chars text : List Char}
      (hUnit : unit? u₁ u₂ u₃ u₄ = some c.toNat)
      (hRest : Quotes chars text) :
      Quotes (c :: chars)
        ('\\' :: 'u' :: u₁ :: u₂ :: u₃ :: u₄ :: text)
  | pair
      {c u₁ u₂ u₃ u₄ v₁ v₂ v₃ v₄ : Char}
      {high low : Nat}
      {chars text : List Char}
      (hHigh : unit? u₁ u₂ u₃ u₄ = some (0xD800 + high))
      (hLow : unit? v₁ v₂ v₃ v₄ = some (0xDC00 + low))
      (hHighRange : high < 0x400)
      (hLowRange : low < 0x400)
      (hChar : c.toNat = 0x10000 + high * 0x400 + low)
      (hRest : Quotes chars text) :
      Quotes (c :: chars)
        ('\\' :: 'u' :: u₁ :: u₂ :: u₃ :: u₄ ::
          '\\' :: 'u' :: v₁ :: v₂ :: v₃ :: v₄ :: text)

------------------------------------------------------------
-- Joining Pieces
------------------------------------------------------------

/- The number of a character is no half of a pair. -/
theorem not_surrogate (c : Char) :
    isHighSurrogate c.toNat = false ∧
      isLowSurrogate c.toNat = false := by
  have hValid : c.toNat < 0xD800 ∨
      (0xDFFF < c.toNat ∧ c.toNat < 0x110000) := c.valid
  constructor
  · simp only [isHighSurrogate, Bool.and_eq_false_iff,
      decide_eq_false_iff_not]
    omega
  · simp only [isLowSurrogate, Bool.and_eq_false_iff,
      decide_eq_false_iff_not]
    omega

/- A unit that is a character by itself. -/
theorem joinPieces?_unit
    (c : Char)
    (pieces : List Piece) :
    joinPieces? (.unit c.toNat :: pieces) =
      (joinPieces? pieces).map (c :: ·) := by
  rcases not_surrogate c with ⟨hHigh, hLow⟩
  rcases pieces with _ | ⟨d | value, rest⟩
  · simp [joinPieces?, hHigh, hLow]
  · simp only [joinPieces?, hHigh, hLow, Bool.or_self,
      Bool.false_eq_true, if_false, Char.ofNat_toNat]
    rw [Option.map_eq_bind]
    rfl
  · simp only [joinPieces?, hHigh, hLow,
      Bool.false_eq_true, if_false, Char.ofNat_toNat]
    rw [Option.map_eq_bind]
    rfl

/- Two units that are a character together. -/
theorem joinPieces?_pair
    {c : Char}
    {high low : Nat}
    (hHigh : high < 0x400)
    (hLow : low < 0x400)
    (hChar : c.toNat = 0x10000 + high * 0x400 + low)
    (pieces : List Piece) :
    joinPieces?
        (.unit (0xD800 + high) :: .unit (0xDC00 + low) ::
          pieces) =
      (joinPieces? pieces).map (c :: ·) := by
  have hFirst : isHighSurrogate (0xD800 + high) = true := by
    simp only [isHighSurrogate, Bool.and_eq_true,
      decide_eq_true_eq]
    omega
  have hSecond : isLowSurrogate (0xDC00 + low) = true := by
    simp only [isLowSurrogate, Bool.and_eq_true,
      decide_eq_true_eq]
    omega
  have hPaired :
      pairedChar (0xD800 + high) (0xDC00 + low) = c := by
    rw [pairedChar, Nat.add_sub_cancel_left,
      Nat.add_sub_cancel_left, ← hChar, Char.ofNat_toNat]
  simp only [joinPieces?, hFirst, hSecond, hPaired, if_true]
  rw [Option.map_eq_bind]
  rfl

------------------------------------------------------------
-- Splitting Quoted Text
------------------------------------------------------------

/- A character that stands for itself. -/
theorem splitQuoted?_plain
    {c : Char}
    (hQuote : c ≠ '"')
    (hBackslash : c ≠ '\\')
    (hControl : ¬ c < ' ')
    (text : List Char) :
    splitQuoted? (c :: text) =
      (splitQuoted? text).map fun (pieces, after) =>
        (.char c :: pieces, after) := by
  rw [splitQuoted?]
  · simp only [hBackslash, hControl, decide_false,
      Bool.or_self, Bool.false_eq_true, if_false]
    rw [Option.map_eq_bind]
    rfl
  · exact hQuote
  · intros
    exact hBackslash ‹_›
  · intros
    exact hBackslash ‹_›

/- A letter behind a backslash. -/
theorem splitQuoted?_letter
    {letter c : Char}
    (hUnit : letter ≠ 'u')
    (hLetter : unescape? letter = some c)
    (text : List Char) :
    splitQuoted? ('\\' :: letter :: text) =
      (splitQuoted? text).map fun (pieces, after) =>
        (.char c :: pieces, after) := by
  rw [splitQuoted?]
  · simp only [hLetter, bind, Option.bind_some]
    rw [Option.map_eq_bind]
    rfl
  · intros
    exact hUnit ‹_›

/- The number of a unit. -/
theorem splitQuoted?_unit
    {u₁ u₂ u₃ u₄ : Char}
    {value : Nat}
    (hUnit : unit? u₁ u₂ u₃ u₄ = some value)
    (text : List Char) :
    splitQuoted?
        ('\\' :: 'u' :: u₁ :: u₂ :: u₃ :: u₄ :: text) =
      (splitQuoted? text).map fun (pieces, after) =>
        (.unit value :: pieces, after) := by
  rw [splitQuoted?]
  simp only [hUnit, bind, Option.bind_some]
  rw [Option.map_eq_bind]
  rfl

theorem unescape?_of_letter
    {letter c : Char}
    (hLetter :
      (letter, c) ∈
        [('"', '"'), ('\\', '\\'), ('/', '/'),
          ('b', '\x08'), ('f', '\x0c'), ('n', '\n'),
          ('r', '\r'), ('t', '\t')]) :
    letter ≠ 'u' ∧ unescape? letter = some c := by
  simp only [List.mem_cons, Prod.mk.injEq,
    List.not_mem_nil, or_false] at hLetter
  rcases hLetter with ⟨rfl, rfl⟩ | ⟨rfl, rfl⟩ | ⟨rfl, rfl⟩ |
    ⟨rfl, rfl⟩ | ⟨rfl, rfl⟩ | ⟨rfl, rfl⟩ | ⟨rfl, rfl⟩ |
    ⟨rfl, rfl⟩
  all_goals exact ⟨by decide, rfl⟩

/-
  Quoted text is split at its closing quote, and its pieces
  are the text that it stands for.
-/
theorem Quotes.exists_pieces
    {chars text : List Char}
    (hQuotes : Quotes chars text)
    (rest : List Char) :
    ∃ pieces,
      splitQuoted? (text ++ '"' :: rest) =
          some (pieces, rest) ∧
        joinPieces? pieces = some chars := by
  induction hQuotes with
  | nil => exact ⟨[], by simp [splitQuoted?], rfl⟩
  | @plain c _ _ hQuote hBackslash hControl _ ih =>
      rcases ih with ⟨pieces, hSplit, hJoin⟩
      refine ⟨.char c :: pieces, ?_, ?_⟩
      · rw [List.cons_append,
          splitQuoted?_plain hQuote hBackslash hControl,
          hSplit]
        rfl
      · simp [joinPieces?, hJoin]
  | @letter _ c _ _ hLetter _ ih =>
      rcases ih with ⟨pieces, hSplit, hJoin⟩
      rcases unescape?_of_letter hLetter with ⟨hUnit, hChar⟩
      refine ⟨.char c :: pieces, ?_, ?_⟩
      · rw [List.cons_append, List.cons_append,
          splitQuoted?_letter hUnit hChar, hSplit]
        rfl
      · simp [joinPieces?, hJoin]
  | @unit c _ _ _ _ _ _ hUnit _ ih =>
      rcases ih with ⟨pieces, hSplit, hJoin⟩
      refine ⟨.unit c.toNat :: pieces, ?_, ?_⟩
      · simp only [List.cons_append,
          splitQuoted?_unit hUnit, hSplit, Option.map_some]
      · rw [joinPieces?_unit, hJoin]
        rfl
  | @pair _ _ _ _ _ _ _ _ _ high low _ _ hHigh hLow
      hHighRange hLowRange hChar _ ih =>
      rcases ih with ⟨pieces, hSplit, hJoin⟩
      refine ⟨.unit (0xD800 + high) ::
        .unit (0xDC00 + low) :: pieces, ?_, ?_⟩
      · simp only [List.cons_append,
          splitQuoted?_unit hHigh, splitQuoted?_unit hLow,
          hSplit, Option.map_some]
      · rw [joinPieces?_pair hHighRange hLowRange hChar,
          hJoin]
        rfl

------------------------------------------------------------
-- The Written Form
------------------------------------------------------------

/- The number of a control character, as it is written. -/
theorem unit?_hexByte
    {byte : Nat}
    (hControl : byte < 32) :
    unit? '0' '0' (Nat.digitChar (byte / 16))
        (Nat.digitChar (byte % 16)) =
      some byte := by
  have hAll : ∀ n, n < 32 →
      unit? '0' '0' (Nat.digitChar (n / 16))
          (Nat.digitChar (n % 16)) =
        some n := by
    decide
  exact hAll byte hControl

/- A character as it is written stands for itself. -/
theorem Quotes.escapeChar
    (c : Char)
    {chars text : List Char}
    (hRest : Quotes chars text) :
    Quotes (c :: chars) (Json.escapeChar c ++ text) := by
  unfold Json.escapeChar
  -- The seven characters that have a letter.
  iterate 7
    split
    next hEq =>
      subst hEq
      exact .letter (by decide) hRest
  split
  next hControl =>
    have hSmall : c.toNat < 32 := Char.lt_def.mp hControl
    exact .unit (unit?_hexByte hSmall) hRest
  next hQuote hBackslash _ _ _ _ _ hControl =>
    exact .plain hQuote hBackslash hControl hRest

/- The written form of a text stands for the text. -/
theorem quotes_escape (chars : List Char) :
    Quotes chars (chars.flatMap escapeChar) := by
  induction chars with
  | nil => exact .nil
  | cons c rest ih =>
      rw [List.flatMap_cons]
      exact Quotes.escapeChar c ih

end Json

end ProtoSchema
