import ProtoSchema.Proofs.Scanning.Bytes
import ProtoSchema.Proofs.Scanning.LeadingGap
import ProtoSchema.Proofs.Source.Delivery

/-
  Texts as the machine sees them: an ASCII character is a
  byte of its own, and no byte of another character looks
  like one. So a run of characters is a run of bytes, and
  the machine passes over the gap in front of a text whole.

  Key definitions include:
    * `Reflects`

  Main theorems:
    * `passWhile_encode`
    * `isBoundary_encode`
    * `slice?_encode`
    * `passGap_encode`
-/

namespace ProtoSchema

------------------------------------------------------------
-- Encoded Characters
------------------------------------------------------------

/- An ASCII character is encoded as itself. -/
theorem utf8Size_ascii
    {c : Char}
    (hAscii : c.toNat < 128) : c.utf8Size = 1 := by
  rw [Char.utf8Size_eq_one_iff, UInt32.le_iff_toNat_le]
  show c.toNat ≤ 127
  omega

theorem utf8EncodeChar_ascii
    {c : Char}
    (hAscii : c.toNat < 128) :
    String.utf8EncodeChar c = [c.toUInt8] :=
  String.utf8EncodeChar_eq_singleton (utf8Size_ascii hAscii)

/- The encoding of any other has no ASCII byte in it. -/
theorem le_of_mem_utf8EncodeChar
    {c : Char}
    {byte : UInt8}
    (hChar : 128 ≤ c.toNat)
    (hByte : byte ∈ String.utf8EncodeChar c) :
    128 ≤ byte.toNat := by
  have hNat : c.val.toNat = c.toNat := rfl
  unfold String.utf8EncodeChar at hByte
  simp only [hNat] at hByte
  split at hByte
  · omega
  split at hByte
  · simp only [List.mem_cons, List.not_mem_nil,
      or_false] at hByte
    rcases hByte with rfl | rfl <;> simp <;> omega
  split at hByte
  · simp only [List.mem_cons, List.not_mem_nil,
      or_false] at hByte
    rcases hByte with rfl | rfl | rfl <;> simp <;> omega
  · simp only [List.mem_cons, List.not_mem_nil,
      or_false] at hByte
    rcases hByte with rfl | rfl | rfl | rfl <;>
      simp <;> omega

/-
  The class of a byte is that of the character in whose
  encoding it stands, wherever it stands there.
-/
def Reflects
    (byteClass : UInt8 → Bool)
    (charClass : Char → Bool) : Prop :=
  ∀ c, ∀ byte ∈ String.utf8EncodeChar c,
    byteClass byte = charClass c

namespace Reflects

variable {p q : UInt8 → Bool}
variable {f g : Char → Bool}

/- An ASCII character is recognized by its byte. -/
theorem char
    {a : Char}
    (hAscii : a.toNat < 128) :
    Reflects (· = a.toUInt8) (· = a) := by
  intro c byte hByte
  have hNat : ∀ {d : Char}, d.toNat < 128 →
      d.toUInt8.toNat = d.toNat := by
    intro d hSmall
    show d.val.toNat % 256 = d.toNat
    exact Nat.mod_eq_of_lt (by
      show d.toNat < 256
      omega)
  by_cases hChar : c.toNat < 128
  · rw [utf8EncodeChar_ascii hChar,
      List.mem_singleton] at hByte
    subst hByte
    rw [decide_eq_decide]
    constructor
    · intro hEq
      have hSame := congrArg UInt8.toNat hEq
      rw [hNat hChar, hNat hAscii] at hSame
      exact Char.toNat_inj.mp hSame
    · rintro rfl
      rfl
  · have hLarge :=
      le_of_mem_utf8EncodeChar (by omega) hByte
    have hByteNe : byte ≠ a.toUInt8 := by
      rintro rfl
      rw [hNat hAscii] at hLarge
      omega
    have hCharNe : c ≠ a := by
      rintro rfl
      omega
    simp [hByteNe, hCharNe]

theorem or
    (hFirst : Reflects p f)
    (hSecond : Reflects q g) :
    Reflects (fun b => p b || q b)
      (fun c => f c || g c) := by
  intro c byte hByte
  simp only [hFirst c byte hByte, hSecond c byte hByte]

theorem and
    (hFirst : Reflects p f)
    (hSecond : Reflects q g) :
    Reflects (fun b => p b && q b)
      (fun c => f c && g c) := by
  intro c byte hByte
  simp only [hFirst c byte hByte, hSecond c byte hByte]

theorem not
    (hClass : Reflects p f) :
    Reflects (fun b => !p b) (fun c => !f c) := by
  intro c byte hByte
  simp only [hClass c byte hByte]

end Reflects

theorem reflects_isBlankByte :
    Reflects isBlankByte isBlank :=
  ((((Reflects.char (by decide)).or
    (.char (by decide))).or (.char (by decide))).or
      (.char (by decide))).or (.char (by decide))

theorem reflects_isDelimiterByte :
    Reflects isDelimiterByte isDelimiter :=
  (((((Reflects.char (by decide)).or
    (.char (by decide))).or (.char (by decide))).or
      (.char (by decide))).or (.char (by decide))).or
        (.char (by decide))

theorem reflects_isWordByte :
    Reflects isWordByte isWordChar :=
  reflects_isBlankByte.not.and reflects_isDelimiterByte.not

/- The same of all characters but one. -/
theorem reflects_ne
    {a : Char}
    (hAscii : a.toNat < 128) :
    Reflects (· ≠ a.toUInt8) (· ≠ a) := by
  intro c byte hByte
  have hChar := Reflects.char hAscii c byte hByte
  simpa using hChar

------------------------------------------------------------
-- Encoded Texts
------------------------------------------------------------

@[simp] theorem encode_nil : encode [] = [] := rfl

@[simp] theorem encode_append (first second : List Char) :
    encode (first ++ second) =
      encode first ++ encode second :=
  List.flatMap_append

theorem encode_cons
    (c : Char)
    (rest : List Char) :
    encode (c :: rest) =
      String.utf8EncodeChar c ++ encode rest :=
  rfl

/- The encoding has no bytes but those of the string. -/
theorem toByteArray_encode (text : List Char) :
    (encode text).toByteArray =
      (String.ofList text).toUTF8 := by
  rw [String.toUTF8_eq_toByteArray, String.toByteArray_ofList]
  rfl

theorem length_encode (text : List Char) :
    (encode text).length =
      (String.ofList text).utf8ByteSize := by
  rw [← List.size_toByteArray, toByteArray_encode,
    String.toUTF8_eq_toByteArray, String.size_toByteArray]

/- A run of characters is a run of bytes. -/
theorem takeWhile_encode
    {p : UInt8 → Bool}
    {f : Char → Bool}
    (hClass : Reflects p f)
    (text : List Char) :
    (encode text).takeWhile p =
      encode (text.takeWhile f) := by
  induction text with
  | nil => rfl
  | cons c rest ih =>
      rw [encode_cons]
      cases hChar : f c with
      | true =>
          have hPos : ∀ byte ∈ String.utf8EncodeChar c,
              p byte = true := by
            intro byte hByte
            rw [hClass c byte hByte, hChar]
          rw [List.takeWhile_append_of_pos hPos, ih,
            List.takeWhile_cons, hChar]
          rfl
      | false =>
          rw [List.takeWhile_cons, hChar]
          cases hBytes : String.utf8EncodeChar c with
          | nil =>
              exact absurd hBytes String.utf8EncodeChar_ne_nil
          | cons byte bytes =>
              have hByte : p byte = false := by
                rw [hClass c byte (by simp [hBytes]), hChar]
              simp [hByte]

theorem passWhile_eq
    {p : UInt8 → Bool}
    {bytes : List UInt8}
    {position : Nat} :
    passWhile p bytes position =
      position +
        ((bytes.drop position).takeWhile p).length := by
  fun_induction passWhile p bytes position with
  | case1 position hLength hByte ih =>
      rw [ih, List.drop_eq_getElem_cons hLength,
        List.takeWhile_cons, hByte]
      simp only [if_true, List.length_cons]
      omega
  | case2 position hLength hByte =>
      rw [List.drop_eq_getElem_cons hLength,
        List.takeWhile_cons]
      simp [hByte]
  | case3 position hLength =>
      rw [List.drop_eq_nil_of_le (by omega)]
      rfl

/- The machine passes over just the run of characters. -/
theorem passWhile_encode
    {p : UInt8 → Bool}
    {f : Char → Bool}
    (hClass : Reflects p f)
    (before text : List Char) :
    passWhile p (encode (before ++ text))
        (encode before).length =
      (encode (before ++ text.takeWhile f)).length := by
  rw [passWhile_eq, encode_append, List.drop_left,
    takeWhile_encode hClass]
  simp

/- It passes over what is free of a character, up to it. -/
theorem passWhile_ne_encode
    {a : Char}
    (hAscii : a.toNat < 128)
    (before : List Char)
    {body : List Char}
    (hBody : a ∉ body)
    (rest : List Char)
    (hRest : ∀ c ∈ rest.head?, c = a) :
    passWhile (· ≠ a.toUInt8)
        (encode (before ++ (body ++ rest)))
        (encode before).length =
      (encode (before ++ body)).length := by
  have hPos : ∀ c ∈ body, decide (c ≠ a) = true := by
    intro c hMem
    rw [decide_eq_true_eq]
    rintro rfl
    exact hBody hMem
  have hStop : rest.takeWhile (· ≠ a) = [] := by
    cases rest with
    | nil => rfl
    | cons c rest => simp [hRest c rfl]
  rw [passWhile_encode (reflects_ne hAscii),
    List.takeWhile_append_of_pos hPos, hStop,
    List.append_nil]

/- Where a text begins, its first character does. -/
theorem exists_head_encode
    (before : List Char)
    (c : Char)
    (rest : List Char) :
    ∃ byte ∈ String.utf8EncodeChar c,
      byte.IsUTF8FirstByte ∧
        (encode (before ++ c :: rest))[
          (encode before).length]? = some byte := by
  have hPos := List.length_pos_iff.mpr
    (String.utf8EncodeChar_ne_nil (c := c))
  refine ⟨_, List.getElem_mem hPos,
    UInt8.isUTF8FirstByte_getElem_zero_utf8EncodeChar, ?_⟩
  rw [encode_append, encode_cons,
    List.getElem?_append_right (Nat.le_refl _),
    Nat.sub_self, List.getElem?_append_left hPos,
    List.getElem?_eq_getElem hPos]

/- It shows in the first byte if it is an ASCII character. -/
theorem head_encode_iff
    {a : Char}
    (hAscii : a.toNat < 128)
    (before text : List Char) :
    (encode (before ++ text))[(encode before).length]? =
        some a.toUInt8 ↔
      a ∈ text.head? := by
  cases text with
  | nil => simp
  | cons c rest =>
      rcases exists_head_encode before c rest with
        ⟨byte, hByte, _, hHead⟩
      have hClass := Reflects.char hAscii c byte hByte
      rw [decide_eq_decide] at hClass
      rw [hHead]
      simpa using hClass

/- Nothing is encoded beyond the end of a text. -/
theorem lt_length_encode_iff
    (before text : List Char) :
    (encode before).length <
        (encode (before ++ text)).length ↔
      text ≠ [] := by
  cases text with
  | nil => simp
  | cons c rest =>
      have hPos := c.utf8Size_pos
      simp [encode_cons]
      omega

/- A character is as many bytes as its size says. -/
theorem length_encode_snoc
    (before : List Char)
    (c : Char) :
    (encode (before ++ [c])).length =
      (encode before).length + c.utf8Size := by
  simp [encode_cons]

theorem length_encode_snoc_ascii
    (before : List Char)
    {c : Char}
    (hAscii : c.toNat < 128) :
    (encode (before ++ [c])).length =
      (encode before).length + 1 := by
  rw [length_encode_snoc, utf8Size_ascii hAscii]

------------------------------------------------------------
-- Cuts
------------------------------------------------------------

/- A character ends where the encoding of a text does. -/
theorem isBoundary_encode
    (before after : List Char) :
    IsBoundary (encode (before ++ after))
      (encode before).length := by
  cases after with
  | nil => exact .inl (by simp)
  | cons c rest =>
      rcases exists_head_encode before c rest with
        ⟨byte, _, hFirst, hHead⟩
      exact .inr ⟨byte, hHead, hFirst⟩

/- A text can be cut out of any text in which it stands. -/
theorem slice?_encode
    (before text after : List Char) :
    slice? (encode (before ++ text ++ after))
        (encode before).length
        (encode (before ++ text)).length =
      some (String.ofList text) := by
  have hStart :
      IsBoundary (encode (before ++ text ++ after))
        (encode before).length := by
    rw [List.append_assoc]
    exact isBoundary_encode before (text ++ after)
  have hStop := isBoundary_encode (before ++ text) after
  have hBytes :
      ((encode (before ++ text ++ after)).take
          (encode (before ++ text)).length).drop
        (encode before).length = encode text := by
    rw [encode_append (before ++ text), List.take_left,
      encode_append, List.drop_left]
  have hText : decodeText (encode text) =
      .ok (String.ofList text) :=
    decodeText_eq_ok_iff.mpr (toByteArray_encode text).symm
  rw [slice?, if_pos ⟨by simp, hStart, hStop⟩, hBytes, hText]
  rfl

------------------------------------------------------------
-- Gaps
------------------------------------------------------------

/- Blanks in front are skipped before anything is looked at. -/
theorem passGap_congr
    {bytes : List UInt8}
    {position other : Nat}
    (hSame :
      passWhile isBlankByte bytes position =
        passWhile isBlankByte bytes other)
    (comments : Nat) :
    passGap bytes comments position =
      passGap bytes comments other := by
  rw [passGap, hSame, ← passGap]

/- No blank is passed over where none stands. -/
theorem passWhile_blank_stop
    (before : List Char)
    {text : List Char}
    (hText : ∀ c ∈ text.head?, isBlank c = false) :
    passWhile isBlankByte (encode (before ++ text))
        (encode before).length =
      (encode before).length := by
  rw [passWhile_encode reflects_isBlankByte]
  cases text with
  | nil => simp
  | cons c rest => simp [hText c rfl]

/- Where a gap ends, the machine stops or fails. -/
theorem passGap_stop
    (before : List Char)
    {text : List Char}
    (hBlank : ∀ c ∈ text.head?, isBlank c = false)
    (hComment : ¬ ['/', '/'] <+: text)
    (comments : Nat) :
    passGap (encode (before ++ text)) comments
        (encode before).length =
      (if '/' ∈ text.head? then
        .error (.malformed .malformedComment)
      else
        .ok comments,
        (encode before).length) := by
  have hFirst :=
    head_encode_iff (a := '/') (by decide) before text
  rw [passGap, passWhile_blank_stop before hBlank]
  by_cases hSlash : '/' ∈ text.head?
  · rcases List.head?_eq_some_iff.mp hSlash with
      ⟨rest, rfl⟩
    have hSecond : '/' ∉ rest.head? := by
      intro hHead
      rcases List.head?_eq_some_iff.mp hHead with
        ⟨tail, rfl⟩
      exact hComment ⟨tail, rfl⟩
    rw [← head_encode_iff (by decide) (before ++ ['/']),
      List.append_assoc, List.singleton_append,
      length_encode_snoc_ascii _ (by decide)] at hSecond
    rw [dif_pos (hFirst.mpr hSlash), if_neg hSecond,
      if_pos hSlash]
  · rw [dif_neg (not_congr hFirst |>.mpr hSlash), if_neg hSlash]

/- A comment is counted and passed over with its line. -/
theorem passGap_comment
    (before text : List Char)
    (comments : Nat) :
    passGap (encode (before ++ '/' :: '/' :: text)) comments
        (encode before).length =
      passGap (encode (before ++ '/' :: '/' :: text))
        (comments + 1)
        (passLine (encode (before ++ '/' :: '/' :: text))
          (encode (before ++ ['/', '/'])).length) := by
  have hBlank : ∀ c ∈ ('/' :: '/' :: text).head?,
      isBlank c = false := by
    rintro c ⟨⟩
    decide
  have hFirst :=
    (head_encode_iff (a := '/') (by decide) before
      ('/' :: '/' :: text)).mpr rfl
  have hSecond :=
    (head_encode_iff (a := '/') (by decide)
      (before ++ ['/']) ('/' :: text)).mpr rfl
  rw [List.append_assoc, List.singleton_append,
    length_encode_snoc_ascii _ (by decide)] at hSecond
  have hSlashes : (encode (before ++ ['/', '/'])).length =
      (encode before).length + 2 := by
    rw [encode_append, List.length_append]
    rfl
  rw [passGap, passWhile_blank_stop before hBlank,
    dif_pos hFirst, if_pos hSecond, hSlashes]

/- A line is passed over with its end. -/
theorem passLine_encode
    (before : List Char)
    {body : List Char}
    (hBody : '\n' ∉ body)
    (rest : List Char) :
    passLine (encode (before ++ (body ++ '\n' :: rest)))
        (encode before).length =
      (encode (before ++ (body ++ ['\n']))).length := by
  have hStop := passWhile_ne_encode (by decide) before hBody
    ('\n' :: rest) (by simp)
  have hMore :=
    (lt_length_encode_iff (before ++ body)
      ('\n' :: rest)).mpr (by simp)
  rw [List.append_assoc] at hMore
  rw [passLine, hStop, if_pos hMore, ← List.append_assoc,
    length_encode_snoc_ascii _ (by decide)]

/- The last line may have no end. -/
theorem passLine_encode_end
    (before : List Char)
    {body : List Char}
    (hBody : '\n' ∉ body) :
    passLine (encode (before ++ body))
        (encode before).length =
      (encode (before ++ body)).length := by
  have hStop := passWhile_ne_encode (by decide) before hBody
    [] (by simp)
  rw [List.append_nil] at hStop
  rw [passLine, hStop, if_neg (Nat.lt_irrefl _)]

/-
  The machine passes over the gap that is in front of a
  text, and counts its comments.
-/
theorem passGap_encode
    {comments : Nat}
    {gap rest : List Char}
    (hGap : LeadingGap comments gap rest)
    (before : List Char) :
    passGap (encode (before ++ (gap ++ rest))) 0
        (encode before).length =
      (if '/' ∈ rest.head? then
        .error (.malformed .malformedComment)
      else
        .ok comments,
        (encode (before ++ gap)).length) := by
  have hStop := fun before =>
    passGap_stop before hGap.noBlank hGap.noComment
  have hCounted := hGap.counted
  clear hGap
  suffices hAll : ∀ earlier,
      passGap (encode (before ++ (gap ++ rest))) earlier
          (encode before).length =
        (if '/' ∈ rest.head? then
          .error (.malformed .malformedComment)
        else
          .ok (earlier + comments),
          (encode (before ++ gap)).length) by
    simpa using hAll 0
  generalize hFinal : rest.isEmpty = final at hCounted
  -- The comments before are counted in each step, and the
  -- text before grows by what is passed over.
  induction hCounted generalizing before with
  | empty =>
      intro earlier
      simpa using hStop before earlier
  | @blank c comments gap hBlank _ ih =>
      intro earlier
      have hSkip : passWhile isBlankByte
            (encode (before ++ ([c] ++ (gap ++ rest))))
            (encode before).length =
          passWhile isBlankByte
            (encode (before ++ ([c] ++ (gap ++ rest))))
            (encode (before ++ [c])).length := by
        rw [passWhile_encode reflects_isBlankByte,
          ← List.append_assoc before,
          passWhile_encode reflects_isBlankByte]
        simp [hBlank]
      have hRest := ih (before ++ [c]) earlier
      simp only [List.append_assoc] at hRest
      exact (passGap_congr hSkip earlier).trans hRest
  | @comment comments body gap hBody _ ih =>
      intro earlier
      have hLine := passLine_encode (before ++ ['/', '/'])
        hBody (gap ++ rest)
      have hRest :=
        ih (before ++ '/' :: '/' :: (body ++ ['\n']))
          (earlier + 1)
      simp only [List.append_assoc, List.cons_append,
        List.nil_append] at hLine hRest ⊢
      rw [passGap_comment, hLine, hRest, Nat.add_assoc,
        Nat.add_comm 1]
  | @unfinished body hEnd hBody =>
      intro earlier
      rw [hEnd, List.isEmpty_iff] at hFinal
      subst hFinal
      have hLine :=
        passLine_encode_end (before ++ ['/', '/']) hBody
      have hLast :=
        hStop (before ++ '/' :: '/' :: body) (earlier + 1)
      simp only [List.append_assoc, List.cons_append,
        List.nil_append, List.append_nil] at hLine hLast ⊢
      rw [passGap_comment, hLine, hLast]

end ProtoSchema
