import ProtoSchema.Json.Reader
import ProtoSchema.Proofs.Json.Lexing

/-
  A value is read from its tokens, also from any text in
  which they stand between blanks.

  Key definitions include:
    * `Json.tokensOf`

  Main theorems:
    * `Json.readValue_tokensOf`
    * `Json.isChain_tokensOf`
    * `Json.read?_of_spaced`
-/

namespace ProtoSchema

namespace Json

------------------------------------------------------------
-- The Tokens of a Value
------------------------------------------------------------

mutual

/- The tokens of a value, in the order in which they stand. -/
def tokensOf : Json → List Token
  | .str text => [.text (some text)]
  | .arr [] => [.openList, .closeList]
  | .arr (item :: rest) =>
      .openList ::
        (tokensOf item ++ (itemTokens rest ++ [.closeList]))
  | .obj [] => [.openObject, .closeObject]
  | .obj ((key, value) :: rest) =>
      .openObject :: .text (some key) :: .colon ::
        (tokensOf value ++
          (entryTokens rest ++ [.closeObject]))
  | scalar => [.scalar scalar]

/- The tokens of the items after the first. -/
def itemTokens : List Json → List Token
  | [] => []
  | item :: rest =>
      .comma :: (tokensOf item ++ itemTokens rest)

/- The tokens of the entries after the first. -/
def entryTokens : List (String × Json) → List Token
  | [] => []
  | (key, value) :: rest =>
      .comma :: .text (some key) :: .colon ::
        (tokensOf value ++ entryTokens rest)

end

/- No value begins where a list ends. -/
theorem tokensOf_ne_closeList
    (json : Json)
    (rest more : List Token) :
    tokensOf json ++ rest ≠ .closeList :: more := by
  unfold tokensOf
  split
  all_goals simp

/- A value begins like an entry only if a colon follows it. -/
theorem tokensOf_ne_entry
    (json : Json)
    {rest : List Token}
    (hRest : rest.head? ≠ some .colon)
    (key : Option String)
    (more : List Token) :
    tokensOf json ++ rest ≠ .text key :: .colon :: more := by
  unfold tokensOf
  split
  · rintro hEq
    simp at hEq
    simp [hEq] at hRest
  all_goals simp

------------------------------------------------------------
-- Reading a Value
------------------------------------------------------------

/- An entry whose key denotes a text. -/
def known (entry : String × Json) : Option String × Json :=
  (some entry.1, entry.2)

theorem mapM_known
    {keyed? :
      Option String × Json → Option (String × Json)}
    (hKnown : ∀ entry, keyed? (known entry) = some entry)
    (entries : List (String × Json)) :
    (entries.map known).mapM keyed? = some entries := by
  induction entries with
  | nil => rfl
  | cons entry rest ih =>
      rw [List.map_cons, List.mapM_cons, hKnown, ih]
      rfl

theorem ofEntries_known (entries : List (String × Json)) :
    ofEntries (entries.map known) = .obj entries := by
  rw [ofEntries, mapM_known fun _ => rfl]

mutual

/- The tokens of a value are read as the value. -/
theorem readValue_tokensOf
    (json : Json)
    (stack : List Frame)
    (rest : List Token) :
    readValue stack (tokensOf json ++ rest) =
      readOn stack json rest := by
  cases json with
  | null => simp [tokensOf, readValue]
  | bool value => simp [tokensOf, readValue]
  | int value => simp [tokensOf, readValue]
  | real => simp [tokensOf, readValue]
  | unusable => simp [tokensOf, readValue]
  | str text => simp [tokensOf, readValue, ofText]
  | arr items =>
      cases items with
      | nil => simp [tokensOf, readValue]
      | cons item more =>
          simp only [tokensOf, List.cons_append,
            List.append_assoc, List.nil_append]
          rw [readValue, readValue_tokensOf item,
            readOn_itemTokens more]
          · rfl
          · exact tokensOf_ne_closeList item _
  | obj entries =>
      cases entries with
      | nil => simp [tokensOf, readValue]
      | cons entry more =>
          rcases entry with ⟨key, value⟩
          simp only [tokensOf, List.cons_append,
            List.append_assoc, List.nil_append]
          rw [readValue, readValue_tokensOf value,
            readOn_entryTokens more]
          exact congrArg (readOn stack · rest)
            (ofEntries_known ((key, value) :: more))

theorem readOn_itemTokens
    (items : List Json)
    (stack : List Frame)
    (before : List Json)
    (value : Json)
    (rest : List Token) :
    readOn (.list before :: stack) value
        (itemTokens items ++ .closeList :: rest) =
      readOn stack
        (.arr ((value :: before).reverse ++ items)) rest := by
  cases items with
  | nil =>
      simp only [itemTokens, List.nil_append,
        List.append_nil]
      rw [readOn]
  | cons item more =>
      have hTail :
          (itemTokens more ++ .closeList :: rest).head? ≠
            some .colon := by
        cases more <;> simp [itemTokens]
      simp only [itemTokens, List.cons_append,
        List.append_assoc]
      rw [readOn, readValue_tokensOf item,
        readOn_itemTokens more]
      · simp
      · exact tokensOf_ne_entry item hTail

theorem readOn_entryTokens
    (entries : List (String × Json))
    (stack : List Frame)
    (before : List (Option String × Json))
    (key : Option String)
    (value : Json)
    (rest : List Token) :
    readOn (.object before key :: stack) value
        (entryTokens entries ++ .closeObject :: rest) =
      readOn stack
        (ofEntries
          (((key, value) :: before).reverse ++
            entries.map known))
        rest := by
  cases entries with
  | nil =>
      simp only [entryTokens, List.nil_append,
        List.map_nil, List.append_nil]
      rw [readOn]
  | cons entry more =>
      rcases entry with ⟨nextKey, next⟩
      simp only [entryTokens, List.cons_append,
        List.append_assoc]
      rw [readOn, readValue_tokensOf next,
        readOn_entryTokens more]
      simp [known]

end

------------------------------------------------------------
-- Bare Tokens in a Value
------------------------------------------------------------

/- Tokens of which no bare ones touch, not bare at first. -/
def Guarded (tokens : List Token) : Prop :=
  tokens.IsChain Apart ∧
    ∀ token ∈ tokens.head?, ¬ token.IsBare

theorem Guarded.nil : Guarded [] :=
  ⟨.nil, fun _ hMem => nomatch hMem⟩

theorem Guarded.cons
    {token : Token}
    {rest : List Token}
    (hToken : ¬ token.IsBare)
    (hRest : rest.IsChain Apart) :
    Guarded (token :: rest) := by
  constructor
  · refine List.isChain_cons.mpr ⟨?_, hRest⟩
    exact fun _ _ hBare => absurd hBare hToken
  · rintro first ⟨⟩
    exact hToken

theorem Guarded.isChain_scalar
    {rest : List Token}
    (hRest : Guarded rest)
    (value : Json) :
    (.scalar value :: rest).IsChain Apart :=
  List.isChain_cons.mpr
    ⟨fun next hMem _ => hRest.2 next hMem, hRest.1⟩

theorem isChain_entry
    (key : String)
    {rest : List Token}
    (hRest : rest.IsChain Apart) :
    (.text (some key) :: .colon :: rest).IsChain Apart := by
  have hColon : Guarded (.colon :: rest) := .cons id hRest
  exact (Guarded.cons id hColon.1).1

mutual

/- In a value no two bare tokens touch. -/
theorem isChain_tokensOf
    (json : Json)
    {rest : List Token}
    (hRest : Guarded rest) :
    (tokensOf json ++ rest).IsChain Apart := by
  cases json with
  | null => exact hRest.isChain_scalar _
  | bool value => exact hRest.isChain_scalar _
  | int value => exact hRest.isChain_scalar _
  | real => exact hRest.isChain_scalar _
  | unusable => exact hRest.isChain_scalar _
  | str text => exact (Guarded.cons id hRest.1).1
  | arr items =>
      cases items with
      | nil =>
          have hClose : Guarded (.closeList :: rest) :=
            .cons id hRest.1
          exact (Guarded.cons id hClose.1).1
      | cons item more =>
          have hClose : Guarded (.closeList :: rest) :=
            .cons id hRest.1
          have hMore := guarded_itemTokens more hClose
          have hItem := isChain_tokensOf item hMore
          simp only [tokensOf, List.cons_append,
            List.append_assoc, List.nil_append]
          exact (Guarded.cons id hItem).1
  | obj entries =>
      cases entries with
      | nil =>
          have hClose : Guarded (.closeObject :: rest) :=
            .cons id hRest.1
          exact (Guarded.cons id hClose.1).1
      | cons entry more =>
          rcases entry with ⟨key, value⟩
          have hClose : Guarded (.closeObject :: rest) :=
            .cons id hRest.1
          have hMore := guarded_entryTokens more hClose
          have hValue := isChain_tokensOf value hMore
          simp only [tokensOf, List.cons_append,
            List.append_assoc, List.nil_append]
          exact (Guarded.cons id (isChain_entry key hValue)).1

theorem guarded_itemTokens
    (items : List Json)
    {rest : List Token}
    (hRest : Guarded rest) :
    Guarded (itemTokens items ++ rest) := by
  cases items with
  | nil => exact hRest
  | cons item more =>
      have hMore := guarded_itemTokens more hRest
      simp only [itemTokens, List.cons_append,
        List.append_assoc]
      exact .cons id (isChain_tokensOf item hMore)

theorem guarded_entryTokens
    (entries : List (String × Json))
    {rest : List Token}
    (hRest : Guarded rest) :
    Guarded (entryTokens entries ++ rest) := by
  cases entries with
  | nil => exact hRest
  | cons entry more =>
      rcases entry with ⟨key, value⟩
      have hMore := guarded_entryTokens more hRest
      have hValue := isChain_tokensOf value hMore
      simp only [entryTokens, List.cons_append,
        List.append_assoc]
      exact .cons id (isChain_entry key hValue)

end

/- A text with blanks between the tokens of a value. -/
theorem read?_of_spaced
    {json : Json}
    {text : String}
    (hSpaced : Spaced (tokensOf json) text.toList) :
    read? text = some json := by
  have hApart := isChain_tokensOf json Guarded.nil
  have hValue := readValue_tokensOf json [] []
  rw [List.append_nil] at hApart hValue
  have hTokens := tokens?_of_spaced hSpaced hApart
  simp [read?, hTokens, hValue, readOn]

end Json

end ProtoSchema
