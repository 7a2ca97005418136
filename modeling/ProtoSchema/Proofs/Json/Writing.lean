import ProtoSchema.Proofs.Json.Value

/-
  Both written forms of a value consist of its tokens with
  blanks between them.

  Key definitions include:
    * `Json.IsScalar`
    * `Json.IsPlain`

  Main theorems:
    * `Json.spaced_compact`
    * `Json.spaced_pretty`
-/

namespace ProtoSchema

namespace Json

------------------------------------------------------------
-- Values with a Written Form
------------------------------------------------------------

/- A value that holds no other, and has a written form. -/
def IsScalar : Json → Prop
  | .null => True
  | .bool _ => True
  | .int value => InRange value
  | .str _ => True
  | _ => False

mutual

/-
  Whether both written forms give the value: all numbers in
  it are integers of 64 bits.
-/
def IsPlain : Json → Prop
  | .arr items => ItemsPlain items
  | .obj entries => EntriesPlain entries
  | scalar => scalar.IsScalar

def ItemsPlain : List Json → Prop
  | [] => True
  | item :: rest => item.IsPlain ∧ ItemsPlain rest

def EntriesPlain : List (String × Json) → Prop
  | [] => True
  | (_, value) :: rest => value.IsPlain ∧ EntriesPlain rest

end

------------------------------------------------------------
-- Written Tokens
------------------------------------------------------------

theorem Spaced.punctuation
    {c : Char}
    {token : Token}
    {tokens : List Token}
    {text : List Char}
    (hToken : punctuation? c = some token)
    (hRest : Spaced tokens text) :
    Spaced (token :: tokens) (c :: text) :=
  .token (.punctuation hToken) hRest

/- The written form of a text is one token. -/
theorem Spaced.quote
    {tokens : List Token}
    {text : List Char}
    (content : String)
    (hRest : Spaced tokens text) :
    Spaced (.text (some content) :: tokens)
      (Json.quote content ++ text) := by
  have hWritten :=
    Token.WrittenAs.text (quotes_escape content.toList)
  rw [String.ofList_toList] at hWritten
  exact .token hWritten hRest

/- The line of a depth begins with blanks. -/
theorem Spaced.newLine
    {tokens : List Token}
    {text : List Char}
    (depth : Nat)
    (hRest : Spaced tokens text) :
    Spaced tokens (Json.newLine depth ++ text) := by
  refine .blanks ?_ hRest
  intro c hMem
  rcases List.mem_cons.mp hMem with rfl | hSpace
  · decide
  · rw [List.eq_of_mem_replicate hSpace]
    decide

theorem spaced_writeScalar
    (json : Json)
    (hScalar : json.IsScalar)
    {tokens : List Token}
    {text : List Char}
    (hRest : Spaced tokens text) :
    Spaced (tokensOf json ++ tokens)
      (writeScalar json ++ text) := by
  cases json with
  | null => exact .token .null hRest
  | bool value =>
      cases value with
      | false => exact .token .no hRest
      | true => exact .token .yes hRest
  | int value => exact .token (.int hScalar) hRest
  | str content => exact hRest.quote content
  | real => exact absurd hScalar id
  | unusable => exact absurd hScalar id
  | arr _ => exact absurd hScalar id
  | obj _ => exact absurd hScalar id

------------------------------------------------------------
-- Values Without Blanks
------------------------------------------------------------

mutual

theorem spaced_writeCompact
    (json : Json)
    (hPlain : json.IsPlain)
    {tokens : List Token}
    {text : List Char}
    (hRest : Spaced tokens text) :
    Spaced (tokensOf json ++ tokens)
      (writeCompact json ++ text) := by
  cases json with
  | null => exact spaced_writeScalar .null hPlain hRest
  | bool value =>
      exact spaced_writeScalar (.bool value) hPlain hRest
  | int value =>
      exact spaced_writeScalar (.int value) hPlain hRest
  | real => exact spaced_writeScalar .real hPlain hRest
  | str content =>
      exact spaced_writeScalar (.str content) hPlain hRest
  | unusable =>
      exact spaced_writeScalar .unusable hPlain hRest
  | arr items =>
      cases items with
      | nil =>
          exact .punctuation rfl (.punctuation rfl hRest)
      | cons item more =>
          simp only [tokensOf, writeCompact,
            List.cons_append, List.append_assoc,
            List.nil_append]
          exact .punctuation rfl
            (spaced_writeCompact item hPlain.1
              (spaced_compactItems more hPlain.2
                (.punctuation rfl hRest)))
  | obj entries =>
      cases entries with
      | nil =>
          exact .punctuation rfl (.punctuation rfl hRest)
      | cons entry more =>
          rcases entry with ⟨key, value⟩
          have hClose :
              Spaced (.closeObject :: tokens)
                ('\x7d' :: text) :=
            .punctuation rfl hRest
          have hMore :=
            spaced_compactEntries more hPlain.2 hClose
          have hValue :=
            spaced_writeCompact value hPlain.1 hMore
          simp only [tokensOf, writeCompact,
            List.cons_append, List.append_assoc,
            List.nil_append]
          exact .punctuation rfl
            (.quote key (.punctuation rfl hValue))

theorem spaced_compactItems
    (items : List Json)
    (hPlain : ItemsPlain items)
    {tokens : List Token}
    {text : List Char}
    (hRest : Spaced tokens text) :
    Spaced (itemTokens items ++ tokens)
      (compactItems items ++ text) := by
  cases items with
  | nil => exact hRest
  | cons item more =>
      simp only [itemTokens, compactItems,
        List.cons_append, List.append_assoc]
      exact .punctuation rfl
        (spaced_writeCompact item hPlain.1
          (spaced_compactItems more hPlain.2 hRest))

theorem spaced_compactEntries
    (entries : List (String × Json))
    (hPlain : EntriesPlain entries)
    {tokens : List Token}
    {text : List Char}
    (hRest : Spaced tokens text) :
    Spaced (entryTokens entries ++ tokens)
      (compactEntries entries ++ text) := by
  cases entries with
  | nil => exact hRest
  | cons entry more =>
      rcases entry with ⟨key, value⟩
      have hMore :=
        spaced_compactEntries more hPlain.2 hRest
      have hValue :=
        spaced_writeCompact value hPlain.1 hMore
      simp only [entryTokens, compactEntries,
        List.cons_append, List.append_assoc]
      exact .punctuation rfl
        (.quote key (.punctuation rfl hValue))

end

------------------------------------------------------------
-- Values over Several Lines
------------------------------------------------------------

mutual

theorem spaced_writePretty
    (json : Json)
    (hPlain : json.IsPlain)
    (depth : Nat)
    {tokens : List Token}
    {text : List Char}
    (hRest : Spaced tokens text) :
    Spaced (tokensOf json ++ tokens)
      (writePretty depth json ++ text) := by
  cases json with
  | null => exact spaced_writeScalar .null hPlain hRest
  | bool value =>
      exact spaced_writeScalar (.bool value) hPlain hRest
  | int value =>
      exact spaced_writeScalar (.int value) hPlain hRest
  | real => exact spaced_writeScalar .real hPlain hRest
  | str content =>
      exact spaced_writeScalar (.str content) hPlain hRest
  | unusable =>
      exact spaced_writeScalar .unusable hPlain hRest
  | arr items =>
      cases items with
      | nil =>
          exact .punctuation rfl (.punctuation rfl hRest)
      | cons item more =>
          have hClose :
              Spaced (.closeList :: tokens)
                (newLine depth ++ ']' :: text) :=
            .newLine depth (.punctuation rfl hRest)
          simp only [tokensOf, writePretty,
            List.cons_append, List.append_assoc,
            List.nil_append]
          exact .punctuation rfl
            (.newLine (depth + 1)
              (spaced_writePretty item hPlain.1 (depth + 1)
                (spaced_prettyItems more hPlain.2
                  (depth + 1) hClose)))
  | obj entries =>
      cases entries with
      | nil =>
          exact .punctuation rfl (.punctuation rfl hRest)
      | cons entry more =>
          rcases entry with ⟨key, value⟩
          have hClose :
              Spaced (.closeObject :: tokens)
                (newLine depth ++ '\x7d' :: text) :=
            .newLine depth (.punctuation rfl hRest)
          have hMore :=
            spaced_prettyEntries more hPlain.2 (depth + 1)
              hClose
          have hValue :=
            spaced_writePretty value hPlain.1 (depth + 1)
              hMore
          simp only [tokensOf, writePretty,
            List.cons_append, List.append_assoc,
            List.nil_append]
          exact .punctuation rfl
            (.newLine (depth + 1)
              (.quote key
                (.punctuation rfl (.blank rfl hValue))))

theorem spaced_prettyItems
    (items : List Json)
    (hPlain : ItemsPlain items)
    (depth : Nat)
    {tokens : List Token}
    {text : List Char}
    (hRest : Spaced tokens text) :
    Spaced (itemTokens items ++ tokens)
      (prettyItems depth items ++ text) := by
  cases items with
  | nil => exact hRest
  | cons item more =>
      simp only [itemTokens, prettyItems,
        List.cons_append, List.append_assoc]
      exact .punctuation rfl
        (.newLine depth
          (spaced_writePretty item hPlain.1 depth
            (spaced_prettyItems more hPlain.2 depth
              hRest)))

theorem spaced_prettyEntries
    (entries : List (String × Json))
    (hPlain : EntriesPlain entries)
    (depth : Nat)
    {tokens : List Token}
    {text : List Char}
    (hRest : Spaced tokens text) :
    Spaced (entryTokens entries ++ tokens)
      (prettyEntries depth entries ++ text) := by
  cases entries with
  | nil => exact hRest
  | cons entry more =>
      rcases entry with ⟨key, value⟩
      have hMore :=
        spaced_prettyEntries more hPlain.2 depth hRest
      have hValue :=
        spaced_writePretty value hPlain.1 depth hMore
      simp only [entryTokens, prettyEntries,
        List.cons_append, List.append_assoc]
      exact .punctuation rfl
        (.newLine depth
          (.quote key (.punctuation rfl (.blank rfl hValue))))

end

------------------------------------------------------------
-- Whole Texts
------------------------------------------------------------

variable {json : Json}

theorem spaced_compact
    (hPlain : json.IsPlain) :
    Spaced (tokensOf json) json.compact.toList := by
  have hSpaced := spaced_writeCompact json hPlain .nil
  rw [List.append_nil, List.append_nil] at hSpaced
  rw [compact, String.toList_ofList]
  exact hSpaced

theorem spaced_pretty
    (hPlain : json.IsPlain) :
    Spaced (tokensOf json) json.pretty.toList := by
  have hSpaced := spaced_writePretty json hPlain 0 .nil
  rw [List.append_nil, List.append_nil] at hSpaced
  rw [pretty, String.toList_ofList]
  exact hSpaced

end Json

end ProtoSchema
