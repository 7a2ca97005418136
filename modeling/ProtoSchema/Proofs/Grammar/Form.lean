import ProtoSchema.Proofs.Layout.Lexeme
import ProtoSchema.Schema.Basic

/-
  The grammar of schemas over lexemes, and what each of its
  derivations denotes. It knows neither gaps nor the order
  in which a reader looks at the text.

  Key definitions include:
    * `BareWord.ofIdentifier`
    * `BareWord.ofTypeReference`
    * `keyword`
    * `Assignment`
    * `Entries`
    * `Block`
    * `MemberForm`
    * `MessageForm`
    * `FileForm`
    * `FieldForm`

  Main theorems:
    * `MemberForm.startsWithWord`
    * `memberForm_word_iff`
-/

namespace ProtoSchema

------------------------------------------------------------
-- Names as Bare Words
------------------------------------------------------------

theorem isWordChar_of_isIdentifierRest
    {c : Char}
    (hChar : isIdentifierRest c = true) :
    isWordChar c = true := by
  cases hBlank : isBlank c with
  | true =>
      simp only [isBlank, Bool.or_eq_true,
        decide_eq_true_eq] at hBlank
      rcases hBlank with
        (((rfl | rfl) | rfl) | rfl) | rfl <;>
        exact absurd hChar (by decide)
  | false =>
      cases hDelimiter : isDelimiter c with
      | true =>
          rcases isDelimiter_iff.mp hDelimiter with
            rfl | rfl | rfl | rfl | rfl | rfl <;>
            exact absurd hChar (by decide)
      | false => simp [isWordChar, hBlank, hDelimiter]

theorem isIdentifierRest_of_isIdentifierStart
    {c : Char}
    (hChar : isIdentifierStart c = true) :
    isIdentifierRest c = true := by
  simp only [isIdentifierStart, Bool.or_eq_true] at hChar
  simp only [isIdentifierRest, Char.isAlphanum,
    Bool.or_eq_true]
  rcases hChar with hAlpha | hUnderscore
  · exact .inl (.inl hAlpha)
  · exact .inr hUnderscore

/- Identifiers are not empty, and hold word characters only. -/
theorem isWordChar_of_isIdentifier
    {name : List Char}
    (hName : isIdentifier name = true) :
    name ≠ [] ∧ ∀ c ∈ name, isWordChar c = true := by
  cases name with
  | nil => simp [isIdentifier] at hName
  | cons first rest =>
      simp only [isIdentifier, Bool.and_eq_true,
        List.all_eq_true] at hName
      refine ⟨by simp, fun c hMem => ?_⟩
      apply isWordChar_of_isIdentifierRest
      rcases List.mem_cons.mp hMem with rfl | hRest
      · exact isIdentifierRest_of_isIdentifierStart hName.1
      · exact hName.2 c hRest

/- The bare word that an identifier is. -/
def BareWord.ofIdentifier
    (name : String)
    (hName : isIdentifier name.toList = true) : BareWord :=
  ⟨name.toList, (isWordChar_of_isIdentifier hName).1,
    (isWordChar_of_isIdentifier hName).2⟩

@[simp] theorem BareWord.text_ofIdentifier
    (name : String)
    (hName : isIdentifier name.toList = true) :
    (BareWord.ofIdentifier name hName).text = name :=
  String.ofList_toList

/- Identifiers with dots between them make a bare word. -/
theorem isWordChar_of_intercalate
    {parts : List (List Char)}
    (hParts : ∀ part ∈ parts, isIdentifier part = true)
    (hNonempty : parts ≠ []) :
    ['.'].intercalate parts ≠ [] ∧
      ∀ c ∈ ['.'].intercalate parts,
        isWordChar c = true := by
  induction parts with
  | nil => contradiction
  | cons part rest ih =>
      have hPart := isWordChar_of_isIdentifier
        (hParts part List.mem_cons_self)
      cases rest with
      | nil => simpa using hPart
      | cons next rest =>
          have hRest := ih
            (fun other hMem =>
              hParts other (List.mem_cons_of_mem part hMem))
            (List.cons_ne_nil _ _)
          rw [List.intercalate_cons_cons]
          refine ⟨by simp, fun c hMem => ?_⟩
          simp only [List.mem_append] at hMem
          rcases hMem with (hMem | hDot) | hMem
          · exact hPart.2 c hMem
          · rw [List.mem_singleton.mp hDot]
            decide
          · exact hRest.2 c hMem

theorem isWordChar_of_splitOn
    {word : List Char}
    (hParts :
      (word.splitOn '.').all isIdentifier = true) :
    word ≠ [] ∧ ∀ c ∈ word, isWordChar c = true := by
  have hWord := isWordChar_of_intercalate
    (List.all_eq_true.mp hParts)
    (List.splitOn_ne_nil '.' word)
  rwa [List.intercalate_splitOn] at hWord

/- Type references are bare words too. -/
theorem isWordChar_of_isTypeReference
    {type : List Char}
    (hType : isTypeReference type = true) :
    type ≠ [] ∧ ∀ c ∈ type, isWordChar c = true := by
  unfold isTypeReference at hType
  split at hType
  next rest =>
    refine ⟨List.cons_ne_nil _ _, fun c hMem => ?_⟩
    rcases List.mem_cons.mp hMem with rfl | hRest
    · decide
    · exact (isWordChar_of_splitOn hType).2 c hRest
  next => exact isWordChar_of_splitOn hType

/- The bare word that a type reference is. -/
def BareWord.ofTypeReference
    (type : String)
    (hType : isTypeReference type.toList = true) : BareWord :=
  ⟨type.toList, (isWordChar_of_isTypeReference hType).1,
    (isWordChar_of_isTypeReference hType).2⟩

@[simp] theorem BareWord.text_ofTypeReference
    (type : String)
    (hType : isTypeReference type.toList = true) :
    (BareWord.ofTypeReference type hType).text = type :=
  String.ofList_toList

@[simp] theorem BareWord.toList_text (word : BareWord) :
    word.text.toList = word.chars :=
  String.toList_ofList

/- A quotation is known by its text. -/
theorem Quotation.ext_text
    {left right : Quotation}
    (hText : left.text = right.text) : left = right := by
  have hChars := congrArg String.toList hText
  simp only [Quotation.text, String.toList_ofList] at hChars
  cases left
  cases right
  simpa using hChars

/- A bare word is known by its text. -/
theorem BareWord.ext_text
    {left right : BareWord}
    (hText : left.text = right.text) : left = right := by
  have hChars := congrArg String.toList hText
  simp only [BareWord.toList_text] at hChars
  cases left
  cases right
  simpa using hChars

------------------------------------------------------------
-- Words of the Grammar
------------------------------------------------------------

namespace Grammar

/- The lexeme of a keyword. -/
def keyword
    (name : String)
    (hName : isIdentifier name.toList = true) : Lexeme :=
  .word (.ofIdentifier name hName)

/-
  The words that begin another construct where the type of
  a field could stand in a message.
-/
def memberKeywords : List String :=
  ["enum", "oneof", "message", "repeated"]

/- The words that may not begin a field of a oneof. -/
def oneofKeywords : List String :=
  ["repeated", "enum", "oneof"]

/- The version that the syntax declaration has to name. -/
def proto3 : Quotation :=
  ⟨"proto3".toList, by decide⟩

theorem text_proto3 : proto3.text = "proto3" :=
  String.ofList_toList

/- The declaration that begins every file. -/
def syntaxDeclaration : List Lexeme :=
  [keyword "syntax" (by decide), .mark .equals,
    .quoted proto3, .mark .semicolon]

/- How the declaration is written on a line of its own. -/
theorem spells_syntaxDeclaration
    {items : List Lexeme}
    {text : List Char}
    (h : Spells items text) :
    Spells (syntaxDeclaration ++ items)
      ("syntax = \"proto3\";".toList ++ text) := by
  have hVersion :=
    (h.mark_cons .semicolon).quoted_append proto3
  have hEquals :=
    (hVersion.blank_cons (c := ' ') (by decide)).mark_cons
      .equals
  have hChars :
      "syntax = \"proto3\";".toList ++ text =
        "syntax".toList ++ ' ' :: '=' :: ' ' :: '"' ::
          ("proto3".toList ++ '"' :: ';' :: text) := by
    simp
  rw [hChars]
  exact hEquals.spaced_append
    (.ofIdentifier "syntax" (by decide))

------------------------------------------------------------
-- Forms
------------------------------------------------------------

/- A name, an equals sign, an integer and a semicolon. -/
inductive Assignment :
    List Lexeme → String → Int64 → Prop where
  | intro
      {name digits : BareWord}
      {value : Int64}
      (hName : isIdentifier name.chars = true)
      (hValue : Numeral.read? digits.chars = some value) :
      Assignment
        [.word name, .mark .equals, .word digits,
          .mark .semicolon]
        name.text value

/-
  Any number of entries, with stray semicolons before,
  between and after them.
-/
inductive Entries
    {α : Type}
    (form : List Lexeme → α → Prop) :
    List Lexeme → List α → Prop where
  | nil : Entries form [] []
  | stray
      {lexemes : List Lexeme}
      {entries : List α}
      (hRest : Entries form lexemes entries) :
      Entries form (.mark .semicolon :: lexemes) entries
  | entry
      {first rest : List Lexeme}
      {value : α}
      {entries : List α}
      (hFirst : form first value)
      (hRest : Entries form rest entries) :
      Entries form (first ++ rest) (value :: entries)

/- A name, and entries in braces. -/
inductive Block
    {α : Type}
    (form : List Lexeme → α → Prop) :
    List Lexeme → String → List α → Prop where
  | intro
      {name : BareWord}
      {body : List Lexeme}
      {entries : List α}
      (hName : isIdentifier name.chars = true)
      (hBody : Entries form body entries) :
      Block form
        (.word name :: .mark .openBrace ::
          (body ++ [.mark .closeBrace]))
        name.text entries

/- A constant of an enum. -/
inductive EnumValueForm :
    List Lexeme → EnumValue → Prop where
  | intro
      {lexemes : List Lexeme}
      {name : String}
      {value : Int64}
      (hRest : Assignment lexemes name value) :
      EnumValueForm lexemes ⟨name, value⟩

/- A field of a oneof. -/
inductive AlternativeForm :
    List Lexeme → Field → Prop where
  | intro
      {type : BareWord}
      {lexemes : List Lexeme}
      {name : String}
      {number : Int64}
      (hType : isTypeReference type.chars = true)
      (hAllowed : type.text ∉ oneofKeywords)
      (hRest : Assignment lexemes name number) :
      AlternativeForm (.word type :: lexemes)
        ⟨name, type.text, number, false⟩

/- A member of a message. -/
inductive MemberForm : List Lexeme → Member → Prop where
  | field
      {type : BareWord}
      {lexemes : List Lexeme}
      {name : String}
      {number : Int64}
      (hType : isTypeReference type.chars = true)
      (hAllowed : type.text ∉ memberKeywords)
      (hRest : Assignment lexemes name number) :
      MemberForm (.word type :: lexemes)
        (.field ⟨name, type.text, number, false⟩)
  | repeated
      {type : BareWord}
      {lexemes : List Lexeme}
      {name : String}
      {number : Int64}
      (hType : isTypeReference type.chars = true)
      (hRest : Assignment lexemes name number) :
      MemberForm
        (keyword "repeated" (by decide) ::
          .word type :: lexemes)
        (.field ⟨name, type.text, number, true⟩)
  | enum
      {lexemes : List Lexeme}
      {name : String}
      {values : List EnumValue}
      (hBlock : Block EnumValueForm lexemes name values) :
      MemberForm (keyword "enum" (by decide) :: lexemes)
        (.enum ⟨name, values⟩)
  | oneof
      {lexemes : List Lexeme}
      {name : String}
      {fields : List Field}
      (hBlock : Block AlternativeForm lexemes name fields) :
      MemberForm (keyword "oneof" (by decide) :: lexemes)
        (.oneof ⟨name, fields⟩)

/- A message. -/
inductive MessageForm : List Lexeme → Message → Prop where
  | intro
      {lexemes : List Lexeme}
      {name : String}
      {members : List Member}
      (hBlock : Block MemberForm lexemes name members) :
      MessageForm (keyword "message" (by decide) :: lexemes)
        ⟨name, members⟩

/- The syntax declaration, and messages after it. -/
inductive FileForm : List Lexeme → SchemaFile → Prop where
  | intro
      {items : List Lexeme}
      {messages : List Message}
      (hItems : Entries MessageForm items messages) :
      FileForm (syntaxDeclaration ++ items)
        ⟨some .proto3, messages⟩

------------------------------------------------------------
-- First Lexemes
------------------------------------------------------------

/- The lexemes begin with a bare word. -/
def StartsWithWord (lexemes : List Lexeme) : Prop :=
  ∃ word rest, lexemes = .word word :: rest

theorem EnumValueForm.startsWithWord
    {lexemes : List Lexeme}
    {value : EnumValue}
    (h : EnumValueForm lexemes value) :
    StartsWithWord lexemes := by
  cases h with
  | intro hRest =>
      cases hRest with
      | intro _ _ => exact ⟨_, _, rfl⟩

theorem AlternativeForm.startsWithWord
    {lexemes : List Lexeme}
    {field : Field}
    (h : AlternativeForm lexemes field) :
    StartsWithWord lexemes := by
  cases h with
  | intro _ _ _ => exact ⟨_, _, rfl⟩

theorem MemberForm.startsWithWord
    {lexemes : List Lexeme}
    {member : Member}
    (h : MemberForm lexemes member) :
    StartsWithWord lexemes := by
  cases h with
  | field _ _ _ => exact ⟨_, _, rfl⟩
  | repeated _ _ => exact ⟨_, _, rfl⟩
  | enum _ => exact ⟨_, _, rfl⟩
  | oneof _ => exact ⟨_, _, rfl⟩

------------------------------------------------------------
-- Members by Their First Word
------------------------------------------------------------

/- A bare word with the text of a keyword is the keyword. -/
theorem word_eq_keyword
    {word : BareWord}
    {name : String}
    (hText : word.text = name)
    (hName : isIdentifier name.toList = true) :
    .word word = keyword name hName := by
  have hWord : word = .ofIdentifier name hName :=
    BareWord.ext_text (by simpa using hText)
  rw [hWord]
  rfl

theorem text_of_word_eq_keyword
    {word : BareWord}
    {name : String}
    {hName : isIdentifier name.toList = true}
    (hWord : Lexeme.word word = keyword name hName) :
    word.text = name := by
  rw [Lexeme.word.inj hWord, BareWord.text_ofIdentifier]

/- A field behind its type. -/
def FieldForm
    (type : String)
    (repeated : Bool)
    (lexemes : List Lexeme)
    (field : Field) : Prop :=
  ∃ name number,
    Assignment lexemes name number ∧
      field = ⟨name, type, number, repeated⟩

section FirstWord

variable {word : BareWord}
variable {lexemes : List Lexeme}
variable {member : Member}

/- What a member is, by the word that it begins with. -/
theorem memberForm_word_iff :
    MemberForm (.word word :: lexemes) member ↔
      (word.text = "enum" ∧
          ∃ enum : Enum,
            Block EnumValueForm lexemes enum.name
                enum.values ∧
              member = .enum enum) ∨
        (word.text = "oneof" ∧
          ∃ oneof : Oneof,
            Block AlternativeForm lexemes oneof.name
                oneof.fields ∧
              member = .oneof oneof) ∨
        (word.text = "repeated" ∧
          ∃ type after,
            (isTypeReference type.chars = true ∧
              ∃ field,
                FieldForm type.text true after field ∧
                  member = .field field) ∧
              lexemes = .word type :: after) ∨
        (word.text ∉ memberKeywords ∧
          isTypeReference word.chars = true ∧
            ∃ field,
              FieldForm word.text false lexemes field ∧
                member = .field field) := by
  constructor
  · intro h
    generalize hLexemes : Lexeme.word word :: lexemes = all
      at h
    cases h with
    | field hType hAllowed hRest =>
        simp only [List.cons.injEq, Lexeme.word.injEq]
          at hLexemes
        rcases hLexemes with ⟨rfl, rfl⟩
        exact .inr (.inr (.inr
          ⟨hAllowed, hType, _, ⟨_, _, hRest, rfl⟩, rfl⟩))
    | repeated hType hRest =>
        rcases List.cons.inj hLexemes with ⟨hWord, rfl⟩
        exact .inr (.inr (.inl
          ⟨text_of_word_eq_keyword hWord, _, _,
            ⟨hType, _, ⟨_, _, hRest, rfl⟩, rfl⟩, rfl⟩))
    | enum hBlock =>
        rcases List.cons.inj hLexemes with ⟨hWord, rfl⟩
        exact .inl
          ⟨text_of_word_eq_keyword hWord, _, hBlock, rfl⟩
    | oneof hBlock =>
        rcases List.cons.inj hLexemes with ⟨hWord, rfl⟩
        exact .inr (.inl
          ⟨text_of_word_eq_keyword hWord, _, hBlock, rfl⟩)
  · intro h
    rcases h with
      ⟨hText, enum, hBlock, rfl⟩ |
      ⟨hText, oneof, hBlock, rfl⟩ |
      ⟨hText, type, after, ⟨hType, _,
        ⟨name, number, hRest, rfl⟩, rfl⟩, rfl⟩ |
      ⟨hAllowed, hType, _, ⟨name, number, hRest, rfl⟩, rfl⟩
    · rw [word_eq_keyword hText (by decide)]
      exact .enum hBlock
    · rw [word_eq_keyword hText (by decide)]
      exact .oneof hBlock
    · rw [word_eq_keyword hText (by decide)]
      exact .repeated hType hRest
    · exact .field hType hAllowed hRest

theorem memberForm_enum_iff
    (hText : word.text = "enum") :
    MemberForm (.word word :: lexemes) member ↔
      ∃ enum : Enum,
        Block EnumValueForm lexemes enum.name enum.values ∧
          member = .enum enum := by
  simp [memberForm_word_iff, hText, memberKeywords]

theorem memberForm_oneof_iff
    (hText : word.text = "oneof") :
    MemberForm (.word word :: lexemes) member ↔
      ∃ oneof : Oneof,
        Block AlternativeForm lexemes oneof.name
            oneof.fields ∧
          member = .oneof oneof := by
  simp [memberForm_word_iff, hText, memberKeywords]

theorem memberForm_repeated_iff
    (hText : word.text = "repeated") :
    MemberForm (.word word :: lexemes) member ↔
      ∃ type after,
        (isTypeReference type.chars = true ∧
          ∃ field,
            FieldForm type.text true after field ∧
              member = .field field) ∧
          lexemes = .word type :: after := by
  simp [memberForm_word_iff, hText, memberKeywords]

/- Messages do not nest. -/
theorem not_memberForm_message
    (hText : word.text = "message") :
    ¬ MemberForm (.word word :: lexemes) member := by
  simp [memberForm_word_iff, hText, memberKeywords]

theorem memberForm_type_iff
    (hAllowed : word.text ∉ memberKeywords) :
    MemberForm (.word word :: lexemes) member ↔
      isTypeReference word.chars = true ∧
        ∃ field,
          FieldForm word.text false lexemes field ∧
            member = .field field := by
  have hKeywords := hAllowed
  simp only [memberKeywords, List.mem_cons,
    List.not_mem_nil, or_false, not_or] at hKeywords
  rw [memberForm_word_iff]
  simp [hAllowed, hKeywords]

end FirstWord

end Grammar

end ProtoSchema
