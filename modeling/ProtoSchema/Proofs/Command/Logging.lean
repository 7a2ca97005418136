import ProtoSchema.Command.Process

/-
  What the log says of a record. Only characters that are
  shown are kept, and those of a text that begins nothing
  else are all kept: an entry is its level, the indentation,
  the message line by line, and the end of a line.

  Main theorems:
    * `Terminal.isShown_of_mem_strip`
    * `Terminal.strip_append`
    * `Terminal.strip_strip`
    * `flatMap_continueLine`
    * `logEntry_eq_strip`
    * `logEntry_eq`
-/

namespace ProtoSchema

------------------------------------------------------------
-- Shown Characters
------------------------------------------------------------

namespace Terminal

variable {mode : Mode}
variable {c : Char}
variable {text : List Char}

theorem isShown_of_isBlankControl
    (hBlank : isBlankControl c = true) :
    isShown c = true := by
  simp [isShown, hBlank]

/- In every mode, what is kept is a shown character. -/
theorem isShown_of_change
    (hKept : (change mode c).2 = true) :
    isShown c = true := by
  unfold change at hKept
  split at hKept
  · simp at hKept
  split at hKept
  · simp at hKept
  cases mode with
  | ground => exact hKept
  | escape => exact isShown_of_isBlankControl hKept
  | intermediate =>
      dsimp only at hKept
      split at hKept
      · simp at hKept
      · exact isShown_of_isBlankControl hKept
  | control =>
      dsimp only at hKept
      split at hKept
      · simp at hKept
      · exact isShown_of_isBlankControl hKept
  | command =>
      dsimp only at hKept
      split at hKept <;> simp at hKept
  | content =>
      dsimp only at hKept
      split at hKept <;> simp at hKept
  | device => simp at hKept
  | parameters => simp at hKept
  | introduction => simp at hKept

/- A shown character steers nothing. -/
theorem change_ground_of_isShown
    (hShown : isShown c = true) :
    change .ground c = (.ground, true) := by
  have hPlain : c ≠ '\x1b' ∧ c ≠ '\x18' ∧ c ≠ '\x1a' := by
    refine ⟨?_, ?_, ?_⟩ <;> rintro rfl <;> revert hShown <;>
      decide
  simp [change, hPlain, hShown]

theorem afterShown_ground (c : Char) :
    afterShown .ground c = .ground := by
  simp [afterShown]

theorem isShown_of_mem_stripFrom
    {inRun : Bool}
    (hKept : c ∈ stripFrom mode inRun text) :
    isShown c = true := by
  induction text generalizing mode inRun with
  | nil => simp [stripFrom] at hKept
  | cons first rest ih =>
      rw [stripFrom] at hKept
      split at hKept
      next hRun =>
        rcases List.mem_cons.mp hKept with rfl | hRest
        · exact (Bool.and_eq_true_iff.mp hRun).2
        · exact ih hRest
      next =>
        split at hKept
        next next shown hChange =>
          split at hKept
          next hShown =>
            rcases List.mem_cons.mp hKept with rfl | hRest
            · apply isShown_of_change
              rw [hChange, hShown]
            · exact ih hRest
          next => exact ih hKept

/- Every character that is kept is one that is shown. -/
theorem isShown_of_mem_strip
    (hKept : c ∈ strip text) :
    isShown c = true :=
  isShown_of_mem_stripFrom hKept

/- Where nothing is begun, a run makes no difference. -/
theorem stripFrom_ground
    (inRun : Bool)
    (text : List Char) :
    stripFrom .ground inRun text = strip text := by
  cases text with
  | nil => rfl
  | cons c rest =>
      by_cases hShown : isShown c = true
      · cases inRun with
        | false => rfl
        | true =>
            simp [strip, stripFrom, hShown,
              change_ground_of_isShown hShown,
              afterShown_ground]
      · simp [strip, stripFrom, hShown]

/- A text that is shown stands as it is before any other. -/
theorem strip_append
    (hText : ∀ c ∈ text, isShown c = true)
    (rest : List Char) :
    strip (text ++ rest) = text ++ strip rest := by
  induction text with
  | nil => rfl
  | cons c text ih =>
      rcases List.forall_mem_cons.mp hText with
        ⟨hFirst, hOthers⟩
      rw [List.cons_append, strip, stripFrom]
      simp only [Bool.false_and, Bool.false_eq_true,
        if_false, change_ground_of_isShown hFirst, if_true,
        stripFrom_ground, ih hOthers, List.cons_append]

theorem strip_eq_self
    (hText : ∀ c ∈ text, isShown c = true) :
    strip text = text := by
  simpa [strip, stripFrom] using strip_append hText []

/- What was stripped once has nothing left to strip. -/
theorem strip_strip (text : List Char) :
    strip (strip text) = strip text :=
  strip_eq_self fun _ hKept => isShown_of_mem_strip hKept

end Terminal

------------------------------------------------------------
-- Lines
------------------------------------------------------------

/- The lines of a message, with a margin between them. -/
theorem flatMap_continueLine (text : List Char) :
    text.flatMap continueLine =
      "\n    ".toList.intercalate (text.splitOn '\n') := by
  induction text with
  | nil => rfl
  | cons c rest ih =>
      have hLines := List.splitOn_ne_nil '\n' rest
      rw [List.flatMap_cons, ih,
        List.splitOn_cons_eq_if_modifyHead]
      by_cases hBreak : c = '\n'
      · rw [if_pos (beq_iff_eq.mpr hBreak),
          List.intercalate_cons_of_ne_nil hLines]
        simp [continueLine, hBreak]
      · rw [if_neg (mt beq_iff_eq.mp hBreak)]
        rcases hSplit : rest.splitOn '\n' with
          _ | ⟨line, lines⟩
        · exact absurd hSplit hLines
        · cases lines with
          | nil => simp [continueLine, hBreak]
          | cons second lines =>
              simp [continueLine, hBreak]

/- A margin adds nothing that is not shown. -/
theorem isShown_of_mem_continueLine
    {c origin : Char}
    (hOrigin : Terminal.isShown origin = true)
    (hMember : c ∈ continueLine origin) :
    Terminal.isShown c = true := by
  unfold continueLine at hMember
  split at hMember
  next =>
    have hMargin :
        ['\n', ' ', ' ', ' ', ' '].all Terminal.isShown =
          true :=
      rfl
    exact List.all_eq_true.mp hMargin c hMember
  next =>
    rw [List.mem_singleton.mp hMember]
    exact hOrigin

------------------------------------------------------------
-- Entries
------------------------------------------------------------

/- An indentation has one line. -/
theorem flatMap_continueLine_replicate (count : Nat) :
    (List.replicate count ' ').flatMap continueLine =
      List.replicate count ' ' := by
  induction count with
  | zero => rfl
  | succ count ih =>
      rw [List.replicate_succ, List.flatMap_cons, ih]
      rfl

/- What stands before the indentation is shown. -/
theorem isShown_of_mem_header (level : Level) :
    ∀ c ∈ "[".toList ++ level.label.toList ++
        " protohdl::diagnostics] ".toList,
      Terminal.isShown c = true := by
  apply List.all_eq_true.mp
  cases level with
  | error => rfl
  | debug => rfl
  | trace => rfl

/-
  Whatever a message holds, its entry begins with its level
  and its indentation.
-/
theorem logEntry_eq_strip (record : Record) :
    logEntry record =
      "[" ++ record.level.label ++
        " protohdl::diagnostics] " ++
        String.ofList
          (List.replicate (2 * record.depth) ' ') ++
        String.ofList
          (Terminal.strip
            (record.message.toList.flatMap continueLine ++
              ['\n'])) := by
  have hBlanks :
      ∀ c ∈ List.replicate (2 * record.depth) ' ',
        Terminal.isShown c = true := by
    intro c hMember
    rw [List.eq_of_mem_replicate hMember]
    rfl
  have hHeader := List.forall_mem_append.mpr
    ⟨isShown_of_mem_header record.level, hBlanks⟩
  have hEntry := Terminal.strip_append hHeader
    (record.message.toList.flatMap continueLine ++ ['\n'])
  apply String.toList_injective
  simpa [logEntry, Record.logLine,
    flatMap_continueLine_replicate] using hEntry

/-
  An entry holds its level, two spaces for each level of
  depth, and the lines of its message, with four spaces
  before each line but the first; and it ends a line.
-/
theorem logEntry_eq
    {record : Record}
    (hMessage :
      ∀ c ∈ record.message.toList,
        Terminal.isShown c = true) :
    logEntry record =
      "[" ++ record.level.label ++
        " protohdl::diagnostics] " ++
        String.ofList
          (List.replicate (2 * record.depth) ' ') ++
        String.ofList
          ("\n    ".toList.intercalate
            (record.message.toList.splitOn '\n')) ++
        "\n" := by
  have hLines :
      ∀ c ∈ record.message.toList.flatMap continueLine,
        Terminal.isShown c = true := by
    intro c hMember
    rcases List.mem_flatMap.mp hMember with
      ⟨origin, hOrigin, hPlace⟩
    exact isShown_of_mem_continueLine
      (hMessage origin hOrigin) hPlace
  have hEnd : Terminal.strip ['\n'] = ['\n'] := rfl
  rw [logEntry_eq_strip, Terminal.strip_append hLines, hEnd,
    flatMap_continueLine, String.ofList_append,
    ← String.append_assoc]

/- A message of two lines, one block further in. -/
example :
    logEntry ⟨.debug, 1, "one\ntwo"⟩ =
      "[DEBUG protohdl::diagnostics]   one\n    two\n" := by
  decide +kernel

end ProtoSchema
