import ProtoSchema.Proofs.Reading.Run
import ProtoSchema.Source.Sink
import ProtoSchema.Source.Stream

/-
  All ways to a schema agree. A stream is read like the text
  that its bytes encode, in whatever chunks they arrive; a
  file is read like the stream that it opens; and where the
  records go makes no difference to the result.

  Key definitions include:
    * `Read.Delivers`
    * `delivered`

  Main theorems:
    * `drain_of_delivers`
    * `decodeText_eq_ok_iff`
    * `streamText_of_delivers`
    * `Sink.takeAll_eq_append`
    * `readings_agree`
-/

namespace ProtoSchema

------------------------------------------------------------
-- Deliveries
------------------------------------------------------------

/- The read does not fail for good. -/
def Read.Delivers (read : Read) : Prop :=
  ∀ failure, read ≠ .failed failure

/- The bytes of some reads, one after the other. -/
def delivered (reads : List Read) : List UInt8 :=
  reads.flatMap fun
    | .chunk first others => first :: others
    | _ => []

/- Bytes that arrive are no failure, and none is lost. -/
@[simp] theorem Read.delivers_bytes (bytes : List UInt8) :
    (Read.bytes bytes).Delivers := by
  intro failure
  cases bytes with
  | nil => exact nofun
  | cons first others => exact nofun

@[simp] theorem Read.delivers_interrupted :
    Read.interrupted.Delivers :=
  fun _ => nofun

@[simp] theorem delivered_bytes_cons
    (bytes : List UInt8)
    (reads : List Read) :
    delivered (.bytes bytes :: reads) =
      bytes ++ delivered reads := by
  cases bytes with
  | nil => rfl
  | cons first others => rfl

section Draining

variable {reads : List Read}

/- Without a failure, all bytes are had. -/
theorem drain_of_delivers
    (hReads : ∀ read ∈ reads, read.Delivers) :
    drain reads = .ok (delivered reads) := by
  induction reads with
  | nil => rfl
  | cons first rest ih =>
      have hRest := ih fun read hRead =>
        hReads read (List.mem_cons_of_mem first hRead)
      cases first with
      | chunk byte others =>
          simp only [drain, hRest]
          rfl
      | interrupted =>
          simp only [drain, hRest]
          rfl
      | failed failure =>
          exact absurd rfl
            (hReads _ List.mem_cons_self failure)

/- A failure hides all bytes before it. -/
theorem drain_of_failed
    (hReads : ∀ read ∈ reads, read.Delivers)
    (failure : InputFailure)
    (after : List Read) :
    drain (reads ++ .failed failure :: after) =
      .error failure := by
  induction reads with
  | nil => rfl
  | cons first rest ih =>
      have hRest := ih fun read hRead =>
        hReads read (List.mem_cons_of_mem first hRead)
      cases first with
      | chunk byte others =>
          simp only [List.cons_append, drain, hRest]
          rfl
      | interrupted =>
          simp only [List.cons_append, drain, hRest]
      | failed failure' =>
          exact absurd rfl
            (hReads _ List.mem_cons_self failure')

/- Bytes are decoded as the text that they encode, if any. -/
theorem decodeText_eq_ok_iff
    {bytes : List UInt8}
    {text : String} :
    decodeText bytes = .ok text ↔
      text.toUTF8 = bytes.toByteArray := by
  unfold decodeText String.fromUTF8?
  by_cases hValid : bytes.toByteArray.IsValidUTF8
  · rw [dif_pos hValid]
    constructor
    · intro h
      rw [← Except.ok.inj h]
      rfl
    · intro h
      have hText :
          String.fromUTF8 bytes.toByteArray hValid = text :=
        String.toByteArray_inj.mp h.symm
      rw [hText]
  · rw [dif_neg hValid]
    constructor
    · simp
    · intro h
      rw [← h] at hValid
      exact absurd text.isValidUTF8 hValid

/- All other bytes are refused in one way. -/
theorem decodeText_of_ne
    {bytes : List UInt8}
    (hBytes :
      ∀ text : String, text.toUTF8 ≠ bytes.toByteArray) :
    decodeText bytes = .error .notUtf8 := by
  rcases hText : decodeText bytes with failure | text
  · unfold decodeText at hText
    split at hText
    · simp at hText
    · rw [← Except.error.inj hText]
  · exact absurd (decodeText_eq_ok_iff.mp hText)
      (hBytes text)

end Draining

------------------------------------------------------------
-- Streams
------------------------------------------------------------

/- A stream whose text is not had is accounted for at once. -/
theorem readStream_of_error
    {reads : List Read}
    {failure : InputFailure}
    (hText : streamText reads = .error failure) :
    readStream reads =
      ⟨.error (.input failure),
        [⟨.error, 0,
          "fail to read input: " ++ failure.message⟩]⟩ := by
  rw [readStream, hText]
  rfl

theorem readStream_of_ok
    {reads : List Read}
    {text : String}
    (hText : streamText reads = .ok text) :
    readStream reads = readText text := by
  rw [readStream, hText]

/- The text of a stream is that of its bytes. -/
theorem streamText_of_delivers
    {reads : List Read}
    (hReads : ∀ read ∈ reads, read.Delivers) :
    streamText reads = decodeText (delivered reads) := by
  rw [streamText, drain_of_delivers hReads]
  rfl

/- Bytes that come at once are read whole, even if none do. -/
theorem streamText_bytes (bytes : List UInt8) :
    streamText [.bytes bytes] = decodeText bytes := by
  have hReads :
      ∀ read ∈ [Read.bytes bytes], read.Delivers := by
    simp
  have hBytes : delivered [.bytes bytes] = bytes := by
    rw [delivered_bytes_cons]
    exact List.append_nil bytes
  rw [streamText_of_delivers hReads, hBytes]

theorem streamText_of_failed
    {reads : List Read}
    (hReads : ∀ read ∈ reads, read.Delivers)
    (failure : InputFailure)
    (after : List Read) :
    streamText (reads ++ .failed failure :: after) =
      .error failure := by
  rw [streamText, drain_of_failed hReads]
  rfl

------------------------------------------------------------
-- Sinks
------------------------------------------------------------

/- What a sink keeps of each record, it keeps in order. -/
theorem Sink.takeAll_eq_append
    {α : Type}
    {sink : Sink (List α)}
    {line : Record → α}
    (hTake :
      ∀ held record,
        sink.take held record = held ++ [line record])
    (held : List α)
    (records : List Record) :
    sink.takeAll held records =
      held ++ records.map line := by
  unfold Sink.takeAll
  induction records generalizing held with
  | nil => simp
  | cons first rest ih =>
      rw [List.foldl_cons, ih, hTake]
      simp

------------------------------------------------------------
-- All Readings
------------------------------------------------------------

/-
  However a schema is read, its text decides the result and
  the records. A stream that fails for good is refused
  whatever it has delivered before; otherwise it is refused
  if its bytes encode no text, and read like their text if
  they do, in whatever chunks and with whatever interruptions
  they arrive. A file is read like the stream that it opens,
  behind a record of its name. A sink has no part in the
  result, and a log is handed every record, set in by its
  depth.
-/
theorem readings_agree
    {reads : List Read}
    (hReads : ∀ read ∈ reads, read.Delivers) :
    (∀ failure after,
      readStream (reads ++ .failed failure :: after) =
        ⟨.error (.input failure),
          [⟨.error, 0,
            "fail to read input: " ++ failure.message⟩]⟩) ∧
      ((∀ text : String,
          text.toUTF8 ≠ (delivered reads).toByteArray) →
        readStream reads =
          ⟨.error (.input .notUtf8),
            [⟨.error, 0,
              "fail to read input: " ++
                InputFailure.notUtf8.message⟩]⟩) ∧
      (∀ text : String,
        text.toUTF8 = (delivered reads).toByteArray →
          readStream reads = readText text) ∧
      (∀ (files : FileSystem) (path : String) stream,
        files.openFile path = .ok stream →
          (readPath files path).result =
              (readStream stream).result ∧
            (readPath files path).records =
              ⟨.debug, 0, "Compiling .proto file " ++ path⟩ ::
                (readStream stream).records) ∧
      (∀ (files : FileSystem) (path : String) failure,
        files.openFile path = .error failure →
          readPath files path =
            ⟨.error (.input failure),
              [⟨.debug, 0, "Compiling .proto file " ++ path⟩,
                ⟨.error, 0,
                  "fail to open " ++ path ++ ": " ++
                    failure.message⟩]⟩) ∧
      (∀ (σ : Type) (sink : Sink σ) (held : σ) text,
        (readTextInto sink held text).1 =
          (readText text).result) ∧
      ∀ text,
        (readTextInto .recording [] text).2 =
            (readText text).records ∧
          readLogged text =
            ((readText text).result,
              (readText text).records.map fun record =>
                (record.level,
                  String.ofList
                      (List.replicate
                        (2 * record.depth) ' ') ++
                    record.message)) := by
  refine ⟨?_, ?_, ?_, ?_, ?_, fun _ _ _ _ => rfl, ?_⟩
  · intro failure after
    exact readStream_of_error
      (streamText_of_failed hReads failure after)
  · intro hBytes
    apply readStream_of_error
    rw [streamText_of_delivers hReads]
    exact decodeText_of_ne hBytes
  · intro text hText
    apply readStream_of_ok
    rw [streamText_of_delivers hReads]
    exact decodeText_eq_ok_iff.mpr hText
  · intro files path stream hOpen
    simp only [readPath, hOpen]
    exact ⟨rfl, rfl⟩
  · intro files path failure hOpen
    simp only [readPath, hOpen]
    rfl
  · intro text
    have hKept :
        Sink.recording.takeAll [] (readText text).records =
          [] ++ (readText text).records.map id :=
      Sink.takeAll_eq_append (fun _ _ => rfl) [] _
    have hLogged :
        Sink.log.takeAll [] (readText text).records =
          [] ++ (readText text).records.map fun record =>
            (record.level, record.logLine) :=
      Sink.takeAll_eq_append (fun _ _ => rfl) [] _
    rw [List.map_id, List.nil_append] at hKept
    exact ⟨hKept, congrArg (Prod.mk _) hLogged⟩

/-
  A character that arrives in two chunks, bytes that encode
  no text, and a file that is not there.
-/
theorem readings_agree_split :
    let text := "syntax=\"proto3\";//é"
    let reads : List Read :=
      [.bytes (text.toUTF8.toList.take 19), .interrupted,
        .bytes (text.toUTF8.toList.drop 19)]
    let broken : List Read := [.bytes [0x2f, 0xff]]
    let files : FileSystem := ⟨fun _ => .error .notFound⟩
    (∀ read ∈ reads, read.Delivers) ∧
      text.toUTF8 = (delivered reads).toByteArray ∧
      readStream reads = readText text ∧
      (∀ read ∈ broken, read.Delivers) ∧
      (∀ text : String,
        text.toUTF8 ≠ (delivered broken).toByteArray) ∧
      (readStream broken).result =
        .error (.input .notUtf8) ∧
      (readPath files "a.proto").result =
        .error (.input .notFound) := by
  intro text reads broken files
  have hReads : ∀ read ∈ reads, read.Delivers := by
    simp [reads]
  have hBytes :
      text.toUTF8 = (delivered reads).toByteArray := by
    decide +kernel
  have hBroken : ∀ read ∈ broken, read.Delivers := by
    simp [broken]
  have hNone : ∀ text : String,
      text.toUTF8 ≠ (delivered broken).toByteArray := by
    intro text hText
    have hValid := text.isValidUTF8
    rw [← String.toUTF8_eq_toByteArray, hText] at hValid
    revert hValid
    decide +kernel
  rcases readings_agree hReads with
    ⟨_, _, hStream, _, hClosed, _⟩
  refine ⟨hReads, hBytes, hStream text hBytes, hBroken,
    hNone, ?_, ?_⟩
  · rw [(readings_agree hBroken).2.1 hNone]
  · rw [hClosed files "a.proto" .notFound rfl]

end ProtoSchema
