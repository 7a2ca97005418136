import ProtoSchema.Proofs.Reading.Order

/-
  A session taken step by step. Steps move through the
  phases in one direction, keep what each phase says of the
  schema, end within the length of the text, and can be
  finished by a run at any time.

  Key definitions include:
    * `Phase.Leads`
    * `Phase.Ended`
    * `Session.Steps`
    * `Session.Sound`
    * `Session.takeSteps`

  Main theorems:
    * `Session.steps_step`
    * `Session.stepLaw`
    * `Session.sound_takeSteps`
    * `Session.run_takeSteps`
    * `Session.takeSteps_refines_run`
-/

namespace ProtoSchema

------------------------------------------------------------
-- Phases
------------------------------------------------------------

namespace Phase

/- Nothing is read in this phase. -/
def Ended (phase : Phase) : Prop :=
  phase = .failed ∨ phase = .done

instance (phase : Phase) : Decidable phase.Ended := by
  unfold Ended
  infer_instance

/- The changes of phase that a step can make. -/
inductive Leads : Phase → Phase → Prop where
  | opened : Leads .awaitingSyntax .ready
  | declared : Leads .ready .ready
  | finished : Leads .ready .done
  | failedOpening : Leads .awaitingSyntax .failed
  | failedReady : Leads .ready .failed

/- A phase that has not ended is one of two. -/
theorem not_ended_iff
    {phase : Phase} :
    ¬ phase.Ended ↔
      phase = .awaitingSyntax ∨ phase = .ready := by
  cases phase <;> simp [Ended]

end Phase

namespace Session

open ProtoSchema.Parser

------------------------------------------------------------
-- What a Step Can Do
------------------------------------------------------------

/-
  A session that has ended is left alone. Otherwise the next
  item fails, or only a gap is left, or an item is read.
-/
inductive Steps (session : Session) : Step → Prop where
  | ended
      (hEnded : session.phase.Ended) :
      Steps session ⟨.ok session.phase, session, []⟩
  | failed
      {error : ParseError}
      {rest : List Char}
      {records : List Record}
      (hOpen : ¬ session.phase.Ended)
      (hRead :
        (readItem session.phase session.schema).run
            session.rest =
          ⟨.error error, rest, records⟩) :
      Steps session
        ⟨.error error, ⟨.failed, session.schema, rest⟩,
          records ++
            [Diagnostics.topLevel.error error.message]⟩
  | finished
      {records : List Record}
      (hPhase : session.phase = .ready)
      (hNote :
        (noteComments .topLevel).run session.rest =
          ⟨.ok (), [], records⟩) :
      Steps session
        ⟨.ok .done, ⟨.done, session.schema, []⟩, records⟩
  | item
      {declared : SchemaFile}
      {rest : List Char}
      {records : List Record}
      (hOpen : ¬ session.phase.Ended)
      (hRead :
        (readItem session.phase session.schema).run
            session.rest =
          ⟨.ok declared, rest, records⟩) :
      Steps session
        ⟨.ok .ready, ⟨.ready, declared, rest⟩, records⟩

/- A session that has ended stays as it is. -/
theorem step_of_ended
    {session : Session}
    (hEnded : session.phase.Ended) :
    session.step = ⟨.ok session.phase, session, []⟩ := by
  rcases session with ⟨phase, schema, rest⟩
  rcases hEnded with hPhase | hPhase
  · change phase = .failed at hPhase
    subst hPhase
    rfl
  · change phase = .done at hPhase
    subst hPhase
    rfl

/- Every step is of one of these kinds. -/
theorem steps_step (session : Session) :
    session.Steps session.step := by
  by_cases hEnded : session.phase.Ended
  · rw [step_of_ended hEnded]
    exact .ended hEnded
  have hOpen := Phase.not_ended_iff.mp hEnded
  by_cases hItem :
      session.phase = .awaitingSyntax ∨
        ¬ Gap true session.rest
  · have hStep : session.step = _ :=
      step_of_item hOpen hItem
    rcases hRead :
        (readItem session.phase session.schema).run
          session.rest with
      ⟨error | declared, rest, records⟩
    · rw [hStep, hRead]
      exact .failed hEnded hRead
    · rw [hStep, hRead]
      exact .item hEnded hRead
  · rcases not_or.mp hItem with ⟨hAwaiting, hNot⟩
    have hGap := Classical.not_not.mp hNot
    have hPhase : session.phase = .ready :=
      hOpen.resolve_left hAwaiting
    rcases noteComments_end_iff.mpr hGap with ⟨records, hNote⟩
    have hNext :
        (readNext session.phase session.schema).run
            session.rest =
          ⟨.ok none, [], records⟩ :=
      readNext_of_gap hAwaiting hNote
    have hStep : session.step =
        ⟨.ok .done, ⟨.done, session.schema, []⟩, records⟩ := by
      rw [hPhase] at hNext
      simp only [step, hPhase, hNext]
    rw [hStep]
    exact .finished hPhase hNote

/- What an item leaves is a final part of its text. -/
theorem readItem_suffix
    {phase : Phase}
    {schema declared : SchemaFile}
    {text rest : List Char}
    {records : List Record}
    (hRead :
      (readItem phase schema).run text =
        ⟨.ok declared, rest, records⟩) :
    rest <:+ text := by
  have hNext : (readNext phase schema).run text =
      ((readItem phase schema).run text).map some :=
    readNext_of_item (.inr (not_gap_of_item hRead))
  have hSuffix := readNext_shrinks phase schema text
  rw [hNext, hRead] at hSuffix
  exact hSuffix

/-
  The laws of a step. It changes the phase in one of five
  ways, answers with the phase that it reaches, fails exactly
  when it moves to the phase of failure, leaves an ended
  session alone, and reads on whenever it stays open.
-/
structure StepLaw (session : Session) : Prop where
  leads :
    ¬ session.phase.Ended →
      session.phase.Leads session.step.session.phase
  answers :
    ∀ phase,
      session.step.result = .ok phase →
        session.step.session.phase = phase
  fails :
    (∃ error, session.step.result = .error error) ↔
      session.phase ≠ .failed ∧
        session.step.session.phase = .failed
  ended :
    session.phase.Ended →
      session.step = ⟨.ok session.phase, session, []⟩
  advances :
    session.step.result = .ok .ready →
      session.step.session.rest <:+ session.rest ∧
        session.step.session.rest.length <
          session.rest.length

theorem leads_of_steps
    {session : Session}
    {step : Step}
    (hStep : session.Steps step)
    (hOpen : ¬ session.phase.Ended) :
    session.phase.Leads step.session.phase := by
  cases hStep with
  | ended hEnded => contradiction
  | failed _ _ =>
      rcases Phase.not_ended_iff.mp hOpen with hPhase | hPhase
      · rw [hPhase]
        exact .failedOpening
      · rw [hPhase]
        exact .failedReady
  | finished hPhase _ =>
      rw [hPhase]
      exact .finished
  | item _ _ =>
      rcases Phase.not_ended_iff.mp hOpen with hPhase | hPhase
      · rw [hPhase]
        exact .opened
      · rw [hPhase]
        exact .declared

theorem fails_iff_of_steps
    {session : Session}
    {step : Step}
    (hStep : session.Steps step) :
    (∃ error, step.result = .error error) ↔
      session.phase ≠ .failed ∧
        step.session.phase = .failed := by
  cases hStep with
  | ended _ => simp
  | failed hOpen _ =>
      have hPhase : session.phase ≠ .failed :=
        fun h => hOpen (.inl h)
      simp [hPhase]
  | finished _ _ => simp
  | item _ _ => simp

/- Every session, reached or not, keeps the laws of a step. -/
theorem stepLaw (session : Session) : session.StepLaw where
  leads := leads_of_steps session.steps_step
  answers := by
    intro phase hResult
    have hStep := session.steps_step
    generalize session.step = step at hStep hResult
    cases hStep with
    | ended _ => exact Except.ok.inj hResult
    | failed _ _ => simp at hResult
    | finished _ _ => exact Except.ok.inj hResult
    | item _ _ => exact Except.ok.inj hResult
  fails := fails_iff_of_steps session.steps_step
  ended := step_of_ended
  advances := by
    intro hResult
    have hStep := session.steps_step
    generalize session.step = step at hStep hResult
    cases hStep with
    | ended hEnded =>
        have hReady : session.phase = .ready :=
          Except.ok.inj hResult
        rw [hReady] at hEnded
        simp [Phase.Ended] at hEnded
    | failed _ _ => simp at hResult
    | finished _ _ => simp at hResult
    | item _ hRead =>
        exact ⟨readItem_suffix hRead, readItem_lt hRead⟩

------------------------------------------------------------
-- Sound Sessions
------------------------------------------------------------

/-
  What each phase says of a session: nothing is declared
  before the syntax is, the syntax is declared behind that,
  and nothing is left to read at the end.
-/
structure Sound (session : Session) : Prop where
  opening :
    session.phase = .awaitingSyntax →
      session.schema.version = none ∧
        session.schema.messages = []
  declared :
    session.phase = .ready ∨ session.phase = .done →
      session.schema.version = some .proto3
  finished :
    session.phase = .done → session.rest = []

theorem sound_start (text : String) :
    (Session.start text).Sound where
  opening := fun _ => ⟨rfl, rfl⟩
  declared := by simp [Session.start]
  finished := by simp [Session.start]

/- The version is proto3 as soon as there is one. -/
theorem version_eq_proto3
    {schema : SchemaFile}
    (hVersion : schema.version.isSome = true) :
    schema.version = some .proto3 := by
  rcases Option.isSome_iff_exists.mp hVersion with
    ⟨version, hSome⟩
  cases version
  exact hSome

/- Soundness is kept by every step. -/
theorem Sound.step
    {session : Session}
    (h : session.Sound) : session.step.session.Sound := by
  have hStep := session.steps_step
  generalize session.step = step at hStep
  cases hStep with
  | ended _ => exact h
  | failed _ _ =>
      exact ⟨by simp, by simp, by simp⟩
  | finished hPhase _ =>
      exact ⟨by simp, fun _ => h.declared (.inl hPhase),
        fun _ => rfl⟩
  | item hOpen hRead =>
      refine ⟨by simp, fun _ => ?_, by simp⟩
      apply version_eq_proto3
      apply isSome_version_of_readItem ?_ hRead
      rcases Phase.not_ended_iff.mp hOpen with hPhase | hPhase
      · exact .inl hPhase
      · right
        rw [h.declared (.inl hPhase)]
        rfl

/-
  Behind the syntax declaration messages can be appended, so
  that no item is out of order.
-/
theorem Sound.step_ne_outOfOrder
    {session : Session}
    (h : session.Sound)
    (hPhase : session.phase = .ready)
    (keyword : String) :
    session.step.result ≠ .error (.outOfOrder keyword) := by
  have hVersion : session.schema.version.isSome = true := by
    rw [h.declared (.inl hPhase)]
    rfl
  have hStep := session.steps_step
  generalize session.step = step at hStep
  cases hStep with
  | ended _ => simp
  | failed _ hRead =>
      have hOrder :=
        keepsOrder_readItem hVersion session.rest keyword
      rw [hPhase] at hRead
      rw [hRead] at hOrder
      simpa using hOrder
  | finished _ _ => simp
  | item _ _ => simp

------------------------------------------------------------
-- Many Steps
------------------------------------------------------------

/-
  What a number of steps leave behind: the session reached,
  the result of each step and all records, in order.
-/
structure Trail where
  session : Session
  results : List (Except ParseError Phase)
  records : List Record

/- Take a number of steps. -/
def takeSteps
    (session : Session) : Nat → Trail
  | 0 => ⟨session, [], []⟩
  | count + 1 =>
      let trail := session.takeSteps count
      let step := trail.session.step
      ⟨step.session, trail.results ++ [step.result],
        trail.records ++ step.records⟩

/- None of the steps has failed. -/
def Trail.Unfailed (trail : Trail) : Prop :=
  ∀ error, .error error ∉ trail.results

theorem sound_takeSteps
    (text : String)
    (count : Nat) :
    ((Session.start text).takeSteps count).session.Sound := by
  induction count with
  | zero => exact sound_start text
  | succ count ih => exact ih.step

/- Every step that keeps a session open shortens its text. -/
theorem length_takeSteps
    (session : Session)
    (count : Nat)
    (hOpen : ¬ (session.takeSteps count).session.phase.Ended) :
    (session.takeSteps count).session.rest.length + count ≤
      session.rest.length := by
  induction count with
  | zero => exact Nat.le_refl _
  | succ count ih =>
      have hStep :=
        (session.takeSteps count).session.steps_step
      simp only [takeSteps] at hOpen ⊢
      generalize (session.takeSteps count).session.step = step
        at hStep hOpen
      cases hStep with
      | ended hEnded => contradiction
      | failed _ _ => simp [Phase.Ended] at hOpen
      | finished _ _ => simp [Phase.Ended] at hOpen
      | item hBefore hRead =>
          have hLess := readItem_lt hRead
          have hLength := ih hBefore
          dsimp only
          omega

/- The steps end before the text could be too short. -/
theorem ended_takeSteps
    (session : Session)
    {count : Nat}
    (hCount : session.rest.length < count) :
    (session.takeSteps count).session.phase.Ended := by
  by_cases hEnded :
      (session.takeSteps count).session.phase.Ended
  · exact hEnded
  · have hLength := length_takeSteps session count hEnded
    omega

/- The run of a session goes on behind any of its steps. -/
theorem run_step
    {session : Session}
    (hFails : session.step.session.phase ≠ .failed) :
    session.run =
      session.step.session.run.after
        session.step.records := by
  have hStep := session.steps_step
  rw [run_eq]
  generalize session.step = step at hStep hFails
  cases hStep with
  | ended hEnded =>
      rcases hEnded with hPhase | hPhase
      · contradiction
      · rw [run_eq, step_of_ended (.inr hPhase), hPhase]
        rfl
  | failed _ _ => contradiction
  | finished _ _ =>
      dsimp only
      rw [run_eq, step_of_ended (.inr rfl)]
      simp [Reading.after]
  | item _ _ => rfl

/- Steps of which none has failed have not led to failure. -/
theorem Trail.Unfailed.phase_ne
    {session : Session}
    {count : Nat}
    (hUnfailed : (session.takeSteps count).Unfailed)
    (hStart : session.phase ≠ .failed) :
    (session.takeSteps count).session.phase ≠ .failed := by
  induction count with
  | zero => exact hStart
  | succ count ih =>
      simp only [takeSteps, Trail.Unfailed,
        List.mem_append, List.mem_singleton,
        not_or] at hUnfailed
      have hBefore := ih fun error => (hUnfailed error).1
      intro hFailed
      rcases (session.takeSteps count).session.stepLaw.fails.mpr
          ⟨hBefore, hFailed⟩ with
        ⟨error, hError⟩
      exact (hUnfailed error).2 hError.symm

/- So does it behind any number of steps. -/
theorem run_takeSteps
    (session : Session)
    (hStart : session.phase ≠ .failed)
    {count : Nat}
    (hUnfailed : (session.takeSteps count).Unfailed) :
    session.run =
      (session.takeSteps count).session.run.after
        (session.takeSteps count).records := by
  induction count with
  | zero => rfl
  | succ count ih =>
      have hPhase := hUnfailed.phase_ne hStart
      have hBefore : (session.takeSteps count).Unfailed := by
        intro error hError
        exact hUnfailed error (List.mem_append_left _ hError)
      rw [ih hBefore, run_step hPhase]
      simp [takeSteps, Reading.after]

/-
  A session is an orderly machine, and stepping refines
  running. Whatever the text and the number of steps taken,
  the laws of a step hold of the session reached, its phase
  says what is declared and what is left, and behind the
  syntax declaration nothing is out of order. The session has
  ended within two steps more than the text is long, and
  unless a step has failed, running it to the end completes
  the account of the whole reading.
-/
theorem takeSteps_refines_run
    (text : String)
    (count : Nat) :
    let start := Session.start text
    let trail := start.takeSteps count
    let session := trail.session
    session.StepLaw ∧
      session.Sound ∧
      (session.phase = .ready →
        (∀ message, ∃ pushed,
            session.schema.pushMessage message =
              .ok pushed) ∧
          ∀ keyword,
            session.step.result ≠
              .error (.outOfOrder keyword)) ∧
      (start.takeSteps
        (text.length + 2)).session.phase.Ended ∧
      (trail.Unfailed →
        session.run.result = (readText text).result ∧
          trail.records ++ session.run.records =
            (readText text).records) := by
  intro start trail session
  have hSound : session.Sound := sound_takeSteps text count
  refine ⟨session.stepLaw, hSound, fun hPhase => ⟨?_, ?_⟩,
    ?_, ?_⟩
  · intro message
    refine ⟨_, SchemaFile.pushMessage_eq_ok_iff.mpr
      ⟨?_, rfl⟩⟩
    rw [hSound.declared (.inl hPhase)]
    rfl
  · exact hSound.step_ne_outOfOrder hPhase
  · apply ended_takeSteps
    have hLength : start.rest.length = text.length :=
      String.length_toList
    omega
  · intro hUnfailed
    have hRun : readText text =
        session.run.after trail.records :=
      run_takeSteps start (by simp [start, Session.start])
        hUnfailed
    rw [hRun]
    exact ⟨rfl, rfl⟩

/- A session that is finished by a run behind its first step. -/
theorem takeSteps_refines_run_stray :
    let text := "syntax=\"proto3\";;"
    let trail := (Session.start text).takeSteps 1
    (∀ keyword,
        trail.session.step.result ≠
          .error (.outOfOrder keyword)) ∧
      trail.session.run.result = (readText text).result := by
  intro text trail
  have hPhase : trail.session.phase = .ready := by
    decide +kernel
  have hResults : trail.results = [.ok .ready] := by
    decide +kernel
  have hUnfailed : trail.Unfailed := by
    intro error hMem
    rw [hResults] at hMem
    simp at hMem
  rcases takeSteps_refines_run text 1 with
    ⟨_, _, hReady, _, hRun⟩
  exact ⟨(hReady hPhase).2, (hRun hUnfailed).1⟩

end Session

end ProtoSchema
