import ProtoSchema.Proofs.Json.Writing

/-
  Values that differ in the order of the entries of objects
  and in further entries, of which no reader of records sees
  anything.

  Key definitions include:
    * `Json.Varies`
    * `Json.Fits`

  Main theorems:
    * `Json.varies_self`
    * `Json.Varies.fits`
    * `Json.Varies.peel`
    * `Json.Varies.exists_values`
-/

namespace ProtoSchema

namespace Json

/- The keys of an object. -/
def keysOf (entries : List (String × Json)) : List String :=
  entries.map (·.1)

mutual

/-
  The second value comes from the first by a new order of
  the entries of any objects in it, and by further entries
  with scalar values under keys that an object has not.
-/
inductive Varies : Json → Json → Prop where
  | scalar
      {json : Json}
      (hScalar : json.IsScalar) :
      Varies json json
  | list
      {items items' : List Json}
      (hItems : ItemsVary items items') :
      Varies (.arr items) (.arr items')
  | object
      {entries kept added entries' : List (String × Json)}
      (hKept : EntriesVary entries kept)
      (hUnknown :
        ∀ entry ∈ added, entry.1 ∉ keysOf entries)
      (hScalar : ∀ entry ∈ added, entry.2.IsScalar)
      (hOrder : entries'.Perm (kept ++ added)) :
      Varies (.obj entries) (.obj entries')

inductive ItemsVary : List Json → List Json → Prop where
  | nil : ItemsVary [] []
  | cons
      {item item' : Json}
      {rest rest' : List Json}
      (hItem : Varies item item')
      (hRest : ItemsVary rest rest') :
      ItemsVary (item :: rest) (item' :: rest')

inductive EntriesVary :
    List (String × Json) → List (String × Json) → Prop where
  | nil : EntriesVary [] []
  | cons
      {key : String}
      {value value' : Json}
      {rest rest' : List (String × Json)}
      (hValue : Varies value value')
      (hRest : EntriesVary rest rest') :
      EntriesVary ((key, value) :: rest)
        ((key, value') :: rest')

end

mutual

/- A value with a written form is a variation of itself. -/
theorem varies_self
    (json : Json)
    (hPlain : json.IsPlain) : Varies json json := by
  cases json with
  | null => exact .scalar hPlain
  | bool _ => exact .scalar hPlain
  | int _ => exact .scalar hPlain
  | real => exact .scalar hPlain
  | str _ => exact .scalar hPlain
  | unusable => exact .scalar hPlain
  | arr items => exact .list (itemsVary_self items hPlain)
  | obj entries =>
      have hOrder : entries.Perm (entries ++ []) := by
        rw [List.append_nil]
      exact .object (entriesVary_self entries hPlain)
        (by simp) (by simp) hOrder

theorem itemsVary_self
    (items : List Json)
    (hPlain : ItemsPlain items) : ItemsVary items items := by
  cases items with
  | nil => exact .nil
  | cons item rest =>
      exact .cons (varies_self item hPlain.1)
        (itemsVary_self rest hPlain.2)

theorem entriesVary_self
    (entries : List (String × Json))
    (hPlain : EntriesPlain entries) :
    EntriesVary entries entries := by
  cases entries with
  | nil => exact .nil
  | cons entry rest =>
      exact .cons (varies_self entry.2 hPlain.1)
        (entriesVary_self rest hPlain.2)

end

/- A scalar value has no other variation. -/
theorem Varies.eq_of_isScalar
    {json json' : Json}
    (hVaries : Varies json json')
    (hScalar : json.IsScalar) : json' = json := by
  cases hVaries with
  | scalar => rfl
  | list => exact absurd hScalar id
  | object => exact absurd hScalar id

theorem ItemsVary.eq_of_isScalar
    {items items' : List Json}
    (hVary : ItemsVary items items')
    (hScalar : ∀ item ∈ items, item.IsScalar) :
    items' = items := by
  induction items generalizing items' with
  | nil =>
      cases hVary
      rfl
  | cons item rest ih =>
      cases hVary with
      | cons hItem hRest =>
          rw [hItem.eq_of_isScalar
              (hScalar item List.mem_cons_self),
            ih hRest fun other hMem =>
              hScalar other (List.mem_cons_of_mem item hMem)]

/- Entries that vary keep their keys. -/
theorem EntriesVary.keysOf_eq
    {entries entries' : List (String × Json)}
    (hVary : EntriesVary entries entries') :
    keysOf entries' = keysOf entries := by
  induction entries generalizing entries' with
  | nil =>
      cases hVary
      rfl
  | cons entry rest ih =>
      cases hVary with
      | cons _ hRest =>
          exact congrArg (_ :: ·) (ih hRest)

------------------------------------------------------------
-- Depth
------------------------------------------------------------

/-
  Whether a value is usable and nested at most so deep, as a
  value has to be that is read whole before its use.
-/
def Fits (bound : Nat) (json : Json) : Prop :=
  json.isUsable = true ∧ json.depth ≤ bound

theorem IsScalar.fits
    {json : Json}
    (hScalar : json.IsScalar)
    (bound : Nat) : Fits bound json := by
  cases json with
  | null => exact ⟨rfl, Nat.zero_le _⟩
  | bool _ => exact ⟨rfl, Nat.zero_le _⟩
  | int _ => exact ⟨rfl, Nat.zero_le _⟩
  | str _ => exact ⟨rfl, Nat.zero_le _⟩
  | real => exact absurd hScalar id
  | unusable => exact absurd hScalar id
  | arr _ => exact absurd hScalar id
  | obj _ => exact absurd hScalar id

theorem fits_arr
    {bound : Nat}
    {items : List Json} :
    Fits bound (.arr items) ↔
      0 < bound ∧ ∀ item ∈ items, Fits (bound - 1) item := by
  have hItems :
      (itemsUsable items = true ∧
          depthOfItems items ≤ bound - 1) ↔
        ∀ item ∈ items, Fits (bound - 1) item := by
    induction items with
    | nil => simp [itemsUsable, depthOfItems]
    | cons item rest ih =>
        rw [List.forall_mem_cons, ← ih]
        simp only [itemsUsable, depthOfItems,
          Bool.and_eq_true, Nat.max_le, Fits]
        exact and_and_and_comm
  have hBound :
      depthOfItems items + 1 ≤ bound ↔
        0 < bound ∧ depthOfItems items ≤ bound - 1 := by
    omega
  rw [← hItems, Fits, isUsable, depth, hBound]
  exact and_left_comm

theorem fits_obj
    {bound : Nat}
    {entries : List (String × Json)} :
    Fits bound (.obj entries) ↔
      0 < bound ∧
        ∀ entry ∈ entries, Fits (bound - 1) entry.2 := by
  have hEntries :
      (entriesUsable entries = true ∧
          depthOfEntries entries ≤ bound - 1) ↔
        ∀ entry ∈ entries, Fits (bound - 1) entry.2 := by
    induction entries with
    | nil => simp [entriesUsable, depthOfEntries]
    | cons entry rest ih =>
        rw [List.forall_mem_cons, ← ih]
        simp only [entriesUsable, depthOfEntries,
          Bool.and_eq_true, Nat.max_le, Fits]
        exact and_and_and_comm
  have hBound :
      depthOfEntries entries + 1 ≤ bound ↔
        0 < bound ∧ depthOfEntries entries ≤ bound - 1 := by
    omega
  rw [← hEntries, Fits, isUsable, depth, hBound]
  exact and_left_comm

mutual

/- A variation is nested no deeper. -/
theorem Varies.fits
    {json json' : Json}
    {bound : Nat}
    (hVaries : Varies json json')
    (hFits : Fits bound json) : Fits bound json' := by
  cases hVaries with
  | scalar => exact hFits
  | list hItems =>
      rcases fits_arr.mp hFits with ⟨hBound, hInner⟩
      exact fits_arr.mpr ⟨hBound, hItems.fits hInner⟩
  | object hKept hUnknown hScalar hOrder =>
      rcases fits_obj.mp hFits with ⟨hBound, hInner⟩
      refine fits_obj.mpr ⟨hBound, ?_⟩
      intro entry hMem
      have hEither := hOrder.mem_iff.mp hMem
      rcases List.mem_append.mp hEither with hOld | hNew
      · exact hKept.fits hInner entry hOld
      · exact (hScalar entry hNew).fits _

theorem ItemsVary.fits
    {items items' : List Json}
    {bound : Nat}
    (hVary : ItemsVary items items')
    (hFits : ∀ item ∈ items, Fits bound item) :
    ∀ item ∈ items', Fits bound item := by
  cases hVary with
  | nil => exact hFits
  | cons hItem hRest =>
      rw [List.forall_mem_cons] at hFits ⊢
      exact ⟨hItem.fits hFits.1, hRest.fits hFits.2⟩

theorem EntriesVary.fits
    {entries entries' : List (String × Json)}
    {bound : Nat}
    (hVary : EntriesVary entries entries')
    (hFits : ∀ entry ∈ entries, Fits bound entry.2) :
    ∀ entry ∈ entries', Fits bound entry.2 := by
  cases hVary with
  | nil => exact hFits
  | cons hValue hRest =>
      rw [List.forall_mem_cons] at hFits ⊢
      exact ⟨hValue.fits hFits.1, hRest.fits hFits.2⟩

end

------------------------------------------------------------
-- Records
------------------------------------------------------------

/-
  The value under a key is found wherever it has moved, and
  what is left without it is a variation of what was there
  besides it.
-/
theorem Varies.peel
    {key : String}
    {value json' : Json}
    {entries : List (String × Json)}
    (hKey : key ∉ keysOf entries)
    (hVaries : Varies (.obj ((key, value) :: entries)) json') :
    ∃ value' entries',
      json' = .obj entries' ∧
        valueOf? entries' key = some (some value') ∧
        Varies value value' ∧
        Varies (.obj entries)
          (.obj (entries'.filter (·.1 ≠ key))) := by
  cases hVaries with
  | scalar hScalar => exact absurd hScalar id
  | @object _ _ added entries' hKept hUnknown hScalar hOrder =>
    cases hKept with
    | @cons _ _ value' _ kept hValue hRest =>
      have hOthers :
          ∀ entry ∈ kept ++ added, entry.1 ≠ key := by
        intro entry hMem hEq
        rcases List.mem_append.mp hMem with hOld | hNew
        · apply hKey
          rw [← hRest.keysOf_eq, ← hEq]
          exact List.mem_map_of_mem hOld
        · apply hUnknown entry hNew
          rw [hEq]
          exact List.mem_cons_self
      have hNone :
          (kept ++ added).filter (·.1 = key) = [] :=
        List.filter_eq_nil_iff.mpr
          fun entry hMem => by simpa using hOthers entry hMem
      have hAll :
          (kept ++ added).filter (·.1 ≠ key) =
            kept ++ added :=
        List.filter_eq_self.mpr
          fun entry hMem => by simpa using hOthers entry hMem
      have hAt :
          entries'.filter (·.1 = key) = [(key, value')] := by
        have hPerm := hOrder.filter (·.1 = key)
        rw [List.cons_append,
          List.filter_cons_of_pos (by simp), hNone] at hPerm
        exact List.perm_singleton.mp hPerm
      have hElse :
          (entries'.filter (·.1 ≠ key)).Perm
            (kept ++ added) := by
        have hPerm := hOrder.filter (·.1 ≠ key)
        rw [List.cons_append,
          List.filter_cons_of_neg (by simp), hAll] at hPerm
        exact hPerm
      refine ⟨value', entries', rfl, ?_, hValue, ?_⟩
      · simp only [valueOf?, valuesOf, hAt]
        rfl
      · refine .object hRest ?_ hScalar hElse
        intro entry hNew hMem
        exact hUnknown entry hNew
          (List.mem_cons_of_mem key hMem)

/- The values of other keys are found without a key. -/
theorem valueOf?_filter
    {key other : String}
    (hOther : other ≠ key)
    (entries : List (String × Json)) :
    valueOf? (entries.filter (·.1 ≠ key)) other =
      valueOf? entries other := by
  have hFilter :
      (entries.filter (·.1 ≠ key)).filter (·.1 = other) =
        entries.filter (·.1 = other) := by
    rw [List.filter_filter]
    apply List.filter_congr
    intro entry _
    by_cases hEq : entry.1 = other
    · simp [hEq, hOther]
    · simp [hEq]
  simp only [valueOf?, valuesOf, hFilter]

theorem mapM_valueOf?_filter
    {key : String}
    {keys : List String}
    (hKey : key ∉ keys)
    (entries : List (String × Json)) :
    keys.mapM (valueOf? (entries.filter (·.1 ≠ key))) =
      keys.mapM (valueOf? entries) := by
  induction keys with
  | nil => rfl
  | cons other rest ih =>
      rw [List.mem_cons, not_or] at hKey
      rw [List.mapM_cons, List.mapM_cons, ih hKey.2,
        valueOf?_filter (Ne.symm hKey.1)]

/-
  The values of a record stand under its keys in every
  variation of it.
-/
theorem Varies.exists_values
    {entries : List (String × Json)}
    {json' : Json}
    (hKeys : (keysOf entries).Nodup)
    (hVaries : Varies (.obj entries) json') :
    ∃ values,
      json'.record? (keysOf entries) =
          some (values.map some) ∧
        ItemsVary (entries.map (·.2)) values := by
  induction entries generalizing json' with
  | nil =>
      cases hVaries with
      | scalar hScalar => exact absurd hScalar id
      | object => exact ⟨[], rfl, .nil⟩
  | cons entry rest ih =>
      rcases entry with ⟨key, value⟩
      have hSplit :
          key ∉ keysOf rest ∧ (keysOf rest).Nodup :=
        List.nodup_cons.mp hKeys
      rcases hSplit with ⟨hKey, hRest⟩
      rcases hVaries.peel hKey with
        ⟨value', entries', rfl, hFound, hValue, hOthers⟩
      rcases ih hRest hOthers with
        ⟨values, hRecord, hValues⟩
      have hSame :
          (keysOf rest).mapM (valueOf? entries') =
            some (values.map some) := by
        rw [← mapM_valueOf?_filter hKey]
        exact hRecord
      refine ⟨value' :: values, ?_, .cons hValue hValues⟩
      simp only [Json.record?, keysOf, List.map_cons,
        List.mapM_cons, hFound] at hSame ⊢
      rw [hSame]
      rfl

end Json

end ProtoSchema
