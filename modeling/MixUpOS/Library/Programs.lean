import Mathlib.Logic.Basic

/-!
# Programs with state, error codes and failed assertions

A program changes a state and returns a value or an error code; `none` is a
failed assertion.  The state at an error is kept, since the code does not roll
back.

`Delivers live program state post` has two halves.  Whenever the program
succeeds, `post` holds.  From a live state it does succeed.  With a `live` that
never holds it is partial correctness.
-/

namespace MixUpOS.Library.Programs

variable {σ ε α β : Type}

/-- A program over states `σ` with error codes `ε`. -/
abbrev Program (σ ε : Type) := ExceptT ε (StateT σ Option)

/-- The outcome from a state. -/
def outcome (program : Program σ ε α) (state : σ) : Option (Except ε α × σ) :=
  (ExceptT.run program).run state

/-- A computation that fails an assertion or returns a value. -/
def asserted (value : Option α) : Program σ ε α :=
  ExceptT.mk fun state => value.map fun value => (.ok value, state)

/-- A condition that the code asserts. -/
def assert (condition : Bool) : Program σ ε Unit := asserted (if condition then some () else none)

/-- A computation without a state of its own. -/
def fallible (value : Except ε α) : Program σ ε α := ExceptT.mk fun state => some (value, state)

/-- Return the error code if the condition holds. -/
def refuseIf (condition : Bool) (code : ε) : Program σ ε Unit :=
  fallible (if condition then .error code else .ok ())

/-- A program with other error codes. -/
def mapErrors {δ : Type} (change : ε → δ) (program : Program σ ε α) : Program σ δ α :=
  ExceptT.mk fun state =>
    (outcome program state).map fun (result, later) =>
      (result.mapError change, later)

/-- A guard that changes the state before an error is returned. -/
def onError (program : Program σ ε α) (cleanup : σ → σ) : Program σ ε α := ExceptT.mk fun state =>
    (outcome program state).map fun (result, later) =>
      match result with
      | .ok value => (.ok value, later)
      | .error code => (.error code, cleanup later)

/-- A program whose errors are failed assertions. -/
def mustSucceed (program : Program σ ε α) : Program σ ε α := ExceptT.mk fun state =>
    match outcome program state with
    | some (.ok value, later) => some (.ok value, later)
    | _ => none

section

variable {program : Program σ ε α} {next : α → Program σ ε β}

theorem outcome_bind : outcome (program >>= next) state = (outcome program state).bind fun
      | (.ok value, later) => outcome (next value) later
      | (.error code, later) => some (.error code, later) := by
  change Option.bind _ _ = Option.bind _ _
  apply congrArg
  funext result
  obtain ⟨value | code, later⟩ := result <;> rfl

theorem outcome_bind_ok : outcome (program >>= next) state = some (.ok value, last) ↔
      ∃ middle later, outcome program state = some (.ok middle, later) ∧
        outcome (next middle) later = some (.ok value, last) := by
  rw [outcome_bind]
  constructor
  · intro success
    obtain ⟨⟨result, later⟩, first, second⟩ := Option.bind_eq_some_iff.mp success
    cases result with
    | ok middle => exact ⟨middle, later, first, second⟩
    | error code => cases second
  · intro success
    obtain ⟨middle, later, first, second⟩ := success
    rw [first]
    exact second

theorem outcome_bind_error : outcome (program >>= next) state = some (.error code, last) ↔
      outcome program state = some (.error code, last) ∨
        ∃ middle later, outcome program state = some (.ok middle, later) ∧
          outcome (next middle) later = some (.error code, last) := by
  rw [outcome_bind]
  constructor
  · intro failure
    obtain ⟨⟨result, later⟩, first, second⟩ := Option.bind_eq_some_iff.mp failure
    cases result with
    | ok middle => exact .inr ⟨middle, later, first, second⟩
    | error other =>
      cases second
      exact .inl first
  · rintro (failure | ⟨middle, later, first, second⟩)
    · rw [failure]
      rfl
    · rw [first]
      exact second

theorem outcome_mapErrors {change : ε → δ} :
    outcome (mapErrors change program) state = (outcome program state).map fun (result, later) =>
        (result.mapError change, later) := rfl

theorem outcome_mapErrors_ok {change : ε → δ} :
    outcome (mapErrors change program) state = some (.ok value, later) ↔
      outcome program state = some (.ok value, later) := by
  rw [outcome_mapErrors]
  cases outcome program state with
  | none => simp
  | some pair =>
    obtain ⟨code | found, reached⟩ := pair
    · constructor <;> rintro ⟨⟩
    · constructor <;> rintro ⟨⟩ <;> rfl

theorem outcome_mapErrors_error {change : ε → δ} {failure : δ} :
    outcome (mapErrors change program) state = some (.error failure, later) ↔
      ∃ code, outcome program state = some (.error code, later) ∧ change code = failure := by
  rw [outcome_mapErrors]
  cases outcome program state with
  | none => simp
  | some pair =>
    obtain ⟨code | found, reached⟩ := pair
    · constructor
      · rintro ⟨⟩
        exact ⟨code, rfl, rfl⟩
      · rintro ⟨other, ⟨⟩, rfl⟩
        rfl
    · constructor
      · rintro ⟨⟩
      · rintro ⟨_, ⟨⟩, _⟩

theorem outcome_onError_error : outcome (onError program cleanup) state = some (.error code, last) ↔
      ∃ later, outcome program state = some (.error code, later) ∧ cleanup later = last := by
  change (outcome program state).map _ = _ ↔ _
  cases outcome program state with
  | none => simp
  | some pair =>
    obtain ⟨other | found, reached⟩ := pair
    · simp only [Option.map_some, Option.some.injEq, Prod.mk.injEq, Except.error.injEq]
      constructor
      · rintro ⟨rfl, rfl⟩
        exact ⟨reached, ⟨rfl, rfl⟩, rfl⟩
      · rintro ⟨later, ⟨rfl, rfl⟩, rfl⟩
        exact ⟨rfl, rfl⟩
    · simp

theorem outcome_fallible_ok : outcome (fallible value) state = some (.ok result, later) ↔
      value = .ok result ∧ later = state := by
  change some (value, state) = _ ↔ _
  simp [eq_comm (a := later)]

theorem outcome_asserted_ok :
    outcome (asserted value : Program σ ε α) state = some (.ok result, later) ↔
      value = some result ∧ later = state := by
  change (value.map fun value => (Except.ok value, state)) = _ ↔ _
  cases value with
  | none => simp
  | some found => simp [eq_comm (a := later)]

theorem outcome_refuseIf_ok :
    outcome (refuseIf condition code : Program σ ε Unit) state = some (.ok nothing, later) ↔
      condition = false ∧ later = state := by
  rw [refuseIf, outcome_fallible_ok]
  cases condition with
  | false | true => simp

end

/-- Whatever its outcome is, the program leaves what `view` sees. -/
def Leaves {τ : Type} (view : σ → τ) (program : Program σ ε α) : Prop :=
  ∀ state result later, outcome program state = some (result, later) → view later = view state

section

variable {τ : Type}

theorem Leaves.bind (first : Leaves view program) (second : ∀ value, Leaves view (next value)) :
    Leaves view (program >>= next) := by
  intro state result last reached
  obtain ⟨⟨middle, later⟩, start, rest⟩ := Option.bind_eq_some_iff.mp reached
  have same := first state middle later start
  cases middle with
  | ok value => exact (second value later result last rest).trans same
  | error code =>
    cases rest
    exact same

theorem Leaves.pure (value : α) : Leaves view (Pure.pure value : Program σ ε α) := by
  rintro state result later ⟨⟩
  rfl

theorem Leaves.fallible (value : Except ε α) :
    Leaves view (Programs.fallible value : Program σ ε α) := by
  rintro state result later ⟨⟩
  rfl

theorem Leaves.asserted (value : Option α) :
    Leaves view (Programs.asserted value : Program σ ε α) := by
  intro state result later reached
  cases value with
  | none => cases reached
  | some found =>
    cases reached
    rfl

end

theorem asserted_some_bind (value : α) (next : α → Program σ ε β) :
    asserted (some value) >>= next = next value := rfl

theorem fallible_ok_bind (value : α) (next : α → Program σ ε β) :
    fallible (.ok value) >>= next = next value := rfl

/-- What a successful run establishes, and that it is successful from a live
state. -/
structure Delivers (live : σ → Prop) (program : Program σ ε α) (state : σ)
    (post : α → σ → Prop) : Prop where
  sound : ∀ value later, outcome program state = some (.ok value, later) →
    post value later ∧ (live state → live later)
  succeeds : live state → ∃ value later, outcome program state = some (.ok value, later)

section

variable {program : Program σ ε α} {next : α → Program σ ε β}

theorem Delivers.bind (first : Delivers live program state post)
    (second : ∀ value later, post value later → Delivers live (next value) later last) :
    Delivers live (program >>= next) state last := by
  constructor
  · intro value final success
    obtain ⟨middle, later, reached, rest⟩ := outcome_bind_ok.mp success
    obtain ⟨established, alive⟩ := first.sound middle later reached
    obtain ⟨result, aliveNext⟩ := (second middle later established).sound value final rest
    exact ⟨result, fun start => aliveNext (alive start)⟩
  · intro start
    obtain ⟨middle, later, reached⟩ := first.succeeds start
    obtain ⟨established, alive⟩ := first.sound middle later reached
    obtain ⟨value, final, rest⟩ := (second middle later established).succeeds (alive start)
    exact ⟨value, final, outcome_bind_ok.mpr ⟨middle, later, reached, rest⟩⟩

theorem Delivers.weaken (delivers : Delivers live program state post)
    (implies : ∀ value later, post value later → weaker value later) :
    Delivers live program state weaker := by
  refine ⟨?_, delivers.succeeds⟩
  intro value later success
  obtain ⟨established, alive⟩ := delivers.sound value later success
  exact ⟨implies value later established, alive⟩

/-- A program that leaves the state, and what is known behind it. -/
theorem Delivers.bind_keeping {known : α → Prop}
    (checked : Delivers live program state fun value later => known value ∧ later = state)
    (rest : ∀ value, known value → Delivers live (next value) state last) :
    Delivers live (program >>= next) state last := by
  apply checked.bind
  intro value later ⟨holds, same⟩
  rw [same]
  exact rest value holds

/-- A program that succeeds with a known value and state. -/
theorem Delivers.of_outcome (result : outcome program state = some (.ok value, later))
    (alive : live state → live later) (established : post value later) :
    Delivers live program state post := by
  refine ⟨?_, fun _ => ⟨value, later, result⟩⟩
  intro other final success
  rw [result] at success
  cases success
  exact ⟨established, alive⟩

theorem Delivers.pure (established : post value state) :
    Delivers live (Pure.pure value : Program σ ε α) state post :=
  .of_outcome rfl id established

/-- A program that cannot succeed needs a state that is not live. -/
theorem Delivers.of_failure (dead : ¬ live state)
    (failure : ∀ value later, outcome program state ≠ some (.ok value, later)) :
    Delivers live program state post :=
  ⟨fun value later success => absurd success (failure value later), fun start => absurd start dead⟩

theorem Delivers.fallible {value : Except ε α}
    (nonfailing : live state → ∃ result, value = .ok result)
    (established : ∀ result, value = .ok result → post result state) :
    Delivers live (Programs.fallible value) state post := by
  cases value with
  | ok result => exact .of_outcome rfl id (established result rfl)
  | error code =>
    apply Delivers.of_failure
    · intro start
      obtain ⟨result, never⟩ := nonfailing start
      cases never
    · intro value later success
      cases success

theorem Delivers.fallible_bind {value : Except ε α}
    (nonfailing : live state → ∃ result, value = .ok result)
    (rest : ∀ result, value = .ok result → Delivers live (next result) state last) :
    Delivers live (Programs.fallible value >>= next) state last :=
  .bind_keeping (.fallible nonfailing fun _ equal => ⟨equal, rfl⟩) rest

/-- After an assertion the condition is known. -/
theorem Delivers.assert {post : Unit → σ → Prop} (nonfailing : live state → condition = true)
    (established : condition = true → post () state) :
    Delivers live (Programs.assert condition : Program σ ε Unit) state post := by
  cases condition with
  | true => exact .of_outcome rfl id (established rfl)
  | false =>
    apply Delivers.of_failure
    · intro start
      cases nonfailing start
    · intro value later success
      cases success

theorem Delivers.assert_bind {next : Program σ ε β} (nonfailing : live state → condition = true)
    (rest : condition = true → Delivers live next state last) :
    Delivers live (Programs.assert condition >>= fun _ => next) state last :=
  .bind_keeping (.assert nonfailing fun passed => ⟨passed, rfl⟩) fun _ => rest

/-- Where a refusal did not happen, its condition fails. -/
theorem Delivers.refuseIf {post : Unit → σ → Prop} (nonfailing : live state → condition = false)
    (established : condition = false → post () state) :
    Delivers live (Programs.refuseIf condition code : Program σ ε Unit) state post := by
  apply Delivers.fallible
  · intro start
    rw [nonfailing start]
    exact ⟨(), rfl⟩
  · intro _ passed
    cases condition with
    | false => exact established rfl
    | true => cases passed

theorem Delivers.refuseIf_bind {next : Program σ ε β} (nonfailing : live state → condition = false)
    (rest : condition = false → Delivers live next state last) :
    Delivers live (Programs.refuseIf condition code >>= fun _ => next) state last :=
  .bind_keeping (.refuseIf nonfailing fun passed => ⟨passed, rfl⟩) fun _ => rest

theorem Delivers.mustSucceed (delivers : Delivers live program state post) :
    Delivers live (Programs.mustSucceed program) state post := by
  have same : ∀ value later, outcome (Programs.mustSucceed program) state =
          some (.ok value, later) ↔
        outcome program state = some (.ok value, later) := by
    intro value later
    change (match outcome program state with
      | some (.ok value, later) => some (Except.ok value, later)
      | _ => none) = _ ↔ _
    split
    next success => rw [success]
    next failure =>
      constructor
      · intro never
        cases never
      · intro success
        exact absurd success (failure value later)
  constructor
  · intro value later success
    exact delivers.sound value later ((same value later).mp success)
  · intro start
    obtain ⟨value, later, success⟩ := delivers.succeeds start
    exact ⟨value, later, (same value later).mpr success⟩

end

end MixUpOS.Library.Programs
