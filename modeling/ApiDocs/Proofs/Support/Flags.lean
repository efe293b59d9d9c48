import ApiDocs.Support

/-! Sessions with a library, by the backends that are set before and after. Setting a backend and unsetting it again is
one round, whatever the library answers in between, so all rounds start from the same backends, and the flag of a round
says what the library answers with the round's backend on top of them. -/

set_option autoImplicit false

namespace ApiDocs.Support

/-- A session ends well: from some backends it comes to others, with a result that does not depend on what was asked
before. -/
def Yields {α : Type} (session : Session α) (before : List Text) (result : α) (after : List Text) : Prop :=
  ∀ events, ∃ later, session.run.run ⟨before, events⟩ = (.ok result, ⟨after, later⟩)

section
variable {α β : Type} {before between after stack : List Text}

theorem yields_pure (result : α) (stack : List Text) : Yields (pure result) stack result stack :=
  fun events => ⟨events, rfl⟩

theorem Yields.bind {session : Session α} {next : α → Session β} {result : α} {final : β}
    (first : Yields session before result between) (second : Yields (next result) between final after) :
    Yields (session >>= next) before final after := by
  intro events
  obtain ⟨middle, run⟩ := first events
  obtain ⟨later, rest⟩ := second middle
  refine ⟨later, ?_⟩
  rw [ExceptT.run_bind, StateT.run_bind, run]
  exact rest

theorem Yields.get {next : State → Session β} {final : β}
    (rest : ∀ events, Yields (next ⟨before, events⟩) before final after) :
    Yields (get >>= next) before final after :=
  fun events => rest events events

theorem yields_log (event : Event) (stack : List Text) : Yields (log event) stack () stack :=
  fun events => ⟨events ++ [event], rfl⟩

theorem yields_setBackend {library : Library} {backend : Text} (settable : backend ∉ library.broken)
    (stack : List Text) :
    Yields (setBackend library backend) stack () (backend :: stack) := by
  refine (yields_log (.set backend) stack).bind ?_
  rw [if_neg (by simpa using settable)]
  exact fun events => ⟨events, rfl⟩

theorem yields_unsetBackend (backend : Text) (stack : List Text) : Yields unsetBackend (backend :: stack) () stack :=
  (yields_log .unset _).bind fun events => ⟨events, rfl⟩

theorem yields_mapM {round : α → Session β} {result : α → β} {items : List α}
    (each : ∀ item ∈ items, Yields (round item) stack (result item) stack) :
    Yields (items.mapM round) stack (items.map result) stack := by
  induction items with
  | nil => exact yields_pure [] stack
  | cons item items ih =>
    rw [List.mapM_cons]
    have first := each item List.mem_cons_self
    have rest := ih fun other member => each other (List.mem_cons_of_mem item member)
    exact first.bind (rest.bind (yields_pure _ stack))

end

section
variable {library : Library} {name device backend : Text} {stack : List Text}

/-- One round: the flag is what the library answers with the backend on top. -/
theorem yields_flag (settable : backend ∉ library.broken) :
    Yields (flag library name device backend) stack ((library.answer? (backend :: stack) name).any (·.supports device))
      stack := by
  have closing : ∀ supported : Bool, Yields (do unsetBackend; return supported) (backend :: stack) supported stack :=
    fun supported => (yields_unsetBackend backend stack).bind (yields_pure supported stack)
  refine (yields_setBackend settable stack).bind (Yields.get fun events => ?_)
  cases known : library.answer? (backend :: stack) name with
  | none => exact (yields_pure false _).bind (closing false)
  | some answer => exact (yields_log (.query name) _).bind ((yields_pure (answer.supports device) _).bind (closing _))

def rounds : List (Text × Text) := devices.flatMap fun device => backends.map fun backend => (device, backend)

theorem yields_flags? (settable : ∀ backend ∈ backends, backend ∉ library.broken) (name : Text) (stack : List Text) :
    Yields (flags? library name) stack
      ((library.answer? stack (baseName name)).map fun _ =>
        rounds.map fun round => (library.answer? (round.2 :: stack) (baseName name)).any (·.supports round.1))
          stack := by
  have each : ∀ round ∈ rounds, Yields (flag library (baseName name) round.1 round.2) stack
      ((library.answer? (round.2 :: stack) (baseName name)).any (·.supports round.1)) stack := by
    intro round member
    obtain ⟨device, _, other⟩ := List.mem_flatMap.mp member
    obtain ⟨backend, listed, rfl⟩ := List.mem_map.mp other
    exact yields_flag (settable backend listed)
  refine Yields.get fun events => ?_
  cases known : library.answer? stack (baseName name) with
  | none => exact yields_pure none stack
  | some answer => exact (yields_mapM each).bind (yields_pure _ stack)

end

theorem mark_eq_tick_iff {supported : Bool} : mark supported = "✅" ↔ supported = true := by
  cases supported <;> decide

theorem any_supports_iff {answer? : Option Devices} {device : Text} :
    answer?.any (·.supports device) = true ↔ ∃ answer, answer? = some answer ∧ answer.holds? device = some false := by
  cases answer? <;> simp [Devices.supports]

/-- If all backends can be set, asking for flags leaves the backends as they were, and there are flags exactly if the
library has the function without more backends: eight of them, a tick for each device and backend with which the library
has the function and answers with devices that do not hold this one. -/
theorem flags?_outcome (library : Library) (settable : ∀ backend ∈ backends, backend ∉ library.broken) (name : Text)
    (state : State) :
    ((flags? library name).run.run state).2.stack = state.stack ∧
      ∃ result, ((flags? library name).run.run state).1 = .ok result ∧
        (result = none ↔ library.answer? state.stack (baseName name) = none) ∧
        ∀ flags, result = some flags → flags.length = 8 ∧
          ∀ row device column backend, (["cpu", "gpu"] : List Text)[row]? = some device →
            (["jax", "numpy", "tensorflow", "torch"] : List Text)[column]? = some backend →
            ∃ supported, flags[4 * row + column]? = some supported ∧
              (mark supported = "✅" ↔ ∃ answer, library.answer? (backend :: state.stack) (baseName name) = some answer ∧
                answer.holds? device = some false) := by
  obtain ⟨stack, events⟩ := state
  obtain ⟨later, run⟩ := yields_flags? settable name stack events
  rw [run]
  refine ⟨rfl, _, rfl, Option.map_eq_none_iff, fun flags found => ?_⟩
  obtain ⟨_, _, rfl⟩ := Option.map_eq_some_iff.mp found
  refine ⟨rfl, fun row device column backend rowed columned => ?_⟩
  have placed : rounds[4 * row + column]? = some (device, backend) := by
    rcases row with _ | _ | row <;> rcases column with _ | _ | _ | _ | column <;> cases rowed <;> cases columned <;> rfl
  rw [List.getElem?_map, placed]
  exact ⟨_, rfl, mark_eq_tick_iff.trans any_supports_iff⟩

def unevenLibrary : Library where
  answer?
    | [], _ => some (.ofList [])
    | backend :: _, _ =>
      if backend = "jax" then some .failure else if backend = "numpy" then none
      else if backend = "tensorflow" then some (.ofText "cpu, tpu") else some (.ofList ["gpu"])
  broken := ["mxnet"]

theorem flags?_outcome_sample :
    (∀ backend ∈ backends, backend ∉ unevenLibrary.broken) ∧
      ((flags? unevenLibrary "static_add").run.run ⟨[], []⟩).1 =
        .ok (some [false, false, false, true, false, false, true, false]) ∧
      ((flags? unevenLibrary "static_add").run.run ⟨[], []⟩).2.stack = [] := by
  have settable : ∀ backend ∈ backends, backend ∉ unevenLibrary.broken := by decide
  exact ⟨settable, rfl, (flags?_outcome unevenLibrary settable "static_add" ⟨[], []⟩).1⟩

end ApiDocs.Support
