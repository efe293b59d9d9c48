import Mathlib.Data.List.Forall2

/-! Series of steps that may fail. A series is stopped by the first step that fails, and gives the results of all its
steps if none does. -/

set_option autoImplicit false

namespace ApiDocs

/-- A series of steps that may fail: each of them succeeds, or one of them stops the series. -/
theorem mapM_cases {α β ε : Type} (step : α → Except ε β) (items : List α) :
    (∃ results, items.mapM step = .ok results ∧
      List.Forall₂ (fun item result => step item = .ok result) items results) ∨
      ∃ item ∈ items, ∃ fault, step item = .error fault ∧ items.mapM step = .error fault := by
  induction items with
  | nil => exact .inl ⟨[], rfl, .nil⟩
  | cons item items ih =>
    rw [List.mapM_cons]
    cases first : step item with
    | error fault => exact .inr ⟨item, List.mem_cons_self, fault, first, rfl⟩
    | ok result =>
      rcases ih with ⟨results, run, each⟩ | ⟨other, member, fault, failed, run⟩
      · exact .inl ⟨result :: results, by rw [run]; rfl, .cons first each⟩
      · exact .inr ⟨other, List.mem_cons_of_mem item member, fault, failed, by rw [run]; rfl⟩

theorem mapM_self {α ε : Type} {step : α → Except ε α} {items : List α} (each : ∀ item ∈ items, step item = .ok item) :
    items.mapM step = .ok items := by
  induction items with
  | nil => rfl
  | cons item items ih =>
    rw [List.mapM_cons, each item List.mem_cons_self,
      ih fun other member => each other (List.mem_cons_of_mem item member)]
    rfl

section
variable {α β ε : Type} {step : α → Except ε β} {items : List α} {results : List β}

theorem exists_result_iff (each : List.Forall₂ (fun item result => step item = .ok result) items results)
    {holds : β → Prop} :
    (∃ result ∈ results, holds result) ↔ ∃ item ∈ items, ∃ result, step item = .ok result ∧ holds result := by
  induction each with
  | nil => simp
  | cons first _ ih => simp [ih, first]

theorem exists_of_mapM (mapped : items.mapM step = .ok results) {result : β} (member : result ∈ results) :
    ∃ item ∈ items, step item = .ok result := by
  rcases mapM_cases step items with ⟨others, run, each⟩ | ⟨_, _, fault, _, run⟩
  · obtain rfl := Except.ok.inj (run.symm.trans mapped)
    obtain ⟨item, inside, _, given, rfl⟩ := (exists_result_iff each).mp ⟨result, member, rfl⟩
    exact ⟨item, inside, given⟩
  · rw [run] at mapped
    cases mapped

theorem mapM_error_iff : (∃ fault, items.mapM step = .error fault) ↔ ∃ item ∈ items, ∃ fault,
    step item = .error fault := by
  rcases mapM_cases step items with ⟨results, run, each⟩ | ⟨item, member, fault, failed, run⟩
  · have succeeds : ∀ item ∈ items, ∃ result, step item = .ok result := by
      clear run
      induction each with
      | nil => exact fun _ member => absurd member List.not_mem_nil
      | cons first _ ih => exact List.forall_mem_cons.mpr ⟨⟨_, first⟩, ih⟩
    refine ⟨fun ⟨fault, stopped⟩ => ?_, fun ⟨item, member, fault, failed⟩ => ?_⟩
    · rw [run] at stopped
      cases stopped
    · obtain ⟨result, done⟩ := succeeds item member
      rw [failed] at done
      cases done
  · exact ⟨fun _ => ⟨item, member, fault, failed⟩, fun _ => ⟨fault, run⟩⟩

/-- Two series, the second over the results of the first: the whole fails exactly if a step of the first does, or a step
of the second on what a step of the first gives. -/
theorem mapM_mapM_error_iff {γ : Type} {next : β → Except ε γ} :
    (∃ fault, (items.mapM step >>= fun results => results.mapM next) = .error fault) ↔
      (∃ item ∈ items, ∃ fault, step item = .error fault) ∨
        ∃ item ∈ items, ∃ result, step item = .ok result ∧ ∃ fault, next result = .error fault := by
  rcases mapM_cases step items with ⟨results, run, each⟩ | ⟨item, member, fault, failed, run⟩
  · have unfailing : ¬∃ item ∈ items, ∃ fault, step item = .error fault := by
      rw [← mapM_error_iff, run]
      rintro ⟨fault, stopped⟩
      cases stopped
    rw [run, or_iff_right unfailing, ← exists_result_iff each]
    exact mapM_error_iff
  · rw [run]
    exact ⟨fun _ => .inl ⟨item, member, fault, failed⟩, fun _ => ⟨fault, rfl⟩⟩

theorem mapM_mapM_ok {γ : Type} {next : β → Except ε γ} {made : α → γ}
    (each : ∀ item, (step item >>= next) = .ok (made item)) (items : List α) :
    ∃ results, items.mapM step = .ok results ∧ results.mapM next = .ok (items.map made) := by
  induction items with
  | nil => exact ⟨[], rfl, rfl⟩
  | cons item items ih =>
    obtain ⟨results, first, second⟩ := ih
    have done := each item
    cases stepped : step item with
    | error fault =>
      rw [stepped] at done
      cases done
    | ok result =>
      rw [stepped] at done
      have given : next result = .ok (made item) := done
      refine ⟨result :: results, ?_, ?_⟩
      · rw [List.mapM_cons, stepped, first]
        rfl
      · rw [List.mapM_cons, given, second]
        rfl

end

end ApiDocs
