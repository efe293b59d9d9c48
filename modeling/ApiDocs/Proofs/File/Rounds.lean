import ApiDocs.Proofs.File.Run

/-! Loops that succeed. Every round of a loop begins with the tree that the round before it left, so a loop keeps
what its rounds keep, and what one round brings about is there at the end if no later round undoes it. -/

set_option autoImplicit false

namespace ApiDocs.Script

/-- The rounds of a loop, from one tree to another. -/
inductive Rounds {α : Type} (round : α → Tree → Tree → Prop) : List α → Tree → Tree → Prop where
  | nil (tree : Tree) : Rounds round [] tree tree
  | cons {item : α} {items : List α} {tree between after : Tree} (first : round item tree between)
      (rest : Rounds round items between after) : Rounds round (item :: items) tree after

section
variable {α β γ : Type} {site : Site} {tree after : Tree} {items : List α}

theorem rounds_forM {step : α → Script Unit} (run : (items.forM step).runOn site tree = (.ok (), after)) :
    Rounds (fun item tree after => (step item).runOn site tree = (.ok (), after)) items tree after := by
  induction items generalizing tree with
  | nil =>
    cases run
    exact .nil _
  | cons item items ih =>
    obtain ⟨_, between, first, rest⟩ := runOn_bind_ok run
    exact .cons first (ih rest)

theorem rounds_mapM {step : α → Script β} (key : β → α) {results : List β}
    (keyed : ∀ item tree result after, (step item).runOn site tree = (.ok result, after) → key result = item)
    (run : (items.mapM step).runOn site tree = (.ok results, after)) :
    results.map key = items ∧
      Rounds (fun result tree after => (step (key result)).runOn site tree = (.ok result, after))
        results tree after := by
  induction items generalizing tree results with
  | nil =>
    cases run
    exact ⟨rfl, .nil _⟩
  | cons item items ih =>
    rw [List.mapM_cons] at run
    obtain ⟨result, between, first, later⟩ := runOn_bind_ok run
    obtain ⟨others, last, rest, done⟩ := runOn_bind_ok later
    cases done
    obtain ⟨keys, rounds⟩ := ih rest
    have own := keyed item tree result between first
    exact ⟨by rw [List.map_cons, own, keys], .cons (own.symm ▸ first) rounds⟩

theorem rounds_foldlM {step : β → α → Script β} {start final : β}
    (run : (items.foldlM step start).runOn site tree = (.ok final, after)) :
    Rounds (fun item tree after => ∃ value next, (step value item).runOn site tree = (.ok next, after))
      items tree after := by
  induction items generalizing tree start with
  | nil =>
    cases run
    exact .nil _
  | cons item items ih =>
    rw [List.foldlM_cons] at run
    obtain ⟨next, between, first, rest⟩ := runOn_bind_ok run
    exact .cons ⟨start, next, first⟩ (ih rest)

theorem runOn_filterMapM_cons_ok {step : α → Script (Option β)} {item : α} {results : List β}
    (run : ((item :: items).filterMapM step).runOn site tree = (.ok results, after)) :
    ∃ result between others, (step item).runOn site tree = (.ok result, between) ∧
      (items.filterMapM step).runOn site between = (.ok others, after) ∧ results = result.toList ++ others := by
  rw [List.filterMapM_cons] at run
  obtain ⟨result, between, first, later⟩ := runOn_bind_ok run
  cases result with
  | none => exact ⟨none, between, results, first, later, rfl⟩
  | some value =>
    obtain ⟨others, _, rest, done⟩ := runOn_bind_ok later
    cases done
    exact ⟨some value, between, others, first, rest, rfl⟩

theorem Rounds.append {round : α → Tree → Tree → Prop} {more : List α} {between : Tree}
    (begin : Rounds round items tree between) (rest : Rounds round more between after) :
    Rounds round (items ++ more) tree after := by
  induction begin with
  | nil tree => exact rest
  | cons first _ ih => exact .cons first (ih rest)

theorem Rounds.last {round : α → Tree → Tree → Prop} {final : α} (rounds : Rounds round (items ++ [final]) tree after) :
    ∃ between, Rounds round items tree between ∧ round final between after := by
  induction items generalizing tree with
  | nil =>
    cases rounds with
    | cons first rest =>
      cases rest
      exact ⟨tree, .nil tree, first⟩
  | cons item items ih =>
    cases rounds with
    | cons first rest =>
      obtain ⟨between, front, last⟩ := ih rest
      exact ⟨between, .cons first front, last⟩

variable {round : α → Tree → Tree → Prop} (rounds : Rounds round items tree after) (keep : Tree → Prop)
include rounds

theorem Rounds.map {other : β → Tree → Tree → Prop} {f : α → β}
    (each : ∀ item ∈ items, ∀ tree after, round item tree after → other (f item) tree after) :
    Rounds other (items.map f) tree after := by
  induction rounds with
  | nil tree => exact .nil tree
  | cons first rest ih =>
    exact .cons (each _ List.mem_cons_self _ _ first) (ih fun item member => each item (List.mem_cons_of_mem _ member))

theorem Rounds.imp {other : α → Tree → Tree → Prop}
    (each : ∀ item ∈ items, ∀ tree after, round item tree after → other item tree after) :
    Rounds other items tree after := by
  have same : Rounds other (items.map id) tree after := rounds.map each
  rwa [List.map_id] at same

theorem Rounds.keeps (start : keep tree)
    (each : ∀ item ∈ items, ∀ tree after, keep tree → round item tree after → keep after) : keep after := by
  induction rounds with
  | nil tree => exact start
  | cons first rest ih =>
    exact ih (each _ List.mem_cons_self _ _ start first) fun item member => each item (List.mem_cons_of_mem _ member)

/-- What the round of one item brings about is there at the end, if no other round undoes it. -/
theorem Rounds.settles (done : Tree → Prop) {chosen : α} (member : chosen ∈ items) (start : keep tree)
    (each : ∀ item ∈ items, ∀ tree after, keep tree → round item tree after → keep after)
    (makes : ∀ tree after, keep tree → round chosen tree after → done after)
    (leaves : ∀ item ∈ items, item ≠ chosen → ∀ tree after, keep tree → round item tree after → done tree →
      done after) :
    done after := by
  induction rounds with
  | nil tree => exact absurd member List.not_mem_nil
  | @cons item items tree between after first rest ih =>
    have later := fun other inside => each other (List.mem_cons_of_mem item inside)
    have kept := each item List.mem_cons_self tree between start first
    by_cases again : chosen ∈ items
    · exact ih again kept later fun other inside => leaves other (List.mem_cons_of_mem item inside)
    · -- this is the last round of the chosen item
      have here : chosen = item := (List.mem_cons.mp member).resolve_right again
      subst here
      refine (rest.keeps (fun tree => keep tree ∧ done tree) ⟨kept, makes tree between start first⟩ ?_).2
      intro other inside tree after both round
      refine ⟨later other inside tree after both.1 round, ?_⟩
      exact leaves other (List.mem_cons_of_mem chosen inside) (fun same => again (same ▸ inside)) tree after
        both.1 round both.2

theorem Rounds.all (done : α → Tree → Prop) (start : keep tree)
    (each : ∀ item ∈ items, ∀ tree after, keep tree → round item tree after → keep after ∧ done item after)
    (stays : items.Pairwise fun item other => ∀ tree after, keep tree → round other tree after → done item tree →
      done item after) : keep after ∧ ∀ item ∈ items, done item after := by
  induction rounds with
  | nil tree => exact ⟨start, fun _ member => absurd member List.not_mem_nil⟩
  | @cons item items tree between after first rest ih =>
    obtain ⟨kept, new⟩ := each item List.mem_cons_self tree between start first
    obtain ⟨leaves, stays⟩ := List.pairwise_cons.mp stays
    have later := fun other member => each other (List.mem_cons_of_mem item member)
    have ended := ih kept later stays
    have still : keep after ∧ done item after :=
      rest.keeps (fun tree => keep tree ∧ done item tree) ⟨kept, new⟩ fun other member tree after both round =>
        ⟨(later other member tree after both.1 round).1, leaves other member tree after both.1 round both.2⟩
    refine ⟨ended.1, fun other member => ?_⟩
    rcases List.mem_cons.mp member with rfl | further
    · exact still.2
    · exact ended.2 other further

end
end ApiDocs.Script
