import ApiDocs.Proofs.File.Change

/-! Two runs side by side. A script follows another one if, from related trees, it succeeds where the other
does, with a related value, and the trees that the two leave are related again. -/

set_option autoImplicit false

namespace ApiDocs

namespace Script

def Follows {α β : Type} (site : Site) (pre post : Tree → Tree → Prop) (related : α → β → Prop)
    (first : Script α) (second : Script β) : Prop :=
  ∀ tree other value after, pre tree other → first.runOn site tree = (.ok value, after) →
    ∃ result final, second.runOn site other = (.ok result, final) ∧ related value result ∧ post after final

section
variable {α β γ δ : Type} {site : Site} {pre mid post : Tree → Tree → Prop} {related : α → β → Prop}
  {outcome : γ → δ → Prop}

theorem Follows.pure {value : α} {result : β} (holds : related value result) :
    Follows site pre pre related (pure value) (pure result) := by
  intro tree other inner after kept run
  cases run
  exact ⟨result, other, rfl, holds, kept⟩

theorem Follows.throw {fault : Fault} {second : Script β} :
    Follows site pre post related (throw fault) second := by
  intro tree other value after _ run
  cases run

theorem Follows.bind {first : Script α} {second : Script β} {next : α → Script γ} {further : β → Script δ}
    (begin : Follows site pre mid related first second)
    (rest : ∀ value result, related value result → Follows site mid post outcome (next value) (further result)) :
    Follows site pre post outcome (first >>= next) (second >>= further) := by
  intro tree other value after kept run
  obtain ⟨inner, between, begun, ended⟩ := runOn_bind_ok run
  obtain ⟨result, middle, begun', holds, kept⟩ := begin _ _ _ _ kept begun
  obtain ⟨last, final, ended', holds, kept⟩ := rest inner result holds _ _ _ _ kept ended
  exact ⟨last, final, by rw [runOn_bind, begun', andThen_ok, ended'], holds, kept⟩

theorem Follows.andThen {first second : Script α} {next : α → Script γ} {further : α → Script δ}
    (begin : Follows site pre mid Eq first second)
    (rest : ∀ value, Follows site mid post outcome (next value) (further value)) :
    Follows site pre post outcome (first >>= next) (second >>= further) := by
  apply begin.bind
  rintro value _ rfl
  exact rest value

theorem Follows.weaken {pre' post' : Tree → Tree → Prop} {related' : α → β → Prop} {first : Script α}
    {second : Script β} (follows : Follows site pre post related first second)
    (before : ∀ tree other, pre' tree other → pre tree other)
    (values : ∀ value result, related value result → related' value result)
    (after : ∀ tree other, post tree other → post' tree other) :
    Follows site pre' post' related' first second := by
  intro tree other value last kept run
  obtain ⟨result, final, run', holds, kept⟩ := follows _ _ _ _ (before _ _ kept) run
  exact ⟨result, final, run', values _ _ holds, after _ _ kept⟩

theorem Follows.forM {keep : Tree → Tree → Prop} {items : List α} {step other : α → Script Unit}
    (each : ∀ item ∈ items, Follows site keep keep Eq (step item) (other item)) :
    Follows site keep keep Eq (items.forM step) (items.forM other) := by
  induction items with
  | nil => exact Follows.pure rfl
  | cons item items ih =>
    apply Follows.andThen (each item List.mem_cons_self)
    exact fun _ => ih fun other member => each other (List.mem_cons_of_mem _ member)

theorem Follows.mapM {keep : Tree → Tree → Prop} {items : List α} {step other : α → Script γ}
    (each : ∀ item ∈ items, Follows site keep keep Eq (step item) (other item)) :
    Follows site keep keep Eq (items.mapM step) (items.mapM other) := by
  induction items with
  | nil =>
    rw [List.mapM_nil, List.mapM_nil]
    exact Follows.pure rfl
  | cons item items ih =>
    rw [List.mapM_cons, List.mapM_cons]
    apply Follows.andThen (each item List.mem_cons_self)
    intro value
    apply Follows.andThen (ih fun other member => each other (List.mem_cons_of_mem _ member))
    exact fun _ => Follows.pure rfl

theorem Follows.filterMapM {keep : Tree → Tree → Prop} {holds : γ → Prop} {items : List α}
    {step other : α → Script (Option γ)}
    (each : ∀ item ∈ items, Follows site keep keep (fun found found' => found = found' ∧ ∀ value, found = some value →
      holds value)
      (step item) (other item)) :
    Follows site keep keep (fun found found' => found = found' ∧ ∀ value ∈ found, holds value)
      (items.filterMapM step) (items.filterMapM other) := by
  induction items with
  | nil => exact Follows.pure ⟨rfl, fun _ member => absurd member List.not_mem_nil⟩
  | cons item items ih =>
    rw [List.filterMapM_cons, List.filterMapM_cons]
    have rest := ih fun other member => each other (List.mem_cons_of_mem _ member)
    apply (each item List.mem_cons_self).bind
    rintro found _ ⟨rfl, new⟩
    cases found with
    | none => exact rest
    | some value =>
      apply rest.bind
      rintro values _ ⟨rfl, every⟩
      exact Follows.pure ⟨rfl, List.forall_mem_cons.mpr ⟨new value rfl, every⟩⟩

theorem Follows.foldlM {keep : Tree → Tree → Prop} {holds : γ → Prop} {items : List α} {start : γ}
    {step other : γ → α → Script γ} (begin : holds start)
    (each : ∀ state, ∀ item ∈ items, holds state →
      Follows site keep keep (fun next next' => next = next' ∧ holds next) (step state item) (other state item)) :
    Follows site keep keep (fun last last' => last = last' ∧ holds last)
      (items.foldlM step start) (items.foldlM other start) := by
  induction items generalizing start with
  | nil => exact Follows.pure ⟨rfl, begin⟩
  | cons item items ih =>
    rw [List.foldlM_cons, List.foldlM_cons]
    apply (each start item List.mem_cons_self begin).bind
    rintro next _ ⟨rfl, kept⟩
    exact ih kept fun state other member => each state other (List.mem_cons_of_mem _ member)

/-- Items that only one of two loops has do not count, if they change nothing that is compared. -/
theorem Follows.forM_filter {keep : Tree → Tree → Prop} {items others : List α} {test : α → Bool}
    {step other : α → Script Unit} (same : items.filter test = others.filter test)
    (each : ∀ item ∈ items, test item = true → Follows site keep keep Eq (step item) (other item))
    (left : ∀ item ∈ items, test item = false → ∀ tree counterpart after, keep tree counterpart →
      (step item).runOn site tree = (.ok (), after) → keep after counterpart)
    (right : ∀ item ∈ others, test item = false → ∀ tree counterpart, keep tree counterpart →
      ∃ final, (other item).runOn site counterpart = (.ok (), final) ∧ keep tree final) :
    Follows site keep keep Eq (items.forM step) (others.forM other) := by
  -- what the second loop has in front of the next common item is run first
  have ahead : ∀ more : List α, more ⊆ others → (∀ item ∈ more, test item = false) → ∀ tree counterpart,
      keep tree counterpart → ∃ final, (more.forM other).runOn site counterpart = (.ok (), final) ∧
        keep tree final := by
    intro more
    induction more with
    | nil => exact fun _ _ tree counterpart kept => ⟨counterpart, rfl, kept⟩
    | cons item more ih =>
      intro inside silent tree counterpart kept
      obtain ⟨between, run, kept⟩ :=
        right item (inside List.mem_cons_self) (silent item List.mem_cons_self) tree counterpart kept
      obtain ⟨final, rest, kept⟩ := ih (fun _ member => inside (List.mem_cons_of_mem _ member))
        (fun _ member => silent _ (List.mem_cons_of_mem _ member)) tree between kept
      exact ⟨final, by rw [runOn_forM_cons, run, andThen_ok, rest], kept⟩
  induction items generalizing others with
  | nil =>
    intro tree counterpart value after kept run
    cases run
    obtain ⟨final, run, kept⟩ := ahead others (fun _ member => member)
      (fun item member => by simpa using List.filter_eq_nil_iff.mp same.symm item member) tree counterpart kept
    exact ⟨(), final, run, rfl, kept⟩
  | cons item items ih =>
    have further : ∀ more : List α, more ⊆ others → items.filter test = more.filter test →
        Follows site keep keep Eq (items.forM step) (more.forM other) := by
      intro more inside same
      apply ih same
      · exact fun other member => each other (List.mem_cons_of_mem _ member)
      · exact fun other member => left other (List.mem_cons_of_mem _ member)
      · exact fun other member => right other (inside member)
      · exact fun part within => ahead part fun _ member => inside (within member)
    intro tree counterpart value after kept run
    obtain ⟨_, between, first, rest⟩ := runOn_bind_ok run
    cases tested : test item with
    | false =>
      rw [List.filter_cons_of_neg (by simp [tested])] at same
      have kept := left item List.mem_cons_self tested tree counterpart between kept first
      exact further others (fun _ member => member) same between counterpart value after kept rest
    | true =>
      rw [List.filter_cons_of_pos tested] at same
      obtain ⟨front, more, rfl, silent, tested', same⟩ := List.filter_eq_cons_iff.mp same.symm
      obtain ⟨middle, begun, kept⟩ := ahead front (List.subset_append_left _ _)
        (fun item member => by simpa using silent item member) tree counterpart kept
      obtain ⟨_, next, second, _, kept⟩ := each item List.mem_cons_self tested tree middle () between kept first
      obtain ⟨last, final, ended, _, kept⟩ := further more
        (fun _ member => List.mem_append_right _ (List.mem_cons_of_mem _ member)) same.symm between next
          value after kept rest
      refine ⟨(), final, ?_, rfl, kept⟩
      rw [runOn_forM_append, begun, andThen_ok, runOn_forM_cons, second, andThen_ok, ended]

theorem Follows.ofExcept {ε : Type} {fault : ε → Fault} {first : Except ε α} {second : Except ε β}
    (holds : ∀ value, first = .ok value → ∃ result, second = .ok result ∧ related value result) :
    Follows site pre pre related (ofExcept fault first) (ofExcept fault second) := by
  intro tree other value after kept run
  cases first with
  | error defect => cases run
  | ok inner =>
    cases run
    obtain ⟨result, rfl, link⟩ := holds _ rfl
    exact ⟨result, other, rfl, link, kept⟩

theorem Follows.ofExcept_self {ε : Type} {fault : ε → Fault} {value : Except ε α} :
    Follows site pre pre Eq (Script.ofExcept fault value) (Script.ofExcept fault value) :=
  Follows.ofExcept fun inner eq => ⟨inner, eq, rfl⟩

end

end Script

namespace Tree

/-- Trees of the same shape whose files differ as `differ` allows. -/
structure Alike (differ : Place → Bytes → Bytes → Prop) (tree other : Tree) : Prop where
  shape : tree.SameShape other
  files : ∀ place first second, tree.get? place = some (.file first) → other.get? place = some (.file second) →
    first = second ∨ differ place first second

/-- What making directories and writing in some places makes of a tree. -/
structure Grown (writes : Place → Prop) (base tree : Tree) : Prop where
  sound : tree.Sound
  distinct : tree.Distinct
  directories : base.KeepsDirectories tree
  files : ∀ place bytes, ¬writes place → base.get? place = some (.file bytes) → tree.get? place = some (.file bytes)
  absent : ∀ place, ¬writes place → base.get? place = none →
    tree.get? place = none ∨ tree.get? place = some .directory

section
variable {writes : Place → Prop}

theorem Grown.refl {tree : Tree} (sound : tree.Sound) (distinct : tree.Distinct) : Grown writes tree tree :=
  ⟨sound, distinct, fun _ held => held, fun _ _ _ held => held, fun _ _ vacant => .inl vacant⟩

theorem Grown.putFile {base tree : Tree} (grown : Grown writes base tree) {place : Place} (allowed : writes place)
    (vacant : tree.get? place ≠ some .directory)
    (proper : ∃ before name, place = before ++ [name] ∧ Path.Named name ∧ tree.get? before = some .directory)
    (bytes : Bytes) : Grown writes base (tree.put place (.file bytes)) where
  sound := grown.sound.put (fun held => absurd held vacant) (.inr proper)
  distinct := grown.distinct.put _ _
  directories := fun other held => keepsDirectories_put _ vacant other (grown.directories other held)
  files := by
    intro other held inner before
    have apart : place ≠ other := by rintro rfl; exact inner allowed
    rw [get?_put_apart _ _ apart]
    exact grown.files other held inner before
  absent := by
    intro other inner before
    have apart : place ≠ other := by rintro rfl; exact inner allowed
    rw [get?_put_apart _ _ apart]
    exact grown.absent other inner before

theorem Grown.putDirectory {base tree : Tree} (grown : Grown writes base tree) {place : Place}
    (vacant : tree.get? place = none)
    (proper : ∃ before name, place = before ++ [name] ∧ Path.Named name ∧ tree.get? before = some .directory) :
    Grown writes base (tree.put place .directory) where
  sound := grown.sound.put (fun _ => rfl) (.inr proper)
  distinct := grown.distinct.put _ _
  directories := fun other held =>
    keepsDirectories_put _ (by rw [vacant]; intro eq; cases eq) other (grown.directories other held)
  files := by
    intro other held inner before
    have there := grown.files other held inner before
    have apart : place ≠ other := by rintro rfl; rw [vacant] at there; cases there
    rw [get?_put_apart _ _ apart]
    exact there
  absent := by
    intro other inner before
    by_cases apart : place = other
    · subst apart
      exact .inr (get?_put_self _ (by rw [vacant]; intro eq; cases eq))
    · rw [get?_put_apart _ _ apart]
      exact grown.absent other inner before

end

theorem Alike.put {differ : Place → Bytes → Bytes → Prop} {tree other : Tree} (alike : tree.Alike differ other)
    {place : Place} {first second : Bytes} (allowed : first = second ∨ differ place first second) :
    (tree.put place (.file first)).Alike differ (other.put place (.file second)) where
  shape := alike.shape.put place (by simp)
  files := by
    intro at_ left right held counterpart
    by_cases root : at_ = []
    · rw [root] at held; cases held
    · rw [get?_put _ _ _ _ root] at held counterpart
      split at held
      · rename_i here
        rw [if_pos here] at counterpart
        cases held
        cases counterpart
        rwa [← here]
      · rename_i apart
        rw [if_neg apart] at counterpart
        exact alike.files at_ left right held counterpart

theorem Alike.putDirectory {differ : Place → Bytes → Bytes → Prop} {tree other : Tree}
    (alike : tree.Alike differ other) (place : Place) :
    (tree.put place .directory).Alike differ (other.put place .directory) where
  shape := alike.shape.put place .rfl
  files := by
    intro at_ left right held counterpart
    by_cases root : at_ = []
    · rw [root] at held; cases held
    · rw [get?_put _ _ _ _ root] at held counterpart
      split at held
      · cases held
      · rename_i apart
        rw [if_neg apart] at counterpart
        exact alike.files at_ left right held counterpart

/-- The trees of two runs since the first one was `base`. -/
structure Twin (differ : Place → Bytes → Bytes → Prop) (writes : Place → Prop) (base tree other : Tree) :
    Prop where
  alike : tree.Alike differ other
  grown : Grown writes base tree
  distinct : other.Distinct

end Tree

def Site.Leads (site : Site) (writes : Place → Prop) (base : Tree) (path : Text) (place : Place) : Prop :=
  ∃ tree, Tree.Grown writes base tree ∧ site.locate tree path = .ok place

end ApiDocs
