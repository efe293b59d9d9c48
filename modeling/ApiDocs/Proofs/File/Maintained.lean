import ApiDocs.Proofs.File.Confined

/-! What stays true while a script runs. A property of the tree that every step keeps holds in the end, whether the
script succeeds or not, and as long as it holds the results of the steps are of their kind. -/

set_option autoImplicit false

namespace ApiDocs.Script

/-- A script that keeps a property of the tree and gives results of a kind. -/
def Maintains {α : Type} (site : Site) (keep : Tree → Prop) (gives : α → Prop) (script : Script α) : Prop :=
  ∀ tree, keep tree → keep (script.runOn site tree).2 ∧ ∀ value, (script.runOn site tree).1 = .ok value → gives value

abbrev Preserves {α : Type} (site : Site) (keep : Tree → Prop) (script : Script α) : Prop :=
  Maintains site keep (fun _ => True) script

section
variable {α β : Type} {site : Site} {keep : Tree → Prop}

theorem Maintains.keeps {gives : α → Prop} {script : Script α} (maintains : Maintains site keep gives script)
    {tree after : Tree} {outcome : Except Fault α} (kept : keep tree)
    (run : script.runOn site tree = (outcome, after)) : keep after := by
  have still := (maintains tree kept).1
  rwa [run] at still

theorem Maintains.pure {gives : α → Prop} {value : α} (kind : gives value) : Maintains site keep gives (pure value) :=
  fun _ kept => ⟨kept, fun _ same => Except.ok.inj same ▸ kind⟩

theorem Maintains.throw (gives : α → Prop) (fault : Fault) : Maintains site keep gives (throw fault) :=
  fun _ kept => ⟨kept, fun _ same => by cases same⟩

theorem Maintains.look {gives : α → Prop} {script : Script α} {look : Tree → Except Fault α}
    (run : ∀ tree, script.runOn site tree = (look tree, tree))
    (found : ∀ tree value, keep tree → look tree = .ok value → gives value) :
    Maintains site keep gives script := by
  intro tree kept
  rw [run]
  exact ⟨kept, fun value same => found tree value kept same⟩

theorem Maintains.bind {between : α → Prop} {gives : β → Prop} {first : Script α} {next : α → Script β}
    (begin : Maintains site keep between first)
    (rest : ∀ value, between value → Maintains site keep gives (next value)) :
    Maintains site keep gives (first >>= next) := by
  intro tree kept
  obtain ⟨middle, kind⟩ := begin tree kept
  rw [runOn_bind]
  rcases ended : first.runOn site tree with ⟨outcome, now⟩
  rw [ended] at middle kind
  cases outcome with
  | error fault => exact ⟨middle, fun _ same => by cases same⟩
  | ok value => exact rest value (kind value rfl) now middle

theorem Preserves.look {script : Script α} {look : Tree → Except Fault α}
    (run : ∀ tree, script.runOn site tree = (look tree, tree)) :
    Preserves site keep script :=
  Maintains.look run fun _ _ _ _ => trivial

theorem Preserves.ofExcept {ε : Type} (fault : ε → Fault) (value : Except ε α) :
    Preserves site keep (ofExcept fault value) := by
  cases value with
  | error error => exact .throw _ _
  | ok value => exact .pure trivial

theorem Preserves.then {first : Script α} {next : α → Script β} {gives : β → Prop} (begin : Preserves site keep first)
    (rest : ∀ value, Maintains site keep gives (next value)) : Maintains site keep gives (first >>= next) :=
  begin.bind fun value _ => rest value

theorem Preserves.forM {step : α → Script Unit} {items : List α}
    (each : ∀ item ∈ items, Preserves site keep (step item)) :
    Preserves site keep (items.forM step) := by
  induction items with
  | nil => exact .pure trivial
  | cons item items ih =>
    exact (each item List.mem_cons_self).then fun _ => ih fun other member => each other (List.mem_cons_of_mem _ member)

theorem Preserves.mapM {step : α → Script β} {items : List α} (each : ∀ item ∈ items, Preserves site keep (step item)) :
    Preserves site keep (items.mapM step) := by
  induction items with
  | nil => exact .pure trivial
  | cons item items ih =>
    rw [List.mapM_cons]
    refine (each item List.mem_cons_self).then fun _ => ?_
    exact (ih fun other member => each other (List.mem_cons_of_mem _ member)).then fun _ => .pure trivial

theorem Maintains.foldlM {kind : β → Prop} {step : β → α → Script β} {items : List α}
    (each : ∀ item ∈ items, ∀ value, kind value → Maintains site keep kind (step value item)) {start : β}
    (begin : kind start) :
    Maintains site keep kind (items.foldlM step start) := by
  induction items generalizing start with
  | nil => exact .pure begin
  | cons item items ih =>
    rw [List.foldlM_cons]
    refine (each item List.mem_cons_self start begin).bind fun value next => ?_
    exact ih (fun other member => each other (List.mem_cons_of_mem _ member)) next

/-- Directories are made if each may be made, down from the first that is missing. -/
theorem Preserves.makeDirectories {known : Text → Prop}
    (above : ∀ path, known path → Path.directory path = [] ∨ known (Path.directory path))
    (each : ∀ path, known path → Preserves site keep (makeDirectory path)) {path : Text} (start : known path)
    (existing : Bool) :
    Preserves site keep (makeDirectories path existing) := by
  have cumulative : Cumulative fun tree after => keep tree → keep after :=
    ⟨fun _ => id, fun first second kept => second (first kept)⟩
  have respects := respects_makeDirectoriesUpTo cumulative above (fun path inside tree kept =>
    (each path inside tree kept).1)
    existing (path.length + 1) start
  exact fun tree kept => ⟨respects tree kept, fun _ _ => trivial⟩

theorem Preserves.writeText {path text : Text}
    (keeps : ∀ tree place bytes, keep tree → writable path site tree = .ok (place, bytes) →
      keep (tree.put place (.file [])) ∧ (text.Plain → keep (tree.put place (.file (Utf8.bytesOf text))))) :
    Preserves site keep (writeText path text) := by
  refine fun tree kept => ⟨?_, fun _ _ => trivial⟩
  cases found : writable path site tree with
  | error refusal => rwa [runOn_writeText_refused site tree found]
  | ok pair =>
    obtain ⟨empty, whole⟩ := keeps tree pair.1 pair.2 kept found
    rcases runOn_writeText site tree found with ⟨plain, run⟩ | ⟨_, _, run⟩ <;> rw [run]
    · exact whole plain
    · exact empty

theorem Preserves.appendText {path text : Text}
    (keeps : ∀ tree place bytes, keep tree → writable path site tree = .ok (place, bytes) →
      keep (tree.put place (.file bytes)) ∧ (text.Plain → keep (tree.put place (.file (bytes ++ Utf8.bytesOf text))))) :
    Preserves site keep (appendText path text) := by
  refine fun tree kept => ⟨?_, fun _ _ => trivial⟩
  rw [Script.appendText]
  cases found : writable path site tree with
  | error refusal => rwa [runOn_appendPieces_refused site tree found]
  | ok pair =>
    obtain ⟨same, longer⟩ := keeps tree pair.1 pair.2 kept found
    rw [runOn_appendPieces site tree found]
    rcases runOn_writeAfter_single site tree pair.2 pair.1 text with ⟨plain, run⟩ | ⟨_, _, run⟩ <;> rw [run]
    · exact longer plain
    · exact same

end

theorem Maintains.names {site : Site} {keep : Tree → Prop} (sound : ∀ tree, keep tree → tree.Sound) (path : Text) :
    Maintains site keep (fun contents => ∀ name ∈ contents, Path.Named name) (Script.names path) := by
  refine Preserves.then (Preserves.look fun tree => runOn_inspect site tree) fun place => ?_
  refine Preserves.then (Preserves.look (runOn_read site ·)) fun current => ?_
  have now : Maintains site keep keep (get : Script Tree) :=
    Maintains.look (runOn_get site ·) fun tree _ kept same => Except.ok.inj same ▸ kept
  refine now.bind fun tree kept => .pure fun name member => ?_
  exact (sound tree kept).named place name (Tree.mem_names.mp ((current.arrange_perm _ _).mem_iff.mp member))

section
variable {site : Site} {touched made : Place → Prop} {base : Tree}

theorem changed_write {tree : Tree} (changed : Tree.Changed touched made base tree) {path : Text} {place : Place}
    {bytes : Bytes} (found : writable path site tree = .ok (place, bytes)) (here : touched place) (new : Bytes) :
    Tree.Changed touched made base (tree.put place (.file new)) :=
  changed.trans ((written_put found new).changed here)

section
variable {path : Text} (here : ∀ tree place bytes, writable path site tree = .ok (place, bytes) → touched place)
include here

theorem preserves_writeText (text : Text) : Preserves site (Tree.Changed touched made base) (writeText path text) :=
  .writeText fun tree place bytes changed found =>
    have inside := here tree place bytes found
    ⟨changed_write changed found inside _, fun _ => changed_write changed found inside _⟩

theorem preserves_appendText (text : Text) : Preserves site (Tree.Changed touched made base) (appendText path text) :=
  .appendText fun tree place bytes changed found =>
    have inside := here tree place bytes found
    ⟨changed_write changed found inside _, fun _ => changed_write changed found inside _⟩

end

end

end ApiDocs.Script
