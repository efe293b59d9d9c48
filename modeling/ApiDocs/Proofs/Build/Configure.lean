import ApiDocs.Build
import ApiDocs.Proofs.File.Pair
import ApiDocs.Proofs.File.Relative

/-! The settings of a run. They are read from three files in the start directory, so two runs whose trees agree
there run under the same settings; and what a whole run does besides is done by scripts under these settings. -/

set_option autoImplicit false

namespace ApiDocs

theorem Site.Clear.find_here {site : Site} (clear : site.Clear) {tree other : Tree} (sound : tree.Sound)
    (otherSound : other.Sound) (start : tree.get? site.start = some .directory)
    (otherStart : other.get? site.start = some .directory) {name : Text} (named : Path.Named name)
    (agree : tree.get? (site.below [name]) = other.get? (site.below [name])) :
    site.find tree (Path.join site.here name) = site.find other (Path.join site.here name) := by
  unfold Site.find
  cases accepted : Path.accept (Path.join site.here name) with
  | error refusal =>
    simp only [Site.locate, accepted, bind, Except.bind]
  | ok known =>
    have short := Path.size_le_of_accept accepted
    rw [Site.locate_join clear.sound named (clear.locate_here sound start) start short,
      Site.locate_join clear.sound named (clear.locate_here otherSound otherStart) otherStart short]
    simp only [bind, Except.bind, agree]

namespace Build

section
variable {α β : Type} {site : Site}

theorem runOn_bind (first : Build α) (next : α → Build β) (session : Session) :
    (first >>= next).runOn site session =
      match first.runOn site session with
      | (.ok value, between) => (next value).runOn site between
      | (.error fault, between) => (.error fault, between) := by
  simp only [runOn, ReaderT.run, ExceptT.run, StateT.run, bind, ReaderT.bind, ExceptT.bind, ExceptT.mk, StateT.bind]
  rcases first site session with ⟨outcome, between⟩
  cases outcome <;> rfl

theorem runOn_bind_ok {first : Build α} {next : α → Build β} {session final : Session} {value : β}
    (run : (first >>= next).runOn site session = (.ok value, final)) :
    ∃ inner between, first.runOn site session = (.ok inner, between) ∧
      (next inner).runOn site between = (.ok value, final) := by
  rw [runOn_bind] at run
  rcases eq : first.runOn site session with ⟨outcome, between⟩
  rw [eq] at run
  cases outcome with
  | error fault => cases run
  | ok inner => exact ⟨inner, between, rfl, run⟩

theorem runOn_withSettings (script : Settings → Script α) (settings : Settings) (tree : Tree) :
    (withSettings script).runOn site ⟨settings, tree⟩ =
      (((script settings).runOn site tree).1, ⟨settings, ((script settings).runOn site tree).2⟩) := rfl

/-- Settings that differ at most in what the files of the start directory set. -/
structure Kept (settings changed : Settings) : Prop where
  here : changed.here = settings.here
  library : changed.library = settings.library
  heading : changed.heading = settings.heading
  merges : changed.merges = settings.merges
  frameworks : changed.frameworks = settings.frameworks

theorem Kept.refl (settings : Settings) : Kept settings settings := ⟨rfl, rfl, rfl, rfl, rfl⟩

theorem Kept.trans {first second third : Settings} (one : Kept first second) (two : Kept second third) :
    Kept first third :=
  ⟨two.here.trans one.here, two.library.trans one.library, two.heading.trans one.heading, two.merges.trans one.merges,
    two.frameworks.trans one.frameworks⟩

/-- Steps that leave the trees as they are and do the same to the settings on both. -/
def Steady (site : Site) (tree other : Tree) (build : Build α) : Prop :=
  ∀ settings, settings.here = site.here → ∃ outcome changed, Kept settings changed ∧
    build.runOn site ⟨settings, tree⟩ = (outcome, ⟨changed, tree⟩) ∧
    build.runOn site ⟨settings, other⟩ = (outcome, ⟨changed, other⟩)

variable {tree other : Tree}

theorem Steady.pure (value : α) : Steady site tree other (pure value) :=
  fun settings _ => ⟨.ok value, settings, .refl settings, rfl, rfl⟩

theorem Steady.bind {first : Build α} {next : α → Build β} (begin : Steady site tree other first)
    (rest : ∀ value, Steady site tree other (next value)) : Steady site tree other (first >>= next) := by
  intro settings here
  obtain ⟨outcome, between, kept, left, right⟩ := begin settings here
  cases outcome with
  | error fault => exact ⟨.error fault, between, kept, by rw [runOn_bind, left], by rw [runOn_bind, right]⟩
  | ok value =>
    obtain ⟨outcome, final, kept', left', right'⟩ := rest value between (kept.here.trans here)
    exact ⟨outcome, final, kept.trans kept', by rw [runOn_bind, left, ← left'], by rw [runOn_bind, right, ← right']⟩

theorem steady_set {change : Settings → Settings} (kept : ∀ settings, Kept settings (change settings)) :
    Steady site tree other (set change) :=
  fun settings _ => ⟨.ok (), change settings, kept settings, rfl, rfl⟩

end

variable {site : Site} {tree other : Tree}

theorem steady_settingLines {name : Text}
    (agree : site.find tree (Path.join site.here name) = site.find other (Path.join site.here name)) :
    Steady site tree other (settingLines? name) := by
  have bytes : Script.bytesAt site tree (Path.join site.here name) =
      Script.bytesAt site other (Path.join site.here name) := by
    unfold Script.bytesAt
    rw [agree]
  have lines : Script.linesAt site tree (Path.join site.here name) =
      Script.linesAt site other (Path.join site.here name) := by
    unfold Script.linesAt
    rw [bytes]
  intro settings here
  unfold settingLines?
  rw [runOn_withSettings, runOn_withSettings]
  dsimp only
  rw [here, Script.runOn_bind, Script.runOn_bind, Script.runOn_present, Script.runOn_present, ← agree]
  simp only [Script.andThen_ok]
  cases (site.find tree (Path.join site.here name)).toOption.isSome with
  | false => exact ⟨.ok none, settings, .refl settings, rfl, rfl⟩
  | true =>
    rw [if_pos rfl, Script.runOn_bind, Script.runOn_bind, Script.runOn_readLines, Script.runOn_readLines, ← lines]
    cases Script.linesAt site tree (Path.join site.here name) with
    | error fault => exact ⟨.error fault, settings, .refl settings, rfl, rfl⟩
    | ok found => exact ⟨.ok (some found.tail), settings, .refl settings, rfl, rfl⟩

def settingNames : List Text := ["submods_to_skip.txt", "submods_to_step.txt", "submod_orders.txt"]

theorem steady_readSettings
    (agree : ∀ name ∈ settingNames,
      site.find tree (Path.join site.here name) = site.find other (Path.join site.here name)) :
    Steady site tree other readSettings := by
  have found : ∀ name ∈ settingNames, Steady site tree other (settingLines? name) :=
    fun name member => steady_settingLines (agree name member)
  have skips : ∀ lines : List Text, Steady site tree other
      (set fun settings => { settings with skipped := lines.map (Text.replace "\n" "") }) :=
    fun _ => steady_set fun _ => ⟨rfl, rfl, rfl, rfl, rfl⟩
  have steps : ∀ lines : List Text, Steady site tree other
      (set fun settings => { settings with stepped := lines.map (Text.replace "\n" "") }) :=
    fun _ => steady_set fun _ => ⟨rfl, rfl, rfl, rfl, rfl⟩
  unfold readSettings
  -- each setting is given or not, and the rest is the same
  apply (found _ (by decide)).bind
  intro skipped
  cases skipped
  case' some lines => refine Steady.bind (skips lines) fun _ => ?_
  all_goals
    apply (found _ (by decide)).bind
    intro stepped
    cases stepped
    case' some lines => refine Steady.bind (steps lines) fun _ => ?_
    all_goals
      apply (found _ (by decide)).bind
      intro ordered
      cases ordered with
      | none => exact Steady.pure ()
      | some lines => exact steady_set fun _ => ⟨rfl, rfl, rfl, rfl, rfl⟩

theorem runOn_configure (library : Text) (heading : Heading) (initial : Settings) (tree : Tree) :
    (configure library heading).runOn site ⟨initial, tree⟩ =
      (do
        readSettings
        if Text.lower (projectTitle library) = "ivy" then
          set fun settings => { settings with merges := true } : Build Unit).runOn site
        ⟨{ initial with here := site.here, library, heading }, tree⟩ := rfl

/-- A run is set up alike on trees that agree on the files that set it up. -/
theorem configure_alike
    (agree : ∀ name ∈ settingNames,
      site.find tree (Path.join site.here name) = site.find other (Path.join site.here name))
    (library : Text) (heading : Heading) (initial : Settings) :
    ∃ outcome settings, settings.here = site.here ∧
      (outcome = .ok () → Kept { initial with
        here := site.here
        library
        heading
        merges := initial.merges || Text.lower (projectTitle library) = "ivy" } settings) ∧
      (configure library heading).runOn site ⟨initial, tree⟩ = (outcome, ⟨settings, tree⟩) ∧
      (configure library heading).runOn site ⟨initial, other⟩ = (outcome, ⟨settings, other⟩) := by
  obtain ⟨outcome, settings, kept, left, right⟩ :=
    steady_readSettings agree { initial with here := site.here, library, heading } rfl
  rw [runOn_configure, runOn_configure, runOn_bind, runOn_bind, left, right]
  cases outcome with
  | error fault => exact ⟨.error fault, settings, kept.here, fun done => (by cases done), rfl, rfl⟩
  | ok _ =>
    by_cases ivy : Text.lower (projectTitle library) = "ivy"
    · simp only [if_pos ivy]
      refine ⟨.ok (), { settings with merges := true }, kept.here, fun _ => ?_, rfl, rfl⟩
      exact ⟨kept.here, kept.library, kept.heading, by simp [ivy], kept.frameworks⟩
    · simp only [if_neg ivy]
      refine ⟨.ok (), settings, kept.here, fun _ => ?_, rfl, rfl⟩
      exact ⟨kept.here, kept.library, kept.heading, by rw [kept.merges, decide_eq_false ivy, Bool.or_false],
        kept.frameworks⟩

theorem perform_ok_iff {library : Text} {heading : Heading} {initial settings : Settings} {tree after : Tree}
    (configured : (configure library heading).runOn site ⟨initial, tree⟩ = (.ok (), ⟨settings, tree⟩)) :
    (perform library heading).runOn site ⟨initial, tree⟩ = (.ok (), ⟨settings, after⟩) ↔
      ∃ between, (writeConfiguration (projectTitle library)).runOn site tree = (.ok (), between) ∧
        (writePages settings).runOn site between = (.ok (), after) := by
  unfold perform files
  rw [runOn_bind, configured]
  simp only
  rw [runOn_bind, runOn_withSettings]
  rcases (writeConfiguration (projectTitle library)).runOn site tree with ⟨outcome, between⟩
  cases outcome with
  | error fault =>
    constructor
    · intro run
      cases run
    · rintro ⟨_, written, _⟩
      cases written
  | ok _ =>
    simp only
    rw [runOn_withSettings]
    rcases rest : (writePages settings).runOn site between with ⟨outcome, final⟩
    constructor
    · intro run
      cases run
      exact ⟨between, rfl, rest⟩
    · rintro ⟨_, written, run⟩
      cases written
      rw [rest] at run
      cases run
      rfl

end Build
end ApiDocs
