import ApiDocs.Proofs.File.Relative
import ApiDocs.Proofs.File.Twin

/-! Trees that hold the same in every place. They may list their entries in different orders, and no step can tell: it
comes to the same outcome on both, be it a failure, and leaves trees that hold the same again. -/

set_option autoImplicit false

namespace ApiDocs

namespace Tree

structure Same (tree other : Tree) : Prop where
  agree : ∀ place, tree.get? place = other.get? place
  distinct : tree.Distinct
  otherDistinct : other.Distinct

namespace Same
variable {tree other : Tree} (same : tree.Same other)
include same

theorem shape : tree.SameShape other := ⟨fun place => by rw [same.agree], fun place => by rw [same.agree]⟩

theorem put (place : Place) (entry : Entry) : (tree.put place entry).Same (other.put place entry) where
  agree spot := by
    by_cases root : spot = []
    · rw [root]; rfl
    · rw [get?_put _ _ _ _ root, get?_put _ _ _ _ root, same.agree]
  distinct := same.distinct.put place entry
  otherDistinct := same.otherDistinct.put place entry

theorem erase (place : Place) : (tree.erase place).Same (other.erase place) where
  agree spot := by
    by_cases root : spot = []
    · rw [root]; rfl
    · rw [get?_erase _ _ _ root, get?_erase _ _ _ root, same.agree]
  distinct := same.distinct.erase place
  otherDistinct := same.otherDistinct.erase place

theorem graft {source : Place} (inner : source ≠ []) (target : Place) :
    (tree.graft source target).Same (other.graft source target) where
  agree spot := by
    by_cases root : spot = []
    · rw [root]; rfl
    · by_cases under : target <+: spot
      · obtain ⟨rest, rfl⟩ := under
        rw [get?_graft_below same.distinct inner target rest root,
          get?_graft_below same.otherDistinct inner target rest root, same.agree, same.agree]
      · rw [get?_graft_apart same.distinct source under, get?_graft_apart same.otherDistinct source under, same.agree]
  distinct := same.distinct.graft source target
  otherDistinct := same.otherDistinct.graft source target

theorem locate (site : Site) (path : Text) : site.locate tree path = site.locate other path :=
  site.locate_shape same.shape path

theorem find (site : Site) (path : Text) : site.find tree path = site.find other path := by
  unfold Site.find
  simp only [same.locate, same.agree]

end Same
end Tree

namespace Script

section
variable {α β : Type} {site : Site} {keep : Tree → Tree → Prop}

theorem Mirrors.ofExcept {ε : Type} (fault : ε → Fault) (value : Except ε α) :
    Mirrors site keep (ofExcept fault value) := by
  cases value with
  | error error => exact Mirrors.throw _
  | ok value => exact Mirrors.pure value

theorem Mirrors.forM {items : List α} {step : α → Script Unit} (each : ∀ item, Mirrors site keep (step item)) :
    Mirrors site keep (items.forM step) := by
  induction items with
  | nil => exact Mirrors.pure ()
  | cons item items ih => exact (each item).bind fun _ => ih

theorem Mirrors.mapM {items : List α} {step : α → Script β} (each : ∀ item, Mirrors site keep (step item)) :
    Mirrors site keep (items.mapM step) := by
  induction items with
  | nil =>
    rw [List.mapM_nil]
    exact Mirrors.pure _
  | cons item items ih =>
    rw [List.mapM_cons]
    exact (each item).bind fun _ => ih.bind fun _ => Mirrors.pure _

theorem Mirrors.filterM {items : List α} {test : α → Script Bool} (each : ∀ item, Mirrors site keep (test item)) :
    Mirrors site keep (items.filterM test) := by
  have general : ∀ found, Mirrors site keep (items.filterAuxM test found) := by
    induction items with
    | nil => exact fun found => Mirrors.pure found
    | cons item items ih => exact fun found => (each item).bind fun _ => ih _
  exact (general []).bind fun _ => Mirrors.pure _

theorem Mirrors.filterMapM {items : List α} {step : α → Script (Option β)}
    (each : ∀ item, Mirrors site keep (step item)) :
    Mirrors site keep (items.filterMapM step) := by
  induction items with
  | nil => exact Mirrors.pure []
  | cons item items ih =>
    rw [List.filterMapM_cons]
    refine (each item).bind fun found => ?_
    cases found with
    | none => exact ih
    | some value => exact ih.bind fun _ => Mirrors.pure _

theorem Mirrors.foldlM {items : List α} {step : β → α → Script β}
    (each : ∀ state item, Mirrors site keep (step state item)) (start : β) :
    Mirrors site keep (items.foldlM step start) := by
  induction items generalizing start with
  | nil => exact Mirrors.pure start
  | cons item items ih =>
    rw [List.foldlM_cons]
    exact (each start item).bind ih

end

variable {α β : Type} {site : Site}

abbrev Blind (site : Site) (script : Script α) : Prop := Mirrors site Tree.Same script

theorem Blind.distinct {script : Script α} (blind : Blind site script) {tree after : Tree} {outcome : Except Fault α}
    (distinct : tree.Distinct) (run : script.runOn site tree = (outcome, after)) : after.Distinct := by
  have kept := (blind tree tree ⟨fun _ => rfl, distinct, distinct⟩).2.distinct
  rwa [run] at kept

theorem blind_look {script : Script α} {look : Tree → Except Fault α}
    (looks : ∀ tree, script.runOn site tree = (look tree, tree))
    (alike : ∀ tree other, Tree.Same tree other → look tree = look other) : Blind site script := by
  intro tree other same
  rw [looks, looks, alike tree other same]
  exact ⟨rfl, same⟩

theorem blind_inspect {path : Text} {look : Site → Tree → Except Refusal α}
    (alike : ∀ tree other, Tree.Same tree other → look site tree = look site other) : Blind site (inspect path look) :=
  blind_look (fun tree => runOn_inspect site tree) fun tree other same => by rw [alike tree other same]

theorem runOn_inspect_ok {path : Text} {look : Site → Tree → Except Refusal α} {tree after : Tree} {value : α}
    (run : (inspect path look).runOn site tree = (.ok value, after)) : look site tree = .ok value := by
  rw [runOn_inspect] at run
  cases seen : look site tree with
  | error refusal => rw [seen] at run; cases run
  | ok found => rw [seen] at run; cases run; rfl

theorem blind_modify {change : Tree → Tree}
    (keeps : ∀ tree other, Tree.Same tree other → Tree.Same (change tree) (change other)) :
    Blind site (modify change) :=
  fun tree other same => ⟨rfl, keeps tree other same⟩

theorem bytesAt_same {tree other : Tree} (same : tree.Same other) (path : Text) :
    bytesAt site tree path = bytesAt site other path := by
  unfold bytesAt
  rw [same.find]

theorem blind_readBytes (path : Text) : Blind site (readBytes path) :=
  blind_look (fun tree => runOn_readBytes site tree path) fun _ _ same => bytesAt_same same path

theorem blind_readText (path : Text) : Blind site (readText path) :=
  (blind_readBytes path).bind fun _ => (Mirrors.ofExcept _ _).bind fun _ => Mirrors.pure _

theorem blind_readLenient (path : Text) : Blind site (readLenient path) :=
  (blind_readBytes path).bind fun _ => Mirrors.pure _

theorem blind_readLines (path : Text) : Blind site (readLines path) :=
  (blind_readBytes path).bind fun _ => (Mirrors.ofExcept _ _).bind fun _ => Mirrors.pure _

theorem blind_writeAfter (bytes : Bytes) (place : Place) (pieces : List Text) :
    Blind site (writeAfter bytes place pieces) := by
  have put : ∀ bytes, Blind site (modify (·.put place (.file bytes)) : Script PUnit) := fun bytes =>
    blind_modify fun _ _ same => same.put place (.file bytes)
  induction pieces generalizing bytes with
  | nil => exact put bytes
  | cons piece pieces ih =>
    unfold writeAfter
    split
    · exact ih _
    · exact (put bytes).bind fun _ => Mirrors.throw _

theorem blind_writable (path : Text) : Blind site (inspect path (writable path)) := by
  refine blind_inspect fun tree other same => ?_
  unfold writable
  simp only [same.locate, same.agree]

theorem blind_writeText (path text : Text) : Blind site (writeText path text) :=
  (blind_writable path).bind fun _ => blind_writeAfter _ _ _

theorem blind_appendPieces (path : Text) (pieces : List Text) : Blind site (appendPieces path pieces) :=
  (blind_writable path).bind fun _ => blind_writeAfter _ _ _

theorem blind_present (path : Text) : Blind site (present path) :=
  blind_look (fun tree => runOn_present site tree path) fun _ _ same => by rw [same.find]

theorem blind_isDirectory (path : Text) : Blind site (isDirectory path) := by
  intro tree other same
  refine ⟨isDirectory_shape same.shape path, ?_⟩
  obtain ⟨answer, run, _⟩ := runOn_isDirectory site tree path
  obtain ⟨answer', run', _⟩ := runOn_isDirectory site other path
  rw [run, run']
  exact same

theorem blind_directoryPlace (path : Text) : Blind site (inspect path (directoryPlace path)) :=
  blind_inspect fun _ _ same => directoryPlace_shape site same.shape path

theorem blind_names (path : Text) : Blind site (names path) := by
  refine (blind_directoryPlace path).bind fun place => ?_
  intro tree other same
  refine ⟨?_, same⟩
  show Except.ok (site.arrange place (tree.names place)) = .ok (site.arrange place (other.names place))
  rw [same.shape.names]

theorem blind_height {next : Nat → Script α} (each : ∀ height, Blind site (next height)) :
    Blind site (do next (← get).height) := by
  intro tree other same
  have left : (do next (← get).height : Script α).runOn site tree = (next tree.height).runOn site tree := rfl
  have right : (do next (← get).height : Script α).runOn site other = (next tree.height).runOn site other := by
    rw [same.shape.height]
    rfl
  rw [left, right]
  exact each tree.height tree other same

theorem blind_makeDirectory (path : Text) : Blind site (makeDirectory path) := by
  refine (blind_inspect fun tree other same => ?_).bind fun place => blind_modify fun _ _ same =>
    same.put place .directory
  simp only [same.locate, same.agree]

theorem blind_makeDirectories (path : Text) (existing : Bool) : Blind site (makeDirectories path existing) :=
  mirrors_makeDirectoriesUpTo_of blind_present blind_isDirectory blind_makeDirectory existing _ path

theorem blind_removeDirectory (path : Text) : Blind site (removeDirectory path) :=
  (blind_directoryPlace path).bind fun place => blind_modify fun _ _ same => same.erase place

theorem blind_removeFile (path : Text) : Blind site (removeFile path) := by
  refine (blind_inspect fun tree other same => ?_).bind fun place => blind_modify fun _ _ same => same.erase place
  simp only [same.find]

section
variable {source : Text} (inner : ∀ tree origin, site.locate tree source = .ok origin → origin ≠ [])
include inner

theorem blind_copyDirectory (target : Text) : Blind site (copyDirectory source target) := by
  have known : ∀ tree origin after, (inspect source (directoryPlace source)).runOn site tree = (.ok origin, after) →
      origin ≠ [] := by
    intro tree origin after run
    exact inner tree origin (Site.find_eq_ok_iff.mp (find_of_directoryPlace (runOn_inspect_ok run))).1
  refine (blind_directoryPlace source).bind_known known fun origin proper => ?_
  refine (blind_makeDirectories target false).bind fun _ => (blind_directoryPlace target).bind fun destination => ?_
  exact blind_modify fun _ _ same => same.graft proper destination

theorem blind_moveInto (directory : Text) : Blind site (moveInto source directory) := by
  have known : ∀ tree (found : Place × Entry) after,
      (inspect source fun site tree => site.find tree source).runOn site tree = (.ok found, after) → found.1 ≠ [] := by
    intro tree found after run
    exact inner tree found.1 (Site.find_eq_ok_iff.mp (runOn_inspect_ok run)).1
  have move : Blind site (do
      let found ← inspect source fun site tree => site.find tree source
      let destination ← inspect (Path.join directory (Path.base (Path.dropSlashes source)))
        fun site tree => site.locate tree (Path.join directory (Path.base (Path.dropSlashes source)))
      modify fun tree => (tree.graft found.1 destination).erase found.1 : Script PUnit) := by
    refine (blind_inspect fun _ _ same => same.find site source).bind_known known fun found proper => ?_
    refine (blind_inspect fun _ _ same => same.locate site _).bind fun destination => ?_
    exact blind_modify fun _ _ same => (same.graft proper destination).erase found.1
  refine (blind_present _).bind fun there => ?_
  cases there with
  | true => exact Mirrors.throw _
  | false => exact move

end

end Script
end ApiDocs
