import ApiDocs.File.Script
import ApiDocs.Proofs.Text.Plain

/-! Outcomes of steps. A step in a sequence runs on the tree that the steps before it left, and a failure
keeps the tree that it met. -/

set_option autoImplicit false

namespace ApiDocs.Script

variable {α β : Type} (site : Site) (tree : Tree)

@[simp] theorem runOn_pure (value : α) : (pure value : Script α).runOn site tree = (.ok value, tree) := rfl

@[simp] theorem runOn_throw (fault : Fault) :
    (throw fault : Script α).runOn site tree = (.error fault, tree) := rfl

@[simp] theorem runOn_read : (read : Script Site).runOn site tree = (.ok site, tree) := rfl

@[simp] theorem runOn_get : (get : Script Tree).runOn site tree = (.ok tree, tree) := rfl

@[simp] theorem runOn_modify (change : Tree → Tree) :
    (modify change : Script PUnit).runOn site tree = (.ok .unit, change tree) := rfl

def andThen (first : Except Fault α × Tree) (next : α → Script β) (site : Site) : Except Fault β × Tree :=
  match first with
  | (.ok value, tree) => (next value).runOn site tree
  | (.error fault, tree) => (.error fault, tree)

@[simp] theorem andThen_ok (value : α) (next : α → Script β) :
    andThen (.ok value, tree) next site = (next value).runOn site tree := rfl

@[simp] theorem andThen_error (fault : Fault) (next : α → Script β) :
    andThen (.error fault, tree) next site = (.error fault, tree) := rfl

theorem runOn_bind (first : Script α) (next : α → Script β) :
    (first >>= next).runOn site tree = andThen (first.runOn site tree) next site := by
  simp only [runOn, ReaderT.run, ExceptT.run, StateT.run, bind, ReaderT.bind, ExceptT.bind, ExceptT.mk,
    StateT.bind]
  rcases first site tree with ⟨outcome, after⟩
  cases outcome <;> rfl

@[simp] theorem runOn_forM_nil (step : α → Script Unit) :
    (([] : List α).forM step).runOn site tree = (.ok (), tree) := rfl

theorem runOn_forM_cons (step : α → Script Unit) (item : α) (items : List α) :
    ((item :: items).forM step).runOn site tree =
      andThen ((step item).runOn site tree) (fun _ => items.forM step) site :=
  runOn_bind site tree (step item) fun _ => items.forM step

@[simp] theorem runOn_ofExcept_ok {ε : Type} (fault : ε → Fault) (value : α) :
    (ofExcept fault (.ok value)).runOn site tree = (.ok value, tree) := rfl

@[simp] theorem runOn_ofExcept_error {ε : Type} (fault : ε → Fault) (error : ε) :
    (ofExcept fault (.error error) : Script α).runOn site tree = (.error (fault error), tree) := rfl

theorem runOn_ofExcept_id (value : Except Fault α) : (ofExcept id value).runOn site tree = (value, tree) := by
  cases value <;> rfl

theorem run_eq_of_ok {run : Except Fault α × Tree} {value : α} (done : run.1 = .ok value) :
    run = (.ok value, run.2) := by
  obtain ⟨outcome, tree⟩ := run
  obtain rfl : outcome = .ok value := done
  rfl

theorem runOn_bind_ok {first : Script α} {next : α → Script β} {site : Site} {tree after : Tree} {value : β}
    (run : (first >>= next).runOn site tree = (.ok value, after)) :
    ∃ inner between, first.runOn site tree = (.ok inner, between) ∧
      (next inner).runOn site between = (.ok value, after) := by
  rw [runOn_bind] at run
  rcases eq : first.runOn site tree with ⟨outcome, between⟩
  rw [eq] at run
  cases outcome with
  | error fault => cases run
  | ok inner => exact ⟨inner, between, rfl, run⟩

theorem runOn_bind_look {first : Script α} {next : α → Script β} {site : Site} {tree after : Tree} {value : β}
    {look : Except Fault α} (looked : first.runOn site tree = (look, tree))
    (run : (first >>= next).runOn site tree = (.ok value, after)) :
    ∃ inner, look = .ok inner ∧ (next inner).runOn site tree = (.ok value, after) := by
  rw [runOn_bind, looked] at run
  cases look with
  | error fault => cases run
  | ok inner => exact ⟨inner, rfl, run⟩

theorem runOn_inspect {path : Text} {look : Site → Tree → Except Refusal α} :
    (inspect path look).runOn site tree =
      ((look site tree).mapError (Refusal.fault path), tree) := by
  unfold inspect
  simp only [runOn_bind, runOn_read, andThen_ok, runOn_get]
  cases look site tree <;> rfl

/-- Writing reaches some piece, after which the file holds all pieces before it; a success reaches the
end. -/
theorem runOn_writeAfter (bytes : Bytes) (place : Place) (pieces : List Text) :
    ∃ outcome written, (writeAfter bytes place pieces).runOn site tree =
        (outcome, tree.put place (.file (bytes ++ Utf8.bytesOf written.flatten))) ∧
      written <+: pieces ∧ Text.Plain written.flatten ∧ (outcome = .ok () ↔ written = pieces) := by
  induction pieces generalizing bytes with
  | nil => exact ⟨.ok (), [], by simp [writeAfter, Utf8.bytesOf], List.prefix_rfl, .nil, by simp⟩
  | cons piece pieces ih =>
    cases encoded : Utf8.encode piece with
    | error run =>
      refine ⟨.error (.unencodable run), [], ?_, List.nil_prefix, .nil, by simp⟩
      simp [writeAfter, encoded, runOn_bind, Utf8.bytesOf]
    | ok added =>
      obtain ⟨plain, rfl⟩ := Utf8.encode_eq_ok_iff.mp encoded
      obtain ⟨outcome, written, run, reached, rest, complete⟩ := ih (bytes ++ Utf8.bytesOf piece)
      refine ⟨outcome, piece :: written, ?_, List.cons_prefix_cons.mpr ⟨rfl, reached⟩, ?_, ?_⟩
      · simp only [writeAfter, encoded, run, List.flatten_cons, Utf8.bytesOf_append, List.append_assoc]
      · exact Text.plain_append.mpr ⟨plain, rest⟩
      · simp [complete]

theorem runOn_writeAfter_plain {pieces : List Text} (plain : Text.Plain pieces.flatten) (bytes : Bytes)
    (place : Place) :
    (writeAfter bytes place pieces).runOn site tree =
      (.ok (), tree.put place (.file (bytes ++ Utf8.bytesOf pieces.flatten))) := by
  induction pieces generalizing bytes with
  | nil => simp [writeAfter, Utf8.bytesOf]
  | cons piece pieces ih =>
    obtain ⟨first, rest⟩ := Text.plain_append.mp plain
    simp only [writeAfter, Utf8.encode_eq_ok_iff.mpr ⟨first, rfl⟩, ih rest, List.flatten_cons, Utf8.bytesOf_append,
      List.append_assoc]

theorem runOn_appendPieces {path : Text} {pieces : List Text} {place : Place} {bytes : Bytes}
    (found : writable path site tree = .ok (place, bytes)) :
    (appendPieces path pieces).runOn site tree = (writeAfter bytes place pieces).runOn site tree := by
  simp [appendPieces, runOn_bind, runOn_inspect, found, Except.mapError]

theorem runOn_appendPieces_refused {path : Text} {pieces : List Text} {refusal : Refusal}
    (refused : writable path site tree = .error refusal) :
    (appendPieces path pieces).runOn site tree = (.error (refusal.fault path), tree) := by
  simp [appendPieces, runOn_bind, runOn_inspect, refused, Except.mapError]

theorem runOn_appendPieces_ok {path : Text} {pieces : List Text} {after : Tree}
    (run : (appendPieces path pieces).runOn site tree = (.ok (), after)) :
    Text.Plain pieces.flatten ∧ ∃ place bytes, writable path site tree = .ok (place, bytes) ∧
      after = tree.put place (.file (bytes ++ Utf8.bytesOf pieces.flatten)) := by
  cases found : writable path site tree with
  | error refusal => rw [runOn_appendPieces_refused site tree found] at run; cases run
  | ok pair =>
    rw [runOn_appendPieces site tree found] at run
    obtain ⟨outcome, written, wrote, _, plain, complete⟩ := runOn_writeAfter site tree pair.2 pair.1 pieces
    rw [wrote] at run
    obtain ⟨eq, rfl⟩ := Prod.mk.inj run
    obtain rfl := complete.mp eq
    exact ⟨plain, pair.1, pair.2, rfl, rfl⟩

theorem runOn_forM_append (step : α → Script Unit) (first second : List α) :
    ((first ++ second).forM step).runOn site tree =
      andThen ((first.forM step).runOn site tree) (fun _ => second.forM step) site := by
  induction first generalizing tree with
  | nil => rfl
  | cons item items ih =>
    rw [List.cons_append, runOn_forM_cons, runOn_forM_cons]
    rcases (step item).runOn site tree with ⟨outcome, between⟩
    cases outcome with
    | error fault => rfl
    | ok value => exact ih between

theorem forM_map (change : α → β) (step : β → Script Unit) (items : List α) :
    (items.map change).forM step = items.forM fun item => step (change item) :=
  List.forM_map

theorem runOn_forM_singleton (step : α → Script Unit) (item : α) :
    ([item].forM step).runOn site tree = (step item).runOn site tree := by
  rw [runOn_forM_cons]
  rcases (step item).runOn site tree with ⟨outcome, after⟩
  cases outcome <;> rfl

theorem forM_keeps (keep : Tree → Prop) {step : α → Script Unit} {items : List α}
    (keeps : ∀ tree, ∀ item ∈ items, keep tree → keep ((step item).runOn site tree).2) {tree : Tree}
    (start : keep tree) : keep ((items.forM step).runOn site tree).2 := by
  induction items generalizing tree with
  | nil => exact start
  | cons item items ih =>
    have first := keeps tree item List.mem_cons_self start
    rw [runOn_forM_cons]
    rcases run : (step item).runOn site tree with ⟨outcome, between⟩
    rw [run] at first
    cases outcome with
    | error fault => exact first
    | ok value => exact ih (fun tree other member => keeps tree other (List.mem_cons_of_mem _ member)) first

/-- A loop whose steps are loops themselves is one loop over all that they go through. -/
theorem runOn_forM_flatMap (keep : Tree → Prop) {step : α → Script Unit} {each : β → Script Unit}
    {parts : α → List β} {items : List α}
    (keeps : ∀ tree part, keep tree → keep ((each part).runOn site tree).2)
    (once : ∀ item ∈ items, ∀ tree, keep tree →
      (step item).runOn site tree = ((parts item).forM each).runOn site tree) {tree : Tree} (start : keep tree) :
    (items.forM step).runOn site tree = ((items.flatMap parts).forM each).runOn site tree := by
  induction items generalizing tree with
  | nil => rfl
  | cons item items ih =>
    have first : keep (((parts item).forM each).runOn site tree).2 :=
      forM_keeps site keep (fun tree part _ => keeps tree part) start
    rw [runOn_forM_cons, List.flatMap_cons, runOn_forM_append, once item List.mem_cons_self tree start]
    rcases run : ((parts item).forM each).runOn site tree with ⟨outcome, between⟩
    rw [run] at first
    cases outcome with
    | error fault => rfl
    | ok value => exact ih (fun other member => once other (List.mem_cons_of_mem _ member)) first

def bytesAt (path : Text) : Except Fault Bytes :=
  match site.find tree path with
  | .ok (_, .file bytes) => .ok bytes
  | .ok (_, .directory) => .error (.isDirectory path)
  | .error refusal => .error (refusal.fault path)

theorem runOn_readBytes (path : Text) : (readBytes path).runOn site tree = (bytesAt site tree path, tree) := by
  rw [readBytes, runOn_inspect, bytesAt]
  cases site.find tree path with
  | error refusal => rfl
  | ok found => rcases found with ⟨place, bytes | _⟩ <;> rfl

def textAt (path : Text) : Except Fault Text := do
  return Text.unifyNewlines (← (Utf8.decode (← bytesAt site tree path)).mapError .undecodable)

def linesAt (path : Text) : Except Fault (List Text) := do
  return Text.lines (Text.unifyNewlines (← (Utf8.decodeLines (← bytesAt site tree path)).mapError .undecodable))

theorem runOn_decoded (decode : Bytes → Except Utf8.Defect Text) (view : Text → α) (path : Text) :
    (do return view (← ofExcept .undecodable (decode (← readBytes path))) : Script α).runOn site tree =
      (do return view (← (decode (← bytesAt site tree path)).mapError .undecodable), tree) := by
  rw [runOn_bind, runOn_readBytes]
  cases bytesAt site tree path with
  | error fault => rfl
  | ok bytes =>
    rw [andThen_ok, runOn_bind]
    cases decoded : decode bytes with
    | error defect => simp [bind, Except.bind, decoded, Except.mapError]
    | ok text =>
      simp only [bind, Except.bind, decoded, Except.mapError, runOn_ofExcept_ok, andThen_ok, runOn_pure]
      rfl

theorem runOn_readText (path : Text) : (readText path).runOn site tree = (textAt site tree path, tree) :=
  runOn_decoded site tree Utf8.decode Text.unifyNewlines path

theorem runOn_readLines (path : Text) : (readLines path).runOn site tree = (linesAt site tree path, tree) :=
  runOn_decoded site tree Utf8.decodeLines (fun text => Text.lines (Text.unifyNewlines text)) path

theorem runOn_readLenient (path : Text) :
    (readLenient path).runOn site tree =
      ((bytesAt site tree path).map fun bytes => Text.unifyNewlines (Utf8.decodeLenient bytes), tree) := by
  rw [readLenient, runOn_bind, runOn_readBytes]
  cases bytesAt site tree path <;> rfl

theorem bytesAt_eq_ok_iff {path : Text} {bytes : Bytes} :
    bytesAt site tree path = .ok bytes ↔ ∃ place, site.find tree path = .ok (place, .file bytes) := by
  unfold bytesAt
  split
  · rename_i found
    simp [found]
  · rename_i found
    simp [found]
  · rename_i found
    simp [found]

theorem decoded_eq_ok_iff {decode : Bytes → Except Utf8.Defect Text} {view : Text → α} {path : Text} {value : α} :
    (do return view (← (decode (← bytesAt site tree path)).mapError .undecodable) : Except Fault α) = .ok value ↔
      ∃ place bytes text, site.find tree path = .ok (place, .file bytes) ∧ decode bytes = .ok text ∧
        value = view text := by
  constructor
  · intro read
    cases held : bytesAt site tree path with
    | error fault => rw [held] at read; cases read
    | ok bytes =>
      obtain ⟨place, found⟩ := (bytesAt_eq_ok_iff site tree).mp held
      rw [held] at read
      cases decoded : decode bytes with
      | error defect => simp [bind, Except.bind, decoded, Except.mapError] at read
      | ok text =>
        simp only [bind, Except.bind, decoded, Except.mapError] at read
        exact ⟨place, bytes, text, found, decoded, (Except.ok.inj read).symm⟩
  · rintro ⟨place, bytes, text, found, decoded, rfl⟩
    rw [(bytesAt_eq_ok_iff site tree).mpr ⟨place, found⟩]
    simp only [bind, Except.bind, decoded, Except.mapError]
    rfl

theorem textAt_eq_ok_iff {path text : Text} :
    textAt site tree path = .ok text ↔ ∃ place bytes whole, site.find tree path = .ok (place, .file bytes) ∧
      Utf8.decode bytes = .ok whole ∧ text = Text.unifyNewlines whole :=
  decoded_eq_ok_iff site tree

theorem linesAt_eq_ok_iff {path : Text} {lines : List Text} :
    linesAt site tree path = .ok lines ↔ ∃ place bytes text, site.find tree path = .ok (place, .file bytes) ∧
      Utf8.decodeLines bytes = .ok text ∧ lines = Text.lines (Text.unifyNewlines text) :=
  decoded_eq_ok_iff site tree

theorem runOn_readLenient_of {path : Text} {place : Place} {bytes : Bytes}
    (found : site.find tree path = .ok (place, .file bytes)) :
    (readLenient path).runOn site tree = (.ok (Text.unifyNewlines (Utf8.decodeLenient bytes)), tree) := by
  rw [runOn_readLenient, (bytesAt_eq_ok_iff site tree).mpr ⟨place, found⟩]
  rfl

theorem runOn_readLenient_ok {path text : Text} {after : Tree}
    (run : (readLenient path).runOn site tree = (.ok text, after)) :
    after = tree ∧ ∃ place bytes, site.find tree path = .ok (place, .file bytes) ∧
      text = Text.unifyNewlines (Utf8.decodeLenient bytes) := by
  rw [runOn_readLenient] at run
  obtain ⟨read, rfl⟩ := Prod.mk.inj run
  cases held : bytesAt site tree path with
  | error fault => rw [held] at read; cases read
  | ok bytes =>
    rw [held] at read
    obtain ⟨place, found⟩ := (bytesAt_eq_ok_iff site tree).mp held
    exact ⟨rfl, place, bytes, found, (Except.ok.inj read).symm⟩

theorem plain_textAt {path text : Text} (read : textAt site tree path = .ok text) :
    text.Plain := by
  obtain ⟨_, _, _, _, decoded, rfl⟩ := (textAt_eq_ok_iff site tree).mp read
  exact (Utf8.plain_of_decode decoded).unifyNewlines

theorem plain_linesAt {path : Text} {lines : List Text}
    (read : linesAt site tree path = .ok lines) : ∀ line ∈ lines, line.Plain := by
  obtain ⟨_, _, _, _, decoded, rfl⟩ := (linesAt_eq_ok_iff site tree).mp read
  exact (Utf8.plain_of_decodeLines decoded).unifyNewlines.lines

theorem runOn_writeAfter_single (bytes : Bytes) (place : Place) (text : Text) :
    text.Plain ∧ (writeAfter bytes place [text]).runOn site tree =
        (.ok (), tree.put place (.file (bytes ++ Utf8.bytesOf text))) ∨
      ¬text.Plain ∧ ∃ run, (writeAfter bytes place [text]).runOn site tree =
        (.error (.unencodable run), tree.put place (.file bytes)) := by
  cases encoded : Utf8.encode text with
  | ok added =>
    obtain ⟨plain, rfl⟩ := Utf8.encode_eq_ok_iff.mp encoded
    exact .inl ⟨plain, by simp [writeAfter, encoded]⟩
  | error run =>
    refine .inr ⟨fun plain => ?_, run, by simp [writeAfter, encoded, runOn_bind]⟩
    rw [Utf8.encode_eq_ok_iff.mpr ⟨plain, rfl⟩] at encoded
    cases encoded

theorem runOn_writeText {path text : Text} {place : Place} {bytes : Bytes}
    (found : writable path site tree = .ok (place, bytes)) :
    text.Plain ∧ (writeText path text).runOn site tree =
        (.ok (), tree.put place (.file (Utf8.bytesOf text))) ∨
      ¬text.Plain ∧ ∃ run, (writeText path text).runOn site tree =
        (.error (.unencodable run), tree.put place (.file [])) := by
  have opened : (writeText path text).runOn site tree = (writeAfter [] place [text]).runOn site tree := by
    simp [writeText, runOn_bind, runOn_inspect, found, Except.mapError]
  rw [opened]
  exact runOn_writeAfter_single site tree [] place text

theorem runOn_writeText_ok {path text : Text} {after : Tree}
    (run : (writeText path text).runOn site tree = (.ok (), after)) :
    text.Plain ∧ ∃ place bytes, writable path site tree = .ok (place, bytes) ∧
      after = tree.put place (.file (Utf8.bytesOf text)) := by
  cases found : writable path site tree with
  | error refusal => simp [writeText, runOn_bind, runOn_inspect, found, Except.mapError] at run
  | ok pair =>
    rcases runOn_writeText site tree found with ⟨plain, done⟩ | ⟨_, fault, failed⟩
    · rw [done] at run
      cases run
      exact ⟨plain, pair.1, pair.2, rfl, rfl⟩
    · rw [failed] at run
      cases run

theorem runOn_writeText_of {path text : Text} {place : Place} {bytes : Bytes} (plain : text.Plain)
    (found : writable path site tree = .ok (place, bytes)) :
    (writeText path text).runOn site tree = (.ok (), tree.put place (.file (Utf8.bytesOf text))) := by
  rcases runOn_writeText site tree found with ⟨_, done⟩ | ⟨bad, _⟩
  · exact done
  · exact absurd plain bad

theorem runOn_appendText_ok {path text : Text} {after : Tree}
    (run : (appendText path text).runOn site tree = (.ok (), after)) :
    text.Plain ∧ ∃ place bytes, writable path site tree = .ok (place, bytes) ∧
      after = tree.put place (.file (bytes ++ Utf8.bytesOf text)) := by
  have pieces := runOn_appendPieces_ok site tree run
  rwa [List.flatten_singleton] at pieces

theorem runOn_appendText_of {path text : Text} {place : Place} {bytes : Bytes} (plain : text.Plain)
    (found : writable path site tree = .ok (place, bytes)) :
    (appendText path text).runOn site tree =
      (.ok (), tree.put place (.file (bytes ++ Utf8.bytesOf text))) := by
  rw [appendText, runOn_appendPieces site tree found]
  rcases runOn_writeAfter_single site tree bytes place text with ⟨_, done⟩ | ⟨bad, _⟩
  · exact done
  · exact absurd plain bad

theorem runOn_writeText_refused {path text : Text} {refusal : Refusal}
    (refused : writable path site tree = .error refusal) :
    (writeText path text).runOn site tree = (.error (refusal.fault path), tree) := by
  simp [writeText, runOn_bind, runOn_inspect, refused, Except.mapError]

theorem runOn_tryCatch (script : Script α) (rescue : Fault → Script α) :
    (tryCatch script rescue).runOn site tree =
      match script.runOn site tree with
      | (.ok value, after) => (.ok value, after)
      | (.error fault, after) => (rescue fault).runOn site after := by
  simp only [runOn, tryCatch, tryCatchThe, MonadExceptOf.tryCatch, ReaderT.run, ExceptT.run, StateT.run,
    ExceptT.tryCatch, ExceptT.mk, bind, StateT.bind]
  rcases script site tree with ⟨outcome, after⟩
  cases outcome <;> rfl

theorem runOn_present (path : Text) :
    (present path).runOn site tree = (.ok (site.find tree path).toOption.isSome, tree) := rfl

theorem runOn_filterM {items : List α} {test : α → Script Bool}
    {answer : α → Bool} (each : ∀ item ∈ items, (test item).runOn site tree = (.ok (answer item), tree)) :
    (items.filterM test).runOn site tree = (.ok (items.filter answer), tree) := by
  suffices general : ∀ found, (items.filterAuxM test found).runOn site tree =
      (.ok ((items.filter answer).reverse ++ found), tree) by
    rw [List.filterM, runOn_bind, general, andThen_ok, runOn_pure]
    simp
  induction items with
  | nil => exact fun found => rfl
  | cons item items ih =>
    intro found
    have rest := ih fun other member => each other (List.mem_cons_of_mem _ member)
    rw [List.filterAuxM, runOn_bind, each item List.mem_cons_self, andThen_ok, rest]
    cases holds : answer item <;> simp [holds]

end ApiDocs.Script
