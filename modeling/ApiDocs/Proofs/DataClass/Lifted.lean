import ApiDocs.Proofs.DataClass.Untitled
import ApiDocs.Proofs.File.Written
import ApiDocs.Proofs.Pages.Members

/-! Pages that are lifted out of a folder. A page that the lifted page lists loses its title each time that it is
listed, and its entry is moved by putting the folder's name twice wherever it is found, in the name of the page too. -/

set_option autoImplicit false

namespace ApiDocs

open Script Text

namespace DataClass
open Pages

variable {site : Site} {tree after : Tree}

def memberPath (directory stem name : Text) : Text := directory ++ "/" ++ memberFile stem name

section
variable (directory submodule : Text)

theorem moved_of_quiet {body : Text} (quiet : Quiet body) :
    movedLine submodule (ended body) = [ended body] ∧ entryPages directory (optioned (ended body)) = [] := by
  obtain ⟨slashless, shown⟩ := quiet.ended
  have unseen : ¬mentions ":hidden:" (ended body) = true := mt mentions_iff.mp shown
  have bare : ¬(ended body).contains (.char '/') = true := mt List.contains_iff_mem.mp slashless
  rw [movedLine, optioned, if_neg unseen, if_neg unseen, movedEntry, entryPages, if_neg bare, if_neg bare]
  exact ⟨rfl, rfl⟩

theorem moved_of_all_quiet {bodies : List Text} (quiet : ∀ body ∈ bodies, Quiet body) :
    (bodies.map ended).flatMap (movedLine submodule) = bodies.map ended ∧
      ((bodies.map ended).flatMap fun line => entryPages directory (optioned line)) = [] := by
  induction bodies with
  | nil => exact ⟨rfl, rfl⟩
  | cons body bodies ih =>
    obtain ⟨lines, pages⟩ := moved_of_quiet directory submodule (quiet body List.mem_cons_self)
    obtain ⟨others, none⟩ := ih fun other member => quiet other (List.mem_cons_of_mem body member)
    simp only [List.map_cons, List.flatMap_cons, lines, pages, others, none]
    exact ⟨rfl, rfl⟩

variable {stem dotted : Text} {names : List Text} (members : Members stem dotted names)
include members

theorem trim_entry {name : Text} (member : name ∈ names) :
    trim '\n' (trim ' ' (ended ("   " ++ memberFile stem name))) = memberFile stem name := by
  obtain ⟨c, rest, rfl⟩ := List.exists_cons_of_ne_nil members.proper
  have solid : c ≠ .char ' ' := fun same => members.start (congrArg some same)
  have blanks : trim ' ' (ended ("   " ++ memberFile (c :: rest) name)) = memberFile (c :: rest) name ++
      [.char '\n'] := by
    have left : trimLeft ' ' (ended ("   " ++ memberFile (c :: rest) name)) = memberFile (c :: rest) name ++
        [.char '\n'] := by
      show (.char ' ' :: .char ' ' :: .char ' ' :: c :: _ : Text).dropWhile (· == .char ' ') = _
      rw [List.dropWhile_cons_of_pos (by decide), List.dropWhile_cons_of_pos (by decide),
        List.dropWhile_cons_of_pos (by decide), List.dropWhile_cons_of_neg (by simpa using solid)]
      rfl
    rw [trim, left, List.reverse_append, List.reverse_singleton, List.singleton_append,
      List.dropWhile_cons_of_neg (by decide), List.reverse_cons, List.reverse_reverse]
  rw [blanks, trim_append fun found => members.newline member (List.mem_append_right _ found)]

theorem moved_of_entry {name : Text} (member : name ∈ names) :
    movedLine submodule (ended ("   " ++ memberFile stem name)) =
        [replace submodule (submodule ++ "/" ++ submodule) (ended ("   " ++ memberFile stem name))] ∧
      entryPages directory (optioned (ended ("   " ++ memberFile stem name))) = [memberPath directory stem name] := by
  have unseen : ¬mentions ":hidden:" (ended ("   " ++ memberFile stem name)) = true :=
    mt mentions_iff.mp (not_hidden (members.colonless member))
  have slash : (ended ("   " ++ memberFile stem name)).contains (.char '/') = true := by
    refine List.contains_iff_mem.mpr ?_
    simp only [ended, memberFile, List.mem_append]
    exact .inl (.inr (.inl (.inl (.inr List.mem_cons_self))))
  rw [movedLine, optioned, if_neg unseen, if_neg unseen, movedEntry, entryPages, if_pos slash, if_pos slash,
    trim_entry members member]
  exact ⟨rfl, rfl⟩

theorem moved_memberLines :
    (memberLines stem dotted names).flatMap (movedLine submodule) =
        (memberHead stem dotted).map ended ++
          ended "   :hidden:" :: ended "   :titlesonly:" :: ((memberOptions stem).map ended ++
          (names.map fun name => replace submodule (submodule ++ "/" ++ submodule)
            (ended ("   " ++ memberFile stem name))) ++
          [ended []]) ∧
      ((memberLines stem dotted names).flatMap fun line => entryPages directory (optioned line)) =
        names.map (memberPath directory stem) := by
  obtain ⟨head, headPages⟩ := moved_of_all_quiet directory submodule members.quiet_head
  obtain ⟨options, optionPages⟩ := moved_of_all_quiet directory submodule members.quiet_options
  obtain ⟨last, lastPages⟩ := @moved_of_quiet directory submodule [] (by decide)
  have hidden : movedLine submodule (ended "   :hidden:") = [ended "   :hidden:", ended "   :titlesonly:"] ∧
      entryPages directory (optioned (ended "   :hidden:")) = [] := by
    have second : optioned (ended "   :hidden:") = ended "   :titlesonly:" := by decide
    have seen : mentions ":hidden:" (ended "   :hidden:") = true := by decide
    have bare : ¬(ended "   :titlesonly:").contains (.char '/') = true := by decide
    rw [movedLine, if_pos seen, second, movedEntry, entryPages, if_neg bare, if_neg bare]
    exact ⟨rfl, rfl⟩
  -- the induction is on the entries; the rest of the page is the same for all of them
  have entries : ∀ list : List Text, list ⊆ names →
      (list.map fun name => ended ("   " ++ memberFile stem name)).flatMap (movedLine submodule) =
          list.map (fun name => replace submodule (submodule ++ "/" ++ submodule)
            (ended ("   " ++ memberFile stem name))) ∧
        ((list.map fun name => ended ("   " ++ memberFile stem name)).flatMap fun line =>
          entryPages directory (optioned line)) =
          list.map (memberPath directory stem) := by
    intro list inside
    induction list with
    | nil => exact ⟨rfl, rfl⟩
    | cons name list ih =>
      obtain ⟨line, page⟩ := moved_of_entry directory submodule members (inside List.mem_cons_self)
      obtain ⟨lines, pages⟩ := ih fun other member => inside (List.mem_cons_of_mem name member)
      simp only [List.map_cons, List.flatMap_cons, line, page, lines, pages]
      exact ⟨rfl, rfl⟩
  obtain ⟨moved, pages⟩ := entries names (List.Subset.refl names)
  simp only [memberLines, List.flatMap_append, List.flatMap_cons, List.flatMap_nil, head, headPages, hidden.1, hidden.2,
    options, optionPages, moved, pages, last, lastPages, List.append_nil, List.nil_append, List.cons_append]
  exact ⟨trivial, trivial⟩

variable {page file : Text} (slashless : .char '/' ∉ file)
  (held : textAt site tree (directory ++ "/" ++ file) = .ok (memberPage stem dotted names))
  (run : (liftPage page (directory ++ "/" ++ file) submodule).runOn site tree = (.ok (), after))
include slashless held run

/-- The page of a folder is lifted after its members have lost their titles, once for each entry. -/
theorem runOn_liftPage_members :
    (∀ name ∈ names, name.Plain) ∧ ∃ between,
      Rounds (TitleDropped site) (names.map (memberPath directory stem)) tree between ∧
      (writeText page ((memberLines stem dotted names).flatMap (movedLine submodule)).flatten).runOn site between =
        (.ok (), after) := by
  obtain ⟨lines, between, read, rounds, writing⟩ := runOn_liftPage_ok slashless run
  obtain rfl : lines = memberLines stem dotted names := by
    obtain ⟨place, bytes, whole, found, decoded, eq⟩ := (textAt_eq_ok_iff site tree).mp held
    obtain ⟨_, _, text, found', decoded', rfl⟩ := (linesAt_eq_ok_iff site tree).mp read
    cases found.symm.trans found'
    obtain rfl := Except.ok.inj (decoded.symm.trans (Utf8.decode_of_decodeLines decoded'))
    rw [← eq, members.lines_eq]
  rw [(moved_memberLines directory submodule members).2] at rounds
  refine ⟨fun name member => ?_, between, rounds, writing⟩
  have entry : ended ("   " ++ memberFile stem name) ∈ memberLines stem dotted names := by
    simp only [memberLines, List.mem_append, List.mem_cons]
    exact .inr (.inr (.inl (.inr (List.mem_map.mpr ⟨name, member, rfl⟩))))
  refine (plain_linesAt site tree read _ entry).of_subset fun c inside => ?_
  simp only [ended, memberFile, List.mem_append]
  exact .inl (.inr (.inl (.inr inside)))

end

theorem endsIn_memberPath (directory stem name : Text) :
    Path.EndsIn (memberPath directory stem name) (name ++ (".rst" : Text)) := by
  refine .inr ⟨directory ++ "/" ++ stem, ?_⟩
  simp only [memberPath, memberFile, List.append_assoc]
  rfl

theorem rounds_members {directory stem dotted : Text} {names : List Text} (members : Members stem dotted names)
    (plain : ∀ name ∈ names, name.Plain)
    (rounds : Rounds (TitleDropped site) (names.map (memberPath directory stem)) tree after) {name : Text}
    (member : name ∈ names) :
    ∃ place bytes text, site.find tree (memberPath directory stem name) = .ok (place, .file bytes) ∧
      Utf8.decodeLines bytes = .ok text ∧
        after.get? place = some (.file (Utf8.bytesOf (stripped (names.count name) text))) := by
  obtain ⟨_, leads, counts⟩ := rounds_titles rounds
  obtain ⟨place, located⟩ := leads _ (List.mem_map_of_mem member)
  have lost := counts place
  have positive : 0 < (names.map (memberPath directory stem)).countP fun page =>
      decide (site.locate tree page = .ok place) :=
    List.countP_pos_iff.mpr ⟨memberPath directory stem name, List.mem_map_of_mem member, decide_eq_true located⟩
  obtain ⟨count, eq⟩ := Nat.exists_eq_succ_of_ne_zero positive.ne'
  rw [eq] at lost
  obtain ⟨bytes, text, held, decoded, left⟩ := lost
  -- the entries that lead to this place are those of this name
  have same : names.count name = count + 1 := by
    have inner : place ≠ [] := by
      rintro rfl
      cases held
    rw [← Nat.succ_eq_add_one, ← eq, List.countP_map, List.count]
    refine List.countP_congr fun other inside => ?_
    simp only [Function.comp, decide_eq_true_eq, beq_iff_eq]
    exact ⟨fun same => same ▸ located,
      Site.page_unique inner ⟨(members.each name member).slashless, plain name member⟩
        ⟨(members.each other inside).slashless,
          plain other inside⟩ (endsIn_memberPath ..) (endsIn_memberPath ..) located⟩
  exact ⟨place, bytes, text, Site.find_eq_ok_iff.mpr ⟨located, held⟩, decoded, same ▸ left⟩

/-- Once the page of a folder has been lifted, every page that it lists has lost three lines for each entry: its title,
with the directive kept, if it is listed once, and more if it is listed again. No other page has changed, but for the
page that is written. -/
theorem liftPage_titles {directory file page submodule stem dotted : Text} {names : List Text}
    (slashless : .char '/' ∉ file) (members : Members stem dotted names)
    (held : textAt site tree (directory ++ "/" ++ file) = .ok (memberPage stem dotted names))
    (run : (liftPage page (directory ++ "/" ++ file) submodule).runOn site tree = (.ok (), after)) :
    ∃ spot, site.locate tree page = .ok spot ∧
      (∀ name ∈ names, ∃ place bytes text,
        site.find tree (memberPath directory stem name) = .ok (place, .file bytes) ∧ Utf8.decodeLines bytes = .ok text ∧
        (place ≠ spot → after.get? place = some (.file (Utf8.bytesOf (stripped (names.count name) text)))) ∧
        (stripped (names.count name) text = untitled text ↔ names.count name = 1 ∨
          (lines (unifyNewlines text)).length ≤ 3) ∧
        ∀ title rest, Unmarked title → text = title ++ "\n" ++ rule title.length ++ "\n\n" ++ rest →
          stripped (names.count name) text = stripped (names.count name - 1) rest) ∧
      ∀ place, place ≠ spot → (∀ name ∈ names, site.locate tree (memberPath directory stem name) ≠ .ok place) →
        after.get? place = tree.get? place := by
  obtain ⟨plain, between, rounds, writing⟩ := runOn_liftPage_members directory submodule members slashless held run
  obtain ⟨shape, _, counts⟩ := rounds_titles rounds
  obtain ⟨_, spot, _, writes, written⟩ := written_writeText writing
  have here := locate_of_writable writes
  rw [← site.locate_shape shape] at here
  refine ⟨spot, here, fun name member => ?_, fun place apart unlisted => ?_⟩
  · have listed : 0 < names.count name := List.count_pos_iff.mpr member
    obtain ⟨place, bytes, text, found, decoded, left⟩ := rounds_members members plain rounds member
    refine ⟨place, bytes, text, found, decoded, fun apart => ?_, stripped_eq_untitled_iff listed text, ?_⟩
    · -- the written page may be one of those that are listed, and then it has the last word
      rw [written.others place apart, left]
    · rintro title rest unmarked rfl
      obtain ⟨more, eq⟩ := Nat.exists_eq_succ_of_ne_zero listed.ne'
      rw [eq, Nat.succ_eq_add_one, stripped_titled unmarked.newline unmarked.carriage, Nat.add_sub_cancel]
  · have none := counts place
    rw [List.countP_eq_zero.mpr fun page member => ?_] at none
    · rw [written.others place apart]
      exact none
    · obtain ⟨name, inside, rfl⟩ := List.mem_map.mp member
      simpa using unlisted name inside

def relistedSite : Site := .ascending "/w" ["docs"]

def relistedModule : Text := "\ndef f(x):\n\ndef f(y):\n"

def relistedSettings : Settings := { library := "../lib" }

def relistedTree : Tree :=
  ⟨[(["docs"], .directory), (["docs", "p"], .directory),
    (["docs", "p", "m.rst"], .file (Utf8.bytesOf (modulePage relistedSettings [] "m" relistedModule))),
    (["docs", "p", "m"], .directory), (["docs", "p", "m", "f.rst"],
      .file (Utf8.bytesOf (functionPage "f" "lib.m.f" [])))]⟩

def relistedRun : Except Fault Unit × Tree :=
  (liftPage "p/x.rst" (("p" : Text) ++ "/" ++ "m.rst") "m").runOn relistedSite relistedTree

theorem liftPage_titles_sample : relistedRun.1 = .ok () ∧
    relistedRun.2.get? ["docs", "p", "m", "f.rst"] = some (.file []) := by
  have evaluated : relistedRun.1 = .ok () ∧ relistedSite.locate relistedTree "p/x.rst" = .ok ["docs", "p", "x.rst"] ∧
      textAt relistedSite relistedTree (("p" : Text) ++ "/" ++ "m.rst") =
        .ok (modulePage relistedSettings [] "m" relistedModule) ∧
      relistedSite.find relistedTree (memberPath "p" "m" "f") =
        .ok (["docs", "p", "m", "f.rst"], .file (Utf8.bytesOf (functionPage "f" "lib.m.f" []))) := by decide +kernel
  have shapes : Module.functionNames relistedModule ++ Module.classNames relistedModule = [("f" : Text), "f"] ∧
      dottedName relistedSettings ([] ++ [("m" : Text)]) = "lib.m" ∧
      Utf8.decodeLines (Utf8.bytesOf (functionPage "f" "lib.m.f" [])) = .ok (functionPage "f" "lib.m.f" []) ∧
      stripped 2 (functionPage "f" "lib.m.f" []) = [] := by decide +kernel
  obtain ⟨done, spot, text, there⟩ := evaluated
  obtain ⟨names, dotted, whole, nothing⟩ := shapes
  rw [modulePage_eq_memberPage, names, dotted] at text
  have members : Members "m" "lib.m" [("f" : Text), "f"] := ⟨by decide, by decide, by decide, by decide, by decide⟩
  have run : relistedRun = (.ok (), relistedRun.2) := run_eq_of_ok done
  obtain ⟨_, written, listed, _⟩ := liftPage_titles (by decide) members text run
  cases spot.symm.trans written
  obtain ⟨place, bytes, _, found, decoded, left, _⟩ := listed "f" List.mem_cons_self
  cases there.symm.trans found
  cases whole.symm.trans decoded
  have twice : [("f" : Text), "f"].count ("f" : Text) = 2 := by decide
  have rest := left (by decide)
  rw [twice, nothing] at rest
  exact ⟨done, rest⟩

def liftedEntry (kind name : Text) : Text :=
  kind ++ "/" ++ kind ++ "/" ++ replace kind (kind ++ "/" ++ kind) name ++ ".rst"

def liftedLine (kind name : Text) : Text := "   " ++ liftedEntry kind name ++ "\n"

def liftedPage (kind dotted : Text) (names : List Text) : Text :=
  header (replace "_" " " kind) dotted ++
    "\n\n.. toctree::\n   :hidden:\n   :titlesonly:\n   :maxdepth: -1\n   :caption: " ++
    Toctree.caption none kind ++ "\n\n" ++ names.flatMap (liftedLine kind) ++ "\n"

section
variable {kind : Text} (kinds : kind = "array" ∨ kind = "container")
include kinds

theorem kind_proper : kind ≠ [] ∧ .char '/' ∉ kind ∧ .char '.' ∉ kind ∧ Unmarked kind ∧
    kind.head? ≠ some (.char ' ') := by
  rcases kinds with rfl | rfl <;> decide

theorem replace_entry (name : Text) :
    replace kind (kind ++ "/" ++ kind) (ended ("   " ++ memberFile kind name)) = liftedLine kind name := by
  obtain ⟨proper, slashless, dotless, _⟩ := kind_proper kinds
  have start : replace kind (kind ++ "/" ++ kind) ("   " ++ kind) = "   " ++ (kind ++ "/" ++ kind) ∧
      replace kind (kind ++ "/" ++ kind) "rst\n" = "rst\n" := by
    rcases kinds with rfl | rfl <;> decide
  have cut : ended ("   " ++ memberFile kind name) =
      ("   " ++ kind) ++ .char '/' :: (name ++ .char '.' :: ("rst\n" : Text)) := by
    simp only [ended, memberFile, List.append_assoc]
    rfl
  rw [cut, replace_mark proper slashless, replace_mark proper dotless, start.1, start.2]
  simp only [liftedLine, liftedEntry, List.append_assoc]
  rfl

/-- An entry leads to the page of its member unless the folder's name is in the name of the member. -/
theorem liftedEntry_eq_iff {name : Text} (slashless : .char '/' ∉ name) :
    liftedEntry kind name = memberFile (kind ++ "/" ++ kind) name ↔ ¬kind <:+: name := by
  obtain ⟨proper, _⟩ := kind_proper kinds
  have same : liftedEntry kind name = memberFile (kind ++ "/" ++ kind) name ↔
      replace kind (kind ++ "/" ++ kind) name = name := by
    rw [liftedEntry, memberFile, List.append_cancel_right_eq, List.append_cancel_left_eq]
  rw [same]
  refine ⟨fun kept found => slashless ?_, replace_of_not_infix proper _⟩
  have inside := (infix_replace proper (kind ++ "/" ++ kind) found).subset
    (List.mem_append_left _ (List.mem_append_right kind List.mem_cons_self))
  rwa [kept] at inside

theorem flatten_lifted {dotted : Text} {names : List Text} (members : Members kind dotted names) :
    ((memberLines kind dotted names).flatMap (movedLine kind)).flatten = liftedPage kind dotted names := by
  have entries : (names.map fun name => replace kind (kind ++ "/" ++ kind)
    (ended ("   " ++ memberFile kind name))).flatten =
      names.flatMap (liftedLine kind) := by
    rw [List.flatMap_def]
    exact congrArg List.flatten (List.map_congr_left fun name _ => replace_entry kinds name)
  have options : ended "   :titlesonly:" ++ ((memberOptions kind).map ended).flatten =
      "   :titlesonly:\n   :maxdepth: -1\n   :caption: " ++ Toctree.caption none kind ++ "\n\n" := by
    rw [flatten_options]
    simp [ended, ofChars]
  have page : liftedPage kind dotted names =
    (header (replace "_" " " kind) dotted ++ "\n\n.. toctree::\n   :hidden:\n") ++
      ("   :titlesonly:\n   :maxdepth: -1\n   :caption: " ++ Toctree.caption none kind ++ "\n\n") ++
      names.flatMap (liftedLine kind) ++ ended [] := by
    simp [liftedPage, ended, ofChars]
  rw [page, ← flatten_head, ← options, ← entries, (moved_memberLines [] kind members).1]
  simp only [List.flatten_append, List.flatten_cons, List.flatten_nil, List.append_nil, List.append_assoc]

/-- The page of a data class that has been lifted lists, for each entry, a page of its member, and this page is there.
It is the one that the entry leads to exactly if the name of the data class is not in the name of the member. -/
theorem liftPage_entries {classes dotted : Text} {names : List Text} (path : Unmarked dotted)
    (each : ∀ name ∈ names, Unmarked name)
    (held : textAt site tree (classes ++ "/" ++ kind ++ "/" ++ (kind ++ ".rst")) = .ok (memberPage kind dotted names))
    (run : (liftPage (classes ++ "/" ++ (kind ++ ".rst")) (classes ++ "/" ++ kind ++ "/" ++ (kind ++ ".rst"))
      kind).runOn site tree =
      (.ok (), after)) :
    (∃ spot, site.find after (classes ++ "/" ++ (kind ++ ".rst")) =
        .ok (spot, .file (Utf8.bytesOf (liftedPage kind dotted names)))) ∧
      ∀ name ∈ names, (∃ place bytes, site.find after (classes ++ "/" ++ memberFile (kind ++ "/" ++ kind) name) =
          .ok (place, .file bytes)) ∧
        (liftedEntry kind name = memberFile (kind ++ "/" ++ kind) name ↔ ¬kind <:+: name) := by
  obtain ⟨proper, slashless, _, unmarked, start⟩ := kind_proper kinds
  have members : Members kind dotted names := ⟨proper, start, unmarked, path, each⟩
  have bare : .char '/' ∉ kind ++ (".rst" : Text) :=
    fun inside => (List.mem_append.mp inside).elim slashless (by decide)
  obtain ⟨plain, between, rounds, writing⟩ := runOn_liftPage_members (classes ++ "/" ++ kind) kind members bare held run
  rw [flatten_lifted kinds members] at writing
  obtain ⟨_, spot, _, writes, written⟩ := written_writeText writing
  refine ⟨⟨spot, ?_⟩, fun name member => ⟨?_, liftedEntry_eq_iff kinds (each name member).slashless⟩⟩
  · exact Site.find_eq_ok_iff.mpr ⟨Site.locate_keeps written.keeps (locate_of_writable writes), written.here⟩
  · obtain ⟨place, bytes, text, found, _, left⟩ := rounds_members members plain rounds member
    obtain ⟨located, _⟩ := Site.find_eq_ok_iff.mp found
    have same : memberPath (classes ++ "/" ++ kind) kind name =
        classes ++ "/" ++ memberFile (kind ++ "/" ++ kind) name := by
      simp only [memberPath, memberFile, List.append_assoc]
    rw [site.locate_shape (rounds_titles rounds).1, same] at located
    have here := Site.find_eq_ok_iff.mpr ⟨located, left⟩
    -- the page of a member can be the written page itself
    by_cases covered : spot = place
    · exact ⟨place, _, Site.find_eq_ok_iff.mpr ⟨Site.locate_keeps written.keeps located, covered ▸ written.here⟩⟩
    · exact ⟨place, _, written.find covered here⟩

end

def classSite : Site := .ascending "/w" ["docs"]

def classMembers : List Text := ["asarray", "b"]

def classTree : Tree :=
  ⟨[(["docs"], .directory), (["docs", "c"], .directory), (["docs", "c", "array"], .directory),
    (["docs", "c", "array", "array.rst"], .file (Utf8.bytesOf (memberPage "array" "ivy.array" classMembers))),
    (["docs", "c", "array", "array"], .directory), (["docs", "c", "array", "array", "asarray.rst"], .file []),
    (["docs", "c", "array", "array", "b.rst"], .file [])]⟩

def classRun : Except Fault Unit × Tree :=
  (liftPage (("c" : Text) ++ "/" ++ (("array" : Text) ++ ".rst"))
    (("c" : Text) ++ "/" ++ "array" ++ "/" ++ (("array" : Text) ++ ".rst"))
    "array").runOn classSite classTree

theorem liftPage_entries_sample :
    (∃ spot, classSite.find classRun.2 "c/array.rst" =
      .ok (spot, .file (Utf8.bytesOf (liftedPage "array" "ivy.array" classMembers)))) ∧
      (∃ place bytes, classSite.find classRun.2 "c/array/array/asarray.rst" = .ok (place, .file bytes)) ∧
      liftedEntry "array" "asarray" = "array/array/asarray/array.rst" ∧
      liftedEntry "array" "asarray" ≠ "array/array/asarray.rst" ∧
      liftedEntry "array" "b" = "array/array/b.rst" := by
  have evaluated : classRun.1 = .ok () ∧
    textAt classSite classTree (("c" : Text) ++ "/" ++ "array" ++ "/" ++ (("array" : Text) ++ ".rst")) =
      .ok (memberPage "array" "ivy.array" classMembers) := by decide +kernel
  have paths : ("c" : Text) ++ "/" ++ (("array" : Text) ++ ".rst") = "c/array.rst" ∧
      memberFile (("array" : Text) ++ "/" ++ "array") "asarray" = "array/array/asarray.rst" ∧
      memberFile (("array" : Text) ++ "/" ++ "array") "b" = "array/array/b.rst" ∧
      ("c" : Text) ++ "/" ++ "array/array/asarray.rst" = "c/array/array/asarray.rst" ∧
      mentions "array" "asarray" = true ∧ ¬mentions "array" "b" = true ∧
      liftedEntry "array" "asarray" = "array/array/asarray/array.rst" := by decide +kernel
  obtain ⟨done, text⟩ := evaluated
  obtain ⟨page, first, second, whole, inside, outside, moved⟩ := paths
  have run : classRun = (.ok (), classRun.2) := run_eq_of_ok done
  obtain ⟨lifted, each⟩ := liftPage_entries (.inl rfl) (by decide) (by decide) text run
  obtain ⟨there, leads⟩ := each "asarray" List.mem_cons_self
  obtain ⟨_, leads'⟩ := each "b" (List.mem_cons_of_mem _ List.mem_cons_self)
  rw [page] at lifted
  rw [first, whole] at there
  rw [first] at leads
  rw [second] at leads'
  exact ⟨lifted, there, moved, fun same => leads.mp same (mentions_iff.mp inside),
    leads'.mpr (mt mentions_iff.mpr outside)⟩

end DataClass
end ApiDocs
