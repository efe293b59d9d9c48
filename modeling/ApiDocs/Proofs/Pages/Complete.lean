import ApiDocs.Proofs.Pages.Settled

/-! What the pages of a library are at the end: the page of a module lists pages that are there and document what the
module defines, and the page of a directory is its readme with one table of contents. -/

set_option autoImplicit false

namespace ApiDocs.Pages
open Script Text ApiDocs.Module

/-- Where an entry of a table of contents leads from the page that it stands on. -/
def linked (page : Place) (entry : Text) : Place := page.dropLast ++ Path.names entry

theorem linked_member (front : Place) (page : Text) {stem name : Text} (folder : Path.Word stem)
    (word : Path.Word name) :
    linked (front ++ [page]) (Path.join stem (name ++ (".rst" : Text))) = front ++ [stem, name ++ (".rst" : Text)] := by
  have single : ∀ other ∈ [stem], Path.Single other := fun other member => List.mem_singleton.mp member ▸ folder.single
  have both : ∀ other ∈ [stem, name ++ (".rst" : Text)], Path.Single other := by
    intro other member
    rcases List.mem_cons.mp member with rfl | last
    · exact folder.single
    · rw [List.mem_singleton.mp last]
      exact Path.single_append word.slashless (by decide) (by decide)
  have path : Path.join stem (name ++ (".rst" : Text)) = join "/" [stem, name ++ (".rst" : Text)] :=
    Path.join_names (List.cons_ne_nil _ _) single fun slash => (both _ (by simp)).slashless (List.mem_of_head? slash)
  rw [linked, List.dropLast_concat, path, Path.names_names (List.cons_ne_nil _ _) both]

/-- At the end every module that is neither excluded nor left out has its page. The page ends with a table of the
functions for everyone and of the classes that the module defines, and each entry leads to a page that documents it by
its dotted name. -/
theorem modulePage_agrees {site : Site} {settings : Settings} {lib : Place} {base : Tree}
    (prepared : Prepared site settings lib base) {goal : Place} (reached : Reached settings lib base goal) {stem : Text}
    (kept : stem ∉ excludedNames) (named : goal = [] → stem ≠ "index" ∧ stem ≠ "docs") {bytes : Bytes} {text : Text}
    (held : base.get? (lib ++ goal ++ [stem ++ (".py" : Text)]) = some (.file bytes))
    (read : text = unifyNewlines (Utf8.decodeLenient bytes)) (distinct : (functionNames text ++ classNames text).Nodup)
    {after : Tree} {result : List Text × List Text}
    (run : (write settings settings.library).runOn site base = (.ok result, after)) :
    ∃ page, page = top site ++ goal ++ [stem ++ (".rst" : Text)] ∧
      after.get? page = some (.file (Utf8.bytesOf
        (header (replace "_" " " stem) (dottedName settings (goal ++ [stem])) ++
        Toctree.render none [(stem, (functionNames text ++ classNames text).map (· ++ (".rst" : Text)))]))) ∧
      (∀ name ∈ functionNames text, ∃ title frameworks,
        after.get? (linked page (Path.join stem (name ++ (".rst" : Text)))) =
          some (.file (Utf8.bytesOf (functionPage title (dottedName settings (goal ++ [stem]) ++ "." ++ name)
            frameworks)))) ∧
      ∀ name ∈ classNames text, ∃ frameworks,
        after.get? (linked page (Path.join stem (name ++ (".rst" : Text)))) =
          some (.file (Utf8.bytesOf (classPage name (dottedName settings (goal ++ [stem]) ++ "." ++ name)
            frameworks))) := by
  subst read
  have documented : Documented lib base goal stem := ⟨by rw [held]; rfl, kept⟩
  have word := prepared.regular.stem goal stem documented
  obtain ⟨functionsTitled, classesTitled⟩ := prepared.regular.titled goal stem bytes documented held
  have paged := prepared.paged reached documented named held distinct run
  have place : ∀ {name : Text}, Path.Word name →
      linked (top site ++ goal ++ [stem ++ (".rst" : Text)]) (Path.join stem (name ++ (".rst" : Text))) =
        top site ++ (goal ++ [stem]) ++ [name ++ (".rst" : Text)] := by
    intro name word'
    rw [linked_member _ _ word word']
    simp
  refine ⟨_, rfl, paged.page, fun name member => ?_, fun name member => ?_⟩
  · rw [place (functionsTitled.word name (List.mem_of_mem_filter member))]
    exact ⟨_, _, paged.functions name member⟩
  · rw [place (classesTitled.word name member)]
    exact ⟨_, paged.classes name member⟩

/-- At the end the page of every directory below the library that is visited and has a readme is the text of the readme
and the table of the directories and modules in it. -/
theorem directoryPage_survives {site : Site} {settings : Settings} {lib : Place} {base : Tree}
    (prepared : Prepared site settings lib base) {front : Place} {last : Text}
    (reached : Reached settings lib base (front ++ [last])) (outside : Outside site (lib ++ (front ++ [last])))
    (unindexed : front = [] → last ≠ "index") {bytes : Bytes}
    (held : base.get? (lib ++ (front ++ [last]) ++ [("README.rst" : Text)]) = some (.file bytes)) {after : Tree}
    {result : List Text × List Text} (run : (write settings settings.library).runOn site base = (.ok result, after)) :
    ∃ readme, Utf8.decode bytes = .ok readme ∧
      after.get? (top site ++ front ++ [last ++ (".rst" : Text)]) = some (.file (Utf8.bytesOf (unifyNewlines readme ++
        Toctree.render none [(last, directoryPages settings (directoriesIn site settings lib base (front ++ [last]))
          (modulesIn site settings lib base (front ++ [last])))]))) := by
  have below : front ++ [last] ≠ [] := by simp
  have apart : front ++ [last] ≠ [("index" : Text)] := by
    intro same
    obtain ⟨empty, final⟩ := List.append_inj' (same.trans (List.nil_append _).symm) rfl
    exact unindexed empty (List.cons.inj final).1
  obtain ⟨text, read, page⟩ := prepared.directory_page reached below outside (by rw [held]; rfl) apart run
  obtain ⟨place, found, readme, there, decoded, rfl⟩ := (textAt_eq_ok_iff site base).mp read
  -- the path of the readme leads to the readme of the directory
  have single : Path.Single "README.rst" := (Path.named_of_isNamed (by decide)).single
  have located := prepared.locate_on_way reached (List.append_nil (front ++ [last])).symm
  obtain ⟨further, present⟩ := Site.find_eq_ok_iff.mp there
  obtain rfl := Site.locate_join_plain prepared.placed single (plain_ofChars _) located reached.held further
  cases held.symm.trans present
  refine ⟨readme, decoded, ?_⟩
  rw [pageNames_snoc, ← List.append_assoc] at page
  rw [page, directoryPage, List.getLastD_eq_getLast?, List.getLast?_concat]
  rfl

theorem runOn_write_of_ended {settings : Settings} {site : Site} {tree : Tree} {depth : Nat}
    {result : List Text × List Text} (enough : 2 * (tree.height + 4) = depth)
    (ended : ((writeUpTo settings depth settings.library).runOn site tree).1 = .ok result) :
    (write settings settings.library).runOn site tree =
      (.ok result, ((writeUpTo settings depth settings.library).runOn site tree).2) := by
  rw [runOn_write, enough, ← ended]

def sampleSite : Site := .ascending "/workspace" ["docs"]

def workspace (related : Text) (more : List (Place × Entry)) : Tree :=
  ⟨([(["README.rst"], .file (Utf8.bytesOf "Read\n")), (["docs"], .directory),
    (["docs", "ivy_modules.txt"], .file (Utf8.bytesOf related)), (["docs", "partial_source"], .directory),
    (["docs", "partial_source", "index_prepend.rst"], .file (Utf8.bytesOf "Pre\n"))] : List (Place × Entry)) ++ more⟩

def sampleSettings : Settings := { library := "../lib", heading := .byDirectory, skipped := ["a/b"] }

def sampleModule : Text := "\ndef f(x):\n\nclass C(y):\n"

def sampleTree : Tree := workspace "ivy\n" [(["lib"], .directory), (["lib", "a"], .directory),
  (["lib", "a", "README.rst"], .file (Utf8.bytesOf "A\n")), (["lib", "a", "m.py"], .file (Utf8.bytesOf sampleModule)),
  (["lib", "a", "b"], .directory), (["lib", "a", "b", "n.py"], .file [])]

def sampleAfter : Tree := ((writeUpTo sampleSettings 16 sampleSettings.library).runOn sampleSite sampleTree).2

/-- All that has to be evaluated of the sample: its pages are written, the workspace is prepared and the directory is
visited. -/
theorem evaluated_sample :
    (2 * (sampleTree.height + 4) = 16 ∧
      ((writeUpTo sampleSettings 16 sampleSettings.library).runOn sampleSite sampleTree).1 = .ok (["../lib/a"], [])) ∧
    (Path.base sampleSettings.library ≠ [] ∧ index? (Path.base sampleSettings.library) sampleSettings.library =
      some (sampleSettings.library.length - (Path.base sampleSettings.library).length)) ∧
    (sampleTree.isSound = true ∧ isRegular sampleSettings ["lib"] sampleTree = true ∧
      sampleSite.locate sampleTree sampleSettings.library = .ok ["lib"] ∧
      linesAt sampleSite sampleTree (Path.join sampleSettings.here "ivy_modules.txt") = .ok ["ivy\n"] ∧
      ∀ line ∈ ([("ivy\n" : Text)] : List Text), .char '/' ∉ line) ∧
    sampleTree.get? (["lib"] ++ ["a"]) = some .directory ∧
    (∀ count < 1, excludedDirectories.contains
      (Path.base (Path.walked sampleSettings.library ((["a"] : Place).take (count + 1)))) = false ∧
      (skippedDirectories sampleSettings).contains
        (Path.walked sampleSettings.library ((["a"] : Place).take (count + 1))) = false) ∧
    Path.size (Path.walked sampleSettings.library ["a"]) ≤ Path.pathLimit := by
  decide +kernel

theorem runOn_sample :
    (write sampleSettings sampleSettings.library).runOn sampleSite sampleTree =
      (.ok (["../lib/a"], []), sampleAfter) := by
  rw [sampleAfter]
  exact runOn_write_of_ended evaluated_sample.1.1 evaluated_sample.1.2

theorem rooted_sample : Rooted sampleSettings := ⟨evaluated_sample.2.1.1, evaluated_sample.2.1.2⟩

theorem prepared_sample : Prepared sampleSite sampleSettings ["lib"] sampleTree := by
  obtain ⟨sound, regular, located, read, slashless⟩ := evaluated_sample.2.2.1
  exact ⟨.inr (by decide), by decide, regular_of_isRegular rooted_sample (Tree.sound_of_isSound sound) regular, located,
    ["ivy\n"], read, slashless⟩

theorem reached_sample : Reached sampleSettings ["lib"] sampleTree ["a"] := by
  obtain ⟨held, visited, short⟩ := evaluated_sample.2.2.2
  exact ⟨held, visited_of_all visited, short⟩

theorem modulePage_agrees_sample :
    sampleAfter.get? ["docs", "autogenerated_source", "a", "m.rst"] = some (.file (Utf8.bytesOf
        (("M\n=\n\n.. automodule:: lib.a.m\n    :members:\n    :special-members: __init__\n    :undoc-members:\n" ++
            "    :show-inheritance:\n") ++
          "\n\n.. toctree::\n   :hidden:\n   :maxdepth: -1\n   :caption: M\n\n   m/f.rst\n   m/C.rst\n\n"))) ∧
      (∃ title frameworks : Text, sampleAfter.get? ["docs", "autogenerated_source", "a", "m", "f.rst"] =
        some (.file (Utf8.bytesOf (title ++ ("\n" : Text) ++ List.replicate title.length (.char '=') ++
          ("\n\n.. autofunction:: " : Text) ++ ("lib.a.m.f" : Text) ++ ("\n" : Text) ++ frameworks)))) ∧
      ∃ frameworks : Text, sampleAfter.get? ["docs", "autogenerated_source", "a", "m", "C.rst"] =
        some (.file (Utf8.bytesOf ("C" ++ "\n" ++ "=" ++ "\n\n.. autoclass:: " ++ "lib.a.m.C" ++ "\n" ++
          "   :members:\n   :special-members: __init__\n   :undoc-members:\n   :show-inheritance:\n" ++
            frameworks))) := by
  have read : sampleModule = unifyNewlines (Utf8.decodeLenient (Utf8.bytesOf sampleModule)) := by decide
  have functions : functionNames sampleModule = [("f" : Text)] := by decide
  have classes : classNames sampleModule = [("C" : Text)] := by decide
  have title : replace "_" " " ("m" : Text) = "m" := by decide
  have dotted : dottedName sampleSettings ([("a" : Text)] ++ [("m" : Text)]) = "lib.a.m" := by decide
  have held : sampleTree.get? ([("lib" : Text)] ++ [("a" : Text)] ++ [("m" : Text) ++ (".py" : Text)]) =
      some (.file (Utf8.bytesOf sampleModule)) := by decide
  obtain ⟨page, here, written, first, second⟩ :=
    modulePage_agrees prepared_sample reached_sample (by decide) (by decide) held read
    (by rw [functions, classes]; decide) runOn_sample
  have entries : ([("f" : Text)] ++ [("C" : Text)]).map (· ++ (".rst" : Text)) = [("f.rst" : Text), "C.rst"] := by
    decide
  have own : page = [("docs" : Text), "autogenerated_source", "a", "m.rst"] := here.trans (by decide)
  have function : linked page (Path.join "m" ("f" ++ (".rst" : Text))) =
      [("docs" : Text), "autogenerated_source", "a", "m", "f.rst"] := by
    rw [own]
    decide
  have other : linked page (Path.join "m" ("C" ++ (".rst" : Text))) =
      [("docs" : Text), "autogenerated_source", "a", "m", "C.rst"] := by
    rw [own]
    decide
  have text : header "m" "lib.a.m" ++ Toctree.render none [("m", ["f.rst", "C.rst"])] =
      ("M\n=\n\n.. automodule:: lib.a.m\n    :members:\n    :special-members: __init__\n    :undoc-members:\n" ++
          "    :show-inheritance:\n") ++
        "\n\n.. toctree::\n   :hidden:\n   :maxdepth: -1\n   :caption: M\n\n   m/f.rst\n   m/C.rst\n\n" := by
    decide +kernel
  rw [own, functions, classes, title, dotted, entries, text] at written
  rw [functions, dotted] at first
  rw [classes, dotted] at second
  refine ⟨written, ?_, ?_⟩
  · rw [← function]
    exact first "f" (List.mem_singleton_self _)
  · rw [← other]
    exact second "C" (List.mem_singleton_self _)

def plainSettings : Settings := { library := "../lib", heading := .byDirectory }

def relatedTree : Tree := workspace "../m\n" [(["lib"], .directory), (["lib", "m.py"], .file [])]

def detour : Text := "../" ++ times 15 (times 63 "𝄞" ++ "/../") ++ times 61 "𝄞" ++ "/../lib"

def detourSettings : Settings := { library := detour, heading := .byDirectory }

def detourTree : Tree := workspace "ivy\n" [([times 63 "𝄞"], .directory), ([times 61 "𝄞"], .directory),
  (["lib"], .directory), (["lib", "a"], .directory), (["lib", "a", "m.py"], .file [])]

/-- The page of a related library can take the place of a module's, and a module in a directory whose path is too long
has no page. -/
theorem modulePage_overwritten_or_missing :
    (Regular plainSettings ["lib"] relatedTree ∧ ∃ result after,
      (write plainSettings plainSettings.library).runOn sampleSite relatedTree = (.ok result, after) ∧
        after.get? ["docs", "autogenerated_source", "m.rst"] = some (.file (Utf8.bytesOf "../m\n===="))) ∧
      Regular detourSettings ["lib"] detourTree ∧ detourTree.get? ["lib", "a", "m.py"] = some (.file []) ∧
        ∃ result after,
        (write detourSettings detourSettings.library).runOn sampleSite detourTree = (.ok result, after) ∧
          after.get? ["docs", "autogenerated_source", "a", "m.rst"] = none := by
  have rooted : Rooted plainSettings := ⟨by decide +kernel, by decide +kernel⟩
  have rooted' : Rooted detourSettings := ⟨by decide +kernel, by decide +kernel⟩
  have overwritten : ((writeUpTo plainSettings 14 plainSettings.library).runOn sampleSite relatedTree).1 =
    .ok ([], ["../lib/m.py"]) ∧
      ((writeUpTo plainSettings 14 plainSettings.library).runOn sampleSite relatedTree).2.get?
        ["docs", "autogenerated_source", "m.rst"] = some (.file (Utf8.bytesOf "../m\n====")) := by decide +kernel
  have missing : ((writeUpTo detourSettings 14 detourSettings.library).runOn sampleSite detourTree).1 = .ok ([], []) ∧
      ((writeUpTo detourSettings 14 detourSettings.library).runOn sampleSite detourTree).2.get?
        ["docs", "autogenerated_source", "a", "m.rst"] = none := by decide +kernel
  refine ⟨⟨regular_of_isRegular rooted (Tree.sound_of_isSound (by decide +kernel)) (by decide +kernel), ?_⟩,
    regular_of_isRegular rooted' (Tree.sound_of_isSound (by decide +kernel)) (by decide +kernel), by decide +kernel, ?_⟩
  · exact ⟨_, _, runOn_write_of_ended (by decide +kernel) overwritten.1, overwritten.2⟩
  · exact ⟨_, _, runOn_write_of_ended (by decide +kernel) missing.1, missing.2⟩

theorem directoryPage_survives_sample :
    sampleAfter.get? ["docs", "autogenerated_source", "a.rst"] = some (.file (Utf8.bytesOf
      "A\n\n\n.. toctree::\n   :hidden:\n   :maxdepth: -1\n   :caption: A\n\n   a/b.rst\n   a/m.rst\n\n")) := by
  have outside : Outside sampleSite ([("lib" : Text)] ++ ([] ++ [("a" : Text)])) := by
    rintro name ⟨rest, eq⟩
    have first : some ("docs" : Text) = some "lib" := congrArg List.head? eq
    exact absurd first (by decide)
  have listed : directoryPages sampleSettings (directoriesIn sampleSite sampleSettings ["lib"] sampleTree ["a"])
      (modulesIn sampleSite sampleSettings ["lib"] sampleTree ["a"]) = [("b.rst" : Text), "m.rst"] := by decide
  have reached : Reached sampleSettings ["lib"] sampleTree ([] ++ [("a" : Text)]) := reached_sample
  have held : sampleTree.get? ([("lib" : Text)] ++ ([] ++ [("a" : Text)]) ++ [("README.rst" : Text)]) =
      some (.file (Utf8.bytesOf "A\n")) := by decide
  have text : Utf8.decode (Utf8.bytesOf "A\n") = .ok "A\n" := by decide
  have unified : unifyNewlines "A\n" ++ Toctree.render none [("a", ["b.rst", "m.rst"])] =
      "A\n\n\n.. toctree::\n   :hidden:\n   :maxdepth: -1\n   :caption: A\n\n   a/b.rst\n   a/m.rst\n\n" := by decide
  obtain ⟨readme, decoded, page⟩ := directoryPage_survives prepared_sample reached outside (by decide) held runOn_sample
  cases text.symm.trans decoded
  rw [List.nil_append, listed, unified] at page
  exact page

def relatedReadmeTree : Tree := workspace "../a\n" [(["lib"], .directory), (["lib", "a"], .directory),
  (["lib", "a", "README.rst"], .file (Utf8.bytesOf "A\n"))]

def innerSettings : Settings := { library := "../docs", heading := .byDirectory }

def innerTree : Tree := workspace "ivy\n" [(["docs", "a"], .directory),
  (["docs", "a", "b.py"], .file (Utf8.bytesOf "\ndef README(x):\n")), (["docs", "autogenerated_source"], .directory),
  (["docs", "autogenerated_source", "a"], .directory), (["docs", "autogenerated_source", "a", "b"], .directory),
  (["docs", "autogenerated_source", "a", "b", "README.rst"], .file (Utf8.bytesOf "old\n"))]

/-- The page of a related library can take the place of a directory's, and in the folder of the pages a readme can be
replaced before it is copied. -/
theorem directoryPage_overwritten_or_changed :
    (Regular plainSettings ["lib"] relatedReadmeTree ∧ ∃ result after,
      (write plainSettings plainSettings.library).runOn sampleSite relatedReadmeTree = (.ok result, after) ∧
        after.get? ["docs", "autogenerated_source", "a.rst"] = some (.file (Utf8.bytesOf "../a\n===="))) ∧
      Regular innerSettings ["docs"] innerTree ∧
        Reached innerSettings ["docs"] innerTree ["autogenerated_source", "a", "b"] ∧
        innerTree.get? ["docs", "autogenerated_source", "a", "b", "README.rst"] = some (.file (Utf8.bytesOf "old\n")) ∧
        ∃ result after, (write innerSettings innerSettings.library).runOn sampleSite innerTree = (.ok result, after) ∧
          after.get? ["docs", "autogenerated_source", "autogenerated_source", "a", "b.rst"] =
            some (.file (Utf8.bytesOf (functionPage "README" "docs.a.b.README" [] ++
              Toctree.render none [("b", [])]))) := by
  have rooted : Rooted plainSettings := ⟨by decide +kernel, by decide +kernel⟩
  have rooted' : Rooted innerSettings := ⟨by decide +kernel, by decide +kernel⟩
  have overwritten : ((writeUpTo plainSettings 14 plainSettings.library).runOn sampleSite relatedReadmeTree).1 =
        .ok (["../lib/a"], []) ∧
      ((writeUpTo plainSettings 14 plainSettings.library).runOn sampleSite relatedReadmeTree).2.get?
        ["docs", "autogenerated_source", "a.rst"] = some (.file (Utf8.bytesOf "../a\n====")) := by decide +kernel
  have changed : ((writeUpTo innerSettings 18 innerSettings.library).runOn sampleSite innerTree).1 =
        .ok (["../docs/a", "../docs/autogenerated_source", "../docs/partial_source"], []) ∧
      ((writeUpTo innerSettings 18 innerSettings.library).runOn sampleSite innerTree).2.get?
        ["docs", "autogenerated_source", "autogenerated_source", "a", "b.rst"] =
          some (.file (Utf8.bytesOf (functionPage "README" "docs.a.b.README" [] ++
            Toctree.render none [("b", [])]))) := by
    decide +kernel
  have reached : Reached innerSettings ["docs"] innerTree ["autogenerated_source", "a", "b"] :=
    ⟨by decide +kernel, visited_of_all (by decide +kernel), by decide +kernel⟩
  refine ⟨⟨regular_of_isRegular rooted (Tree.sound_of_isSound (by decide +kernel)) (by decide +kernel), ?_⟩,
    regular_of_isRegular rooted' (Tree.sound_of_isSound (by decide +kernel)) (by decide +kernel),
      reached, by decide +kernel, ?_⟩
  · exact ⟨_, _, runOn_write_of_ended (by decide +kernel) overwritten.1, overwritten.2⟩
  · exact ⟨_, _, runOn_write_of_ended (by decide +kernel) changed.1, changed.2⟩

end ApiDocs.Pages
