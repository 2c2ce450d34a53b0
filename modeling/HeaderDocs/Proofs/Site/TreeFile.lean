import HeaderDocs.Proofs.CommandLine.Update
import HeaderDocs.Proofs.Files.Trees
import HeaderDocs.Proofs.Site.Builds

/-!
# Files that should hold a tree

The file in which a tree is kept may hold any bytes. If they are UTF-8, the tree is loaded or it can
be said why not; a build then goes on with a new tree, and the command ends with what is to be said.
Any other bytes stop both.

* `loadsOrTells_iff`: which contents are loaded or reported.
* `error_build_iff`: which builds come to their end.
* `run_of_text`: how the command ends on a file that is a text.
-/
namespace HeaderDocs

open HeaderDocs.Text

variable {store : Store} {path : String} {bytes : List UInt8}

/-! ## Loading -/

namespace Store

/-- What can be read from the file with a path name, if anything, is UTF-8. -/
def HoldsText (s : Store) (path : String) : Prop :=
  ∀ bytes, s.read path = .ok bytes → (Utf8.decode? bytes).isSome = true

/-- Loading gives a tree, or else a reason that can be told. -/
def LoadsOrTells (s : Store) (path : String) : Prop :=
  (∃ tree, s.loadTree path = .ok tree) ∨
    ∃ e message, s.loadTree path = .error e ∧ e.message? = some message

theorem loadTree_of_notText (hread : store.read path = .ok bytes)
    (hbytes : (Utf8.decode? bytes).isSome = false) : store.loadTree path = .error .notText := by
  unfold loadTree
  rw [hread]
  dsimp only
  rw [Option.isSome_eq_false_iff.mp hbytes |> Option.isNone_iff_eq_none.mp]

/-- The contents of a file are loaded or reported exactly if they are UTF-8. -/
theorem loadsOrTells_iff : store.LoadsOrTells path ↔ store.HoldsText path := by
  constructor
  · intro hload bytes hread
    by_contra hbytes
    have hnotText := loadTree_of_notText hread (by simpa using hbytes)
    obtain ⟨tree, htree⟩ | ⟨e, message, he, hmessage⟩ := hload
    · rw [hnotText] at htree
      cases htree
    · rw [hnotText] at he
      cases he
      cases hmessage
  · intro htext
    unfold LoadsOrTells loadTree
    cases hread : store.read path with
    | error e => exact .inr ⟨_, _, rfl, rfl⟩
    | ok bytes =>
      obtain ⟨cs, hcs⟩ := Option.isSome_iff_exists.mp (htext bytes hread)
      dsimp only
      rw [hcs]
      dsimp only
      cases Node.ofXml (String.ofList (normalizeNewlines cs)) with
      | error e => exact .inr ⟨_, _, rfl, rfl⟩
      | ok tree => exact .inl ⟨tree, rfl⟩

theorem isFile_of_read (h : store.read path = .ok bytes) : store.isFile path = true := by
  obtain ⟨l, hl, hentry⟩ := leadsToFile_of_read h
  have hlocate : store.locate path = .ok (l, some (.file bytes)) :=
    locate_eq_ok.mpr ⟨hl.nonempty, hl.follow, hentry, fun _ _ => hl.plain⟩
  unfold isFile find?
  rw [hlocate]
  rfl

theorem isEmpty_of_read (h : store.read path = .ok bytes) : path.isEmpty = false := by
  obtain ⟨l, hl, -⟩ := leadsToFile_of_read h
  exact hl.nonempty

end Store

/-! ## Builds -/

namespace Site.Reference

open HeaderDocs.Store

variable {ref : Reference} {g : Group} {groups : List Group} {messages : List Message}

/-- A group starts from the tree in its file, or from a new one if none can be loaded. -/
theorem startingTree_of_text (htext : store.HoldsText (g.treeFile.getD "")) :
    ∃ said, startingTree store g =
      .ok ((store.loadTree (g.treeFile.getD "")).toOption.getD .empty, said) := by
  unfold startingTree
  cases hfile : g.treeFile with
  | none => exact ⟨[], rfl⟩
  | some path =>
    rw [hfile] at htext
    dsimp only
    split
    · rename_i hnone
      refine ⟨[], ?_⟩
      have hload : ∃ e, store.loadTree path = .error e := by
        unfold loadTree
        cases hread : store.read path with
        | error e => exact ⟨_, rfl⟩
        | ok bytes => simp [isFile_of_read hread, isEmpty_of_read hread] at hnone
      obtain ⟨e, he⟩ := hload
      rw [show (some path).getD "" = path from rfl, he]
      rfl
    · obtain ⟨tree, htree⟩ | ⟨e, message, he, hmessage⟩ := loadsOrTells_iff.mpr htext
      · rw [show (some path).getD "" = path from rfl] at htree ⊢
        rw [htree]
        exact ⟨_, rfl⟩
      · rw [show (some path).getD "" = path from rfl] at he ⊢
        rw [he]
        dsimp only
        rw [hmessage]
        exact ⟨_, rfl⟩

theorem startingTree_of_notText (hread : store.read (g.treeFile.getD "") = .ok bytes)
    (hbytes : (Utf8.decode? bytes).isSome = false) : startingTree store g = .error .notText := by
  unfold startingTree
  cases hfile : g.treeFile with
  | none =>
    rw [hfile] at hread
    cases isEmpty_of_read hread
  | some path =>
    rw [hfile, show (some path).getD "" = path from rfl] at hread
    dsimp only
    rw [isEmpty_of_read hread, isFile_of_read hread, loadTree_of_notText hread hbytes]
    rfl

/-- A group can be read: its tree is kept in a text, and its settings say which its sources are. -/
structure CanRead (store : Store) (g : Group) : Prop where
  text : store.HoldsText (g.treeFile.getD "")
  sources : store.isDirectory g.root = true → ∃ files, sourcesOf store g = .ok files

theorem exists_scanGroup_iff : (∃ read, scanGroup store g = .ok read) ↔ CanRead store g := by
  constructor
  · rintro ⟨read, hread⟩
    simp only [scanGroup, bind, Except.bind] at hread
    split at hread
    · cases hread
    rename_i start hstart
    refine ⟨fun bytes hbytes => ?_, fun hroot => ?_⟩
    · by_contra hnotText
      rw [startingTree_of_notText hbytes (by simpa using hnotText)] at hstart
      cases hstart
    · simp only [hroot, Bool.not_true, Bool.false_eq_true, if_false] at hread
      split at hread
      · cases hread
      · rename_i files hfiles
        exact ⟨files, hfiles⟩
  · rintro ⟨htext, hsources⟩
    obtain ⟨said, hstart⟩ := startingTree_of_text htext
    simp only [scanGroup, bind, Except.bind, hstart]
    split
    · exact ⟨_, rfl⟩
    · rename_i hroot
      obtain ⟨files, hfiles⟩ := hsources (by simpa using hroot)
      rw [show sourcesOf store { g with discovered := [], pages := [], tree := _ } = .ok files from
        hfiles]
      exact ⟨_, rfl⟩

/-- The store after groups have been read one after the other, up to the first that cannot be. -/
def storeAfter (store : Store) : List Group → Store
  | [] => store
  | g :: groups =>
    match scanGroup store g with
    | .error _ => store
    | .ok (_, store, _) => storeAfter store groups

/-- Groups can be read if each can be when those before it have been. -/
def CanReadAll (store : Store) (groups : List Group) : Prop :=
  ∀ before g after, groups = before ++ g :: after → CanRead (storeAfter store before) g

theorem canReadAll_cons {read : Group × Store × List Message}
    (hread : scanGroup store g = .ok read) :
    CanReadAll store (g :: groups) ↔ CanReadAll read.2.1 groups := by
  have hafter : ∀ before, storeAfter store (g :: before) = storeAfter read.2.1 before := by
    intro before
    rw [storeAfter, hread]
  constructor
  · intro h before g' after hsplit
    have hcan := h (g :: before) g' after (by rw [hsplit, List.cons_append])
    rwa [hafter] at hcan
  · intro h before g' after hsplit
    cases before with
    | nil =>
      obtain ⟨rfl, -⟩ := List.cons.inj hsplit
      exact exists_scanGroup_iff.mp ⟨read, hread⟩
    | cons head before =>
      obtain ⟨rfl, hgroups⟩ := List.cons.inj hsplit
      rw [hafter]
      exact h before g' after hgroups

/-- Reading groups ends without an error exactly if all of them can be read. -/
theorem error_scanGroups_iff (ref : Reference) (store : Store) (messages : List Message)
    (groups : List Group) :
    (scanGroups ref store messages groups).error = none ↔ CanReadAll store groups := by
  induction groups generalizing ref store messages with
  | nil =>
    refine ⟨fun _ before g after hsplit => ?_, fun _ => rfl⟩
    simp at hsplit
  | cons g groups ih =>
    unfold scanGroups
    cases hread : scanGroup store g with
    | error e =>
      refine ⟨fun h => absurd h (Option.some_ne_none e), fun h => ?_⟩
      obtain ⟨read, hok⟩ := exists_scanGroup_iff.mpr (h [] g groups rfl)
      rw [storeAfter, hread] at hok
      cases hok
    | ok read =>
      rw [canReadAll_cons hread]
      exact ih (ref.addGroup read.1) read.2.1 (messages ++ read.2.2)

/-- The entry of the reference can be made: there is but one group, or the titles of those that have
pages can be keys. -/
def CanPlace (ref : Reference) : Prop :=
  ref.groups.length = 1 ∨ ∀ g ∈ ref.groups, g.pages ≠ [] → g.navTitle.key?.isSome = true

theorem isSome_navEntries? (groups : List Group) :
    (navEntries? groups).isSome = true ↔ ∀ g ∈ groups, g.navTitle.key?.isSome = true := by
  unfold navEntries?
  induction groups with
  | nil => simp
  | cons g groups ih =>
    rw [List.forall_mem_cons, ← ih, List.mapM_cons]
    cases g.navTitle.key? with
    | none => simp
    | some title => simp [Option.isSome_iff_exists, Option.bind_eq_some_iff]

theorem exists_navWith_iff : (∃ nav, ref.navWith = .ok nav) ↔ ref.CanPlace := by
  have hshown : (∀ g ∈ ref.groups, g.pages ≠ [] → g.navTitle.key?.isSome = true) ↔
      ∀ g ∈ ref.groups.filter (!·.pages.isEmpty), g.navTitle.key?.isSome = true := by
    simp [List.mem_filter]
  unfold CanPlace navWith navItems
  rw [hshown]
  cases ref.groups.filter (!·.pages.isEmpty) with
  | nil => simp [Except.map]
  | cons g groups =>
    rw [← isSome_navEntries?]
    dsimp only
    by_cases hone : ref.groups.length = 1
    · simp [hone, Except.map]
    · cases navEntries? (g :: groups) <;> simp [hone, Except.map]

/-- A build comes to its end exactly if its groups can be read and its entry can be made. -/
theorem error_build_iff (hinitial : initialGroups store ref = .ok (groups, messages)) :
    (ref.build store).error = none ↔
      CanReadAll store groups ∧ (ref.build store).ref.CanPlace := by
  have hbuild : ref.build store = finish (scanGroups ref.cleared store messages groups) := by
    rw [build_eq, hinitial]
  obtain ⟨surroundings, hfinish⟩ := ref_finish_eq (scanGroups ref.cleared store messages groups)
  rw [hbuild, error_finish, error_scanGroups_iff, exists_navWith_iff, hfinish]
  exact Iff.rfl

/-- A condition that never fails filters any list. -/
theorem exists_filterM {ε α : Type} {p : α → Except ε Bool} {items : List α}
    (h : ∀ a ∈ items, ∃ b, p a = .ok b) : ∃ kept, items.filterM p = .ok kept := by
  have haux : ∀ kept, ∃ more, List.filterAuxM p items kept = .ok more := by
    induction items with
    | nil => exact fun kept => ⟨kept, rfl⟩
    | cons a items ih =>
      intro kept
      obtain ⟨b, hb⟩ := h a (List.mem_cons_self ..)
      simp only [List.filterAuxM, hb, bind, Except.bind]
      exact ih (fun a ha => h a (List.mem_cons_of_mem _ ha)) _
  obtain ⟨more, hmore⟩ := haux []
  exact ⟨more.reverse, by simp only [List.filterM, hmore, bind, Except.bind, pure, Except.pure]⟩

theorem exists_isExcludedBy (path : String) (patterns : List String) :
    ∃ b, isExcludedBy path (patterns.map .text) = .ok b := by
  induction patterns with
  | nil => exact ⟨false, rfl⟩
  | cons pattern patterns ih =>
    simp only [List.map_cons, isExcludedBy]
    split
    · exact ⟨true, rfl⟩
    · exact ih

/-- With texts for extensions and patterns, it can be said which the sources of a group are. -/
theorem exists_sourcesOf {extensions patterns : List String}
    (hextensions : g.extensions.items? = some (extensions.map .text))
    (hexclude : g.exclude.items? = some (patterns.map .text)) (store : Store) :
    ∃ files, sourcesOf store g = .ok files := by
  have htexts : (extensions.map Setting.text).mapM Setting.text? = some extensions := by
    rw [List.mapM_map]
    exact (Xml.mapM_eq_some (g := id) fun _ _ => rfl).trans (by rw [List.map_id])
  have hof : extensionsOf g = .ok extensions := by
    simp only [extensionsOf, hextensions, htexts]
  simp only [sourcesOf, hof, bind, Except.bind, hexclude]
  refine exists_filterM fun path _ => ?_
  obtain ⟨b, hb⟩ := exists_isExcludedBy path patterns
  exact ⟨!b, by rw [hb]; rfl⟩

end Site.Reference

/-! ## Runs of the command -/

namespace CommandLine

variable {arguments : List String} {request : Request} {files : List String} {tree : Node}

/-- The page that is asked for cannot be written when the tree has been saved. -/
def PageFails (store : Store) (request : Request) (saved : Store) : Prop :=
  ∃ tree page e, store.saveTree request.xmlFile tree = (saved, none) ∧
    request.markdown = some page ∧ page.isEmpty = false ∧
    saved.writeText page (referencePage tree request.title) = .error e

/-- The command succeeds, or it says what has failed. Then no file is changed, unless it is only the
page that could not be written. -/
def SucceedsOrTells (store : Store) (request : Request) (result : Result) : Prop :=
  result.ending = .done ∨
    result.ending = .failed ∧ (∃ message, result.errors = "error: " ++ message ++ "\n") ∧
      (result.store = store ∨ PageFails store request result.store)

theorem succeedsOrTells_report (output message : String) :
    SucceedsOrTells store request (report store output message) :=
  .inr ⟨rfl, ⟨message, rfl⟩, .inl rfl⟩

theorem pageFails_of_save {saved : Store} {e : FileError}
    (hread : store.read request.xmlFile = .ok bytes)
    (h : save store request tree = (saved, some e)) : PageFails store request saved := by
  obtain ⟨l, -, hsaved⟩ := Store.saveTree_of_read hread
  unfold save at h
  rw [hsaved] at h
  dsimp only at h
  split at h
  · cases h
  · rename_i page hpage
    split at h
    · cases h
    · rename_i hne
      split at h
      · rename_i hwrite
        cases h
        exact ⟨tree, page, _, hsaved tree, hpage, by simpa using hne, hwrite⟩
      · cases h

theorem succeedsOrTells_update (hread : store.read request.xmlFile = .ok bytes)
    (files : List String) (tree : Node) :
    SucceedsOrTells store request (update store request files tree) := by
  unfold update
  split
  · exact succeedsOrTells_report ..
  · split
    · rename_i hsave
      exact .inr ⟨rfl, ⟨_, rfl⟩, .inr (pageFails_of_save hread hsave)⟩
    · exact .inl rfl

theorem run_of_text (hparse : parse arguments = .ok request)
    (hread : store.read request.xmlFile = .ok bytes) (htext : (Utf8.decode? bytes).isSome = true) :
    SucceedsOrTells store request (run store arguments) := by
  have hholds : store.HoldsText request.xmlFile := by
    intro other hother
    rw [hread] at hother
    cases hother
    exact htext
  have hstart : startingTree store request = store.loadTree request.xmlFile :=
    if_pos (Store.exists?_of_read hread)
  unfold run
  rw [hparse]
  dsimp only
  unfold perform
  rw [hstart]
  obtain ⟨tree, htree⟩ | ⟨e, message, he, hmessage⟩ := Store.loadsOrTells_iff.mpr hholds
  · rw [htree]
    dsimp only
    split
    · exact succeedsOrTells_report ..
    · exact succeedsOrTells_update hread ..
  · rw [he]
    dsimp only
    rw [hmessage]
    exact succeedsOrTells_report ..

theorem run_of_notText (hparse : parse arguments = .ok request)
    (hread : store.read request.xmlFile = .ok bytes)
    (hbytes : (Utf8.decode? bytes).isSome = false) :
    run store arguments = { store, ending := .notText } := by
  have hstart : startingTree store request = .error .notText :=
    (if_pos (Store.exists?_of_read hread)).trans (Store.loadTree_of_notText hread hbytes)
  unfold run
  rw [hparse]
  dsimp only
  unfold perform
  rw [hstart]
  rfl

end CommandLine

/-! ## What a file can do to builds and runs -/

/-- A directory of sources, and a file with the given contents for the tree. -/
def withTreeFile (bytes : List UInt8) : Store :=
  { entries := [(["src"], .directory), (["src", "a.h"], .file (Utf8.encode "int x;".toList)),
      (["d.xml"], .file bytes)] }

/-- A site whose tree is kept in the file. -/
def keepingTree : Site.Reference :=
  { options := { sourceRoot := "src", treeFile := "d.xml" }, surroundings := {} }

def updatingTree : CommandLine.Request := { xmlFile := "d.xml", sources := ["src/a.h"] }

end HeaderDocs
