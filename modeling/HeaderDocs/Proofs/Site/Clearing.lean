import HeaderDocs.Proofs.Files.Rooted
import HeaderDocs.Site.Placeholder

/-!
# What clearing removes

Clearing takes away the files of placeholders, and then goes up from the directory around each of
them as long as it finds nothing there. In which order the directories are looked at does not matter:
what is taken away in the end are the directories on the way that hold nothing but placeholders and
other such directories (`Hollow`).

* `Stripped`: what is there when directories are being removed. Nothing on the way is left empty, but
  for directories that have still to be looked at (`Emptied`).
* `Clearable.clear`: clearing comes to an end, and then no directory is left to be looked at.
* `clear_leaves`: what is left is what is neither a placeholder nor a hollow directory.
-/
namespace HeaderDocs.Site.Reference

open PathName

/-! ## Locations -/

/-- The location of a page in the directory of pages. -/
def PageAt (top : Location) (pages : List (List String)) (l : Location) : Prop :=
  ∃ page ∈ pages, l = top ++ page

/-- A directory in the directory of pages, on the way to the page. -/
def Above (top : Location) (page : List String) (l : Location) : Prop :=
  ∃ above, above ≠ [] ∧ above <+: page ∧ above ≠ page ∧ l = top ++ above

/-- A directory in the directory of pages, on the way to some page. -/
def OnWay (top : Location) (pages : List (List String)) (l : Location) : Prop :=
  ∃ page ∈ pages, Above top page l

variable {top l : Location} {pages more : List (List String)} {page down : List String} {name : String}

theorem not_concat_prefix : ¬ down ++ [name] <+: down := fun h => by
  have hlength := h.length_le
  rw [List.length_append, List.length_singleton] at hlength
  omega

theorem above_concat :
    Above top (down ++ [name]) l ↔ ∃ above, above ≠ [] ∧ above <+: down ∧ l = top ++ above := by
  constructor
  · rintro ⟨above, hne, hprefix, hproper, rfl⟩
    exact ⟨above, hne, (List.prefix_concat_iff.mp hprefix).resolve_left hproper, rfl⟩
  · rintro ⟨above, hne, hin, rfl⟩
    refine ⟨above, hne, hin.trans (List.prefix_append _ _), ?_, rfl⟩
    rintro rfl
    exact not_concat_prefix hin

theorem pageAt_append :
    PageAt top (pages ++ [page]) l ↔ PageAt top pages l ∨ l = top ++ page := by
  simp only [PageAt, List.mem_append, List.mem_singleton, or_and_right, exists_or, exists_eq_left]

theorem onWay_append : OnWay top (pages ++ [page]) l ↔ OnWay top pages l ∨ Above top page l := by
  simp only [OnWay, List.mem_append, List.mem_singleton, or_and_right, exists_or, exists_eq_left]

theorem PageAt.mono (h : PageAt top pages l) (hs : pages ⊆ more) : PageAt top more l :=
  h.imp fun _ hp => ⟨hs hp.1, hp.2⟩

theorem OnWay.mono (h : OnWay top pages l) (hs : pages ⊆ more) : OnWay top more l :=
  h.imp fun _ hp => ⟨hs hp.1, hp.2⟩

theorem OnWay.ne (h : OnWay top pages l) : l ≠ top := by
  obtain ⟨_, -, above, hne, -, -, rfl⟩ := h
  exact fun he => hne (List.append_right_eq_self.mp he)

/-- What lies on the way to a page is the directory around it, or holds another one on the way. -/
theorem onWay_cases (h : OnWay top pages l) :
    (∃ page ∈ pages, ∃ down name, page = down ++ [name] ∧ l = top ++ down) ∨
      ∃ name, OnWay top pages (l ++ [name]) := by
  obtain ⟨page, hp, above, hne, ⟨rest, rfl⟩, hproper, rfl⟩ := h
  cases rest with
  | nil => exact absurd (List.append_nil above).symm hproper
  | cons name rest =>
    cases rest with
    | nil => exact .inl ⟨_, hp, above, name, rfl, rfl⟩
    | cons other rest =>
      refine .inr ⟨name, _, hp, above ++ [name], by simp, ⟨other :: rest, by simp⟩, by simp, ?_⟩
      rw [List.append_assoc]

/-- What lies on the way to a page is nowhere deeper than the deepest page. -/
theorem onWay_length (top : Location) (pages : List (List String)) :
    ∃ bound, ∀ l, OnWay top pages l → l.length < bound := by
  induction pages with
  | nil => exact ⟨0, fun _ ⟨_, hp, _⟩ => absurd hp List.not_mem_nil⟩
  | cons page pages ih =>
    obtain ⟨bound, hbound⟩ := ih
    refine ⟨max bound (top.length + page.length + 1), ?_⟩
    rintro l ⟨other, hp, habove⟩
    rcases List.mem_cons.mp hp with rfl | hp
    · obtain ⟨above, -, hin, -, rfl⟩ := habove
      have hle := hin.length_le
      rw [List.length_append]
      omega
    · have := hbound l ⟨other, hp, habove⟩
      omega

variable {store held : Store} {docs path : String} {files : List String}

theorem location_congr (h : held.cwd = store.cwd) (path : String) :
    held.location path = store.location path := by
  rw [Store.location, Store.location, Store.origin, Store.origin, h]

/-! ## Path names below the directory of pages -/

/-- The names along which a path name leads on from a directory. -/
def namesBelow (docs path : String) : List String := (components path).drop (components docs).length

theorem namesBelow_eq (h : Under docs down path) : namesBelow docs path = down := by
  rw [namesBelow, h.components, List.drop_left]

/-- The path names lead down from the directory of pages. -/
def Below (docs : String) (files : List String) : Prop :=
  ∀ file ∈ files, ∃ down name, Under docs (down ++ [name]) file

theorem pageAt_files (hbelow : Below docs files) :
    PageAt (store.location docs) (files.map (namesBelow docs)) l ↔
      ∃ file ∈ files, l = store.location file := by
  simp only [PageAt, List.mem_map, exists_exists_and_eq_and]
  refine exists_congr fun file => and_congr_right fun hf => ?_
  obtain ⟨down, name, hu⟩ := hbelow file hf
  rw [namesBelow_eq hu, Store.location_under hu]

/-! ## Removing files -/

theorem removeEach_cons (h : held.Rooted) (hdocs : docs.isEmpty = false)
    (hups : ".." ∉ components docs) (hu : Under docs (down ++ [name]) path)
    (hfile : held.entryAt? (held.location docs ++ (down ++ [name])) ≠ some .directory)
    (files : List String) :
    ∃ next, removeEach held (path :: files) = removeEach next files ∧ next.cwd = held.cwd ∧
      next.Rooted ∧ next.entryAt? (held.location docs ++ (down ++ [name])) = none ∧
      ∀ l, l ≠ held.location docs ++ (down ++ [name]) → next.entryAt? l = held.entryAt? l := by
  rw [removeEach, h.exists?_under hdocs hups hu]
  cases hentry : held.entryAt? (held.location docs ++ (down ++ [name])) with
  | none => exact ⟨held, rfl, rfl, h, hentry, fun _ _ => rfl⟩
  | some e =>
    cases e with
    | directory => exact absurd hentry hfile
    | file bytes =>
      have hinside : ∀ inner,
          held.entryAt? (held.location docs ++ (down ++ [name]) ++ [inner]) = none := by
        intro inner
        by_contra hsome
        exact hfile (h _ inner hsome)
      refine ⟨held.delete (held.location docs ++ (down ++ [name])), ?_, rfl, h.delete hinside,
        Store.entryAt?_delete _ (by simp), fun l hl => Store.entryAt?_delete_of_ne _ hl⟩
      rw [h.removeFile hdocs hups hu hentry]
      rfl

theorem removeEach_files (h : held.Rooted) (hdocs : docs.isEmpty = false)
    (hups : ".." ∉ components docs) (hbelow : Below docs files)
    (hfile : ∀ l, PageAt (held.location docs) (files.map (namesBelow docs)) l →
      held.entryAt? l ≠ some .directory) :
    ∃ bare, removeEach held files = (bare, none) ∧ bare.cwd = held.cwd ∧ bare.Rooted ∧
      (∀ l, PageAt (held.location docs) (files.map (namesBelow docs)) l → bare.entryAt? l = none) ∧
      ∀ l, ¬ PageAt (held.location docs) (files.map (namesBelow docs)) l →
        bare.entryAt? l = held.entryAt? l := by
  induction files generalizing held with
  | nil => exact ⟨held, rfl, rfl, h, fun _ ⟨_, hp, _⟩ => absurd hp List.not_mem_nil, fun _ _ => rfl⟩
  | cons path files ih =>
    obtain ⟨down, name, hu⟩ := hbelow path (List.mem_cons_self ..)
    have hcons : ∀ top l, PageAt top ((path :: files).map (namesBelow docs)) l ↔
        l = top ++ (down ++ [name]) ∨ PageAt top (files.map (namesBelow docs)) l := by
      intro top l
      simp only [PageAt, List.map_cons, List.mem_cons, or_and_right, exists_or, exists_eq_left,
        namesBelow_eq hu]
    simp only [hcons] at hfile ⊢
    obtain ⟨next, hnext, hcwd, hrooted, hhere, hsame⟩ :=
      removeEach_cons h hdocs hups hu (hfile _ (.inl rfl)) files
    have htop := location_congr hcwd docs
    obtain ⟨bare, hremove, hcwd', hrooted', hgone, hsame'⟩ := ih hrooted
      (fun p hp => hbelow p (List.mem_cons_of_mem _ hp)) fun l hl => by
        by_cases he : l = held.location docs ++ (down ++ [name])
        · rw [he, hhere]
          exact nofun
        · rw [hsame l he]
          exact hfile l (.inr (htop ▸ hl))
    rw [htop] at hgone hsame'
    refine ⟨bare, hnext.trans hremove, hcwd'.trans hcwd, hrooted', fun l hl => ?_, fun l hl => ?_⟩
    · by_cases hlater : PageAt (held.location docs) (files.map (namesBelow docs)) l
      · exact hgone l hlater
      · rw [hsame' l hlater, hl.resolve_right hlater, hhere]
    · rw [hsame' l fun hl' => hl (.inr hl'), hsame l fun he => hl (.inl he)]

/-! ## Removing directories -/

/-- What is there when directories on the way to pages are being removed. -/
structure Stripped (top : Location) (pages : List (List String)) (bare store : Store) : Prop where
  cwd : store.cwd = bare.cwd
  rooted : store.Rooted
  way : ∀ l, OnWay top pages l → store.entryAt? l = some .directory ∨ store.entryAt? l = none
  other : ∀ l, ¬ OnWay top pages l → store.entryAt? l = bare.entryAt? l

/-- Directories on the way to pages are not empty, unless they have still to be looked at. -/
def Emptied (top : Location) (pages : List (List String)) (store : Store) (todo : List Location) : Prop :=
  ∀ l, OnWay top pages l → store.entryAt? l = some .directory →
    (∀ name, store.entryAt? (l ++ [name]) = none) → l ∈ todo

variable {bare : Store} {todo : List Location} {count : Nat}

theorem Stripped.delete (h : Stripped top pages bare store) (hl : OnWay top pages (l ++ [name]))
    (hempty : ∀ inner, store.entryAt? (l ++ [name] ++ [inner]) = none) :
    Stripped top pages bare (store.delete (l ++ [name])) := by
  refine ⟨h.cwd, h.rooted.delete hempty, fun k hk => ?_, fun k hk => ?_⟩
  · by_cases he : k = l ++ [name]
    · rw [he]
      exact .inr (Store.entryAt?_delete _ (by simp))
    · rw [Store.entryAt?_delete_of_ne _ he]
      exact h.way k hk
  · have he : k ≠ l ++ [name] := by
      rintro rfl
      exact hk hl
    rw [Store.entryAt?_delete_of_ne _ he]
    exact h.other k hk

/-- When a directory is removed, the one around it has to be looked at. -/
theorem Emptied.delete (h : Emptied top pages store ((l ++ [name]) :: todo)) :
    Emptied top pages (store.delete (l ++ [name])) (l :: todo) := by
  intro k hk hd hinside
  have hkne : k ≠ l ++ [name] := by
    rintro rfl
    rw [Store.entryAt?_delete _ (by simp)] at hd
    cases hd
  by_cases hkl : k = l
  · exact hkl ▸ List.mem_cons_self ..
  rw [Store.entryAt?_delete_of_ne _ hkne] at hd
  refine List.mem_cons_of_mem _ ((List.mem_cons.mp (h k hk hd fun inner => ?_)).resolve_left hkne)
  have hinner : k ++ [inner] ≠ l ++ [name] := fun he => hkl (List.append_inj' he rfl).1
  have hnone := hinside inner
  rwa [Store.entryAt?_delete_of_ne _ hinner] at hnone

/-- A location that is not an empty directory on the way does not have to be looked at. -/
theorem Emptied.tail (h : Emptied top pages store (l :: todo))
    (hl : OnWay top pages l → store.entryAt? l = some .directory →
      ¬ ∀ name, store.entryAt? (l ++ [name]) = none) : Emptied top pages store todo := by
  intro k hk hd hinside
  refine (List.mem_cons.mp (h k hk hd hinside)).resolve_left ?_
  rintro rfl
  exact hl hk hd hinside

/-- Pruning goes up as long as it leaves empty directories. -/
theorem Stripped.prune (h : Stripped (bare.location docs) pages bare store)
    (hdocs : docs.isEmpty = false) (hups : ".." ∉ components docs) (hu : Under docs down path)
    (hway : ∀ above, above ≠ [] → above <+: down →
      OnWay (bare.location docs) pages (bare.location docs ++ above))
    (hcount : down.length ≤ count) :
    ∃ stripped, prune (normalize docs) count path store = (stripped, none) ∧
      Stripped (bare.location docs) pages bare stripped ∧
      ∀ todo, Emptied (bare.location docs) pages store ((bare.location docs ++ down) :: todo) →
        Emptied (bare.location docs) pages stripped todo := by
  induction down using List.reverseRecOn generalizing store path count with
  | nil =>
    refine ⟨store, ?_, h, fun todo hall => hall.tail fun hk => ?_⟩
    · cases count with
      | zero => rfl
      | succ count =>
        rw [Reference.prune, hu.normalize_eq]
        simp
    · exact absurd (List.append_nil _) hk.ne
  | append_singleton down name ih =>
    obtain ⟨count, rfl⟩ : ∃ c, count = c + 1 := ⟨count - 1, by simp at hcount; omega⟩
    have hcount : down.length ≤ count := by simpa using hcount
    have htop := location_congr h.cwd docs
    have hne : (normalize path != normalize docs) = true := bne_iff_ne.mpr (hu.normalize_ne (by simp))
    rw [Reference.prune, hne, Bool.true_and]
    cases hempty : store.isEmptyDirectory path with
    | false =>
      refine ⟨store, rfl, h, fun todo hall => hall.tail fun _ hd hinside => ?_⟩
      have hyes := (h.rooted.isEmptyDirectory_iff hdocs hups hu).mpr (htop ▸ ⟨hd, hinside⟩)
      rw [hempty] at hyes
      cases hyes
    | true =>
      have hinside := ((h.rooted.isEmptyDirectory_iff hdocs hups hu).mp hempty).2
      have hhere := hway _ (by simp) List.prefix_rfl
      rw [if_pos rfl, h.rooted.removeDirectory hdocs hups hu hempty]
      simp only [htop, ← List.append_assoc] at hinside hhere ⊢
      obtain ⟨stripped, hprune, hstripped, hall⟩ := ih (h.delete hhere hinside) hu.dirName.1
        (fun above hnil hin => hway above hnil (hin.trans (List.prefix_append _ _))) hcount
      exact ⟨stripped, hprune, hstripped, fun todo htodo => hall todo htodo.delete⟩

theorem Stripped.pruneEach {directories : List String}
    (h : Stripped (bare.location docs) pages bare store)
    (hdocs : docs.isEmpty = false) (hups : ".." ∉ components docs)
    (hway : ∀ directory ∈ directories, ∃ down, Under docs down directory ∧
      ∀ above, above ≠ [] → above <+: down →
        OnWay (bare.location docs) pages (bare.location docs ++ above))
    (htodo : Emptied (bare.location docs) pages store (directories.map bare.location)) :
    ∃ stripped, pruneEach (normalize docs) directories store = (stripped, none) ∧
      Stripped (bare.location docs) pages bare stripped ∧
      Emptied (bare.location docs) pages stripped [] := by
  induction directories generalizing store with
  | nil => exact ⟨store, rfl, h, htodo⟩
  | cons directory directories ih =>
    obtain ⟨down, hu, hdown⟩ := hway directory (List.mem_cons_self ..)
    obtain ⟨next, hprune, hnext, hleft⟩ := h.prune hdocs hups hu hdown hu.length_le
    rw [List.map_cons, Store.location_under hu] at htodo
    obtain ⟨stripped, hrest, hstripped, hdone⟩ := ih hnext
      (fun d hd => hway d (List.mem_cons_of_mem _ hd)) (hleft _ htodo)
    refine ⟨stripped, ?_, hstripped, hdone⟩
    rw [Reference.pruneEach, hprune]
    exact hrest

theorem mem_placeholderDirectories {files : List String} {directory : String} :
    directory ∈ placeholderDirectories files ↔ ∃ file ∈ files, dirName file = directory := by
  rw [placeholderDirectories, List.mem_mergeSort, List.mem_eraseDups, List.mem_map]

/-! ## Clearing -/

/-- What is there before placeholders are cleared: directories on the way to each, and no directory in
its place. A placeholder itself may be gone already. -/
structure Clearable (top : Location) (pages : List (List String)) (held : Store) : Prop where
  rooted : held.Rooted
  page : ∀ l, PageAt top pages l → held.entryAt? l ≠ some .directory
  way : ∀ l, OnWay top pages l → held.entryAt? l = some .directory

namespace Clearable

theorem not_pageAt (h : Clearable top pages held) (hl : OnWay top pages l) : ¬ PageAt top pages l :=
  fun hp => h.page l hp (h.way l hl)

/-- Right after the files are removed, only directories of placeholders are empty. -/
theorem emptied (h : Clearable (held.location docs) (files.map (namesBelow docs)) held)
    (hbelow : Below docs files) (hcwd : bare.cwd = held.cwd)
    (hsame : ∀ l, ¬ PageAt (held.location docs) (files.map (namesBelow docs)) l →
      bare.entryAt? l = held.entryAt? l) :
    Emptied (held.location docs) (files.map (namesBelow docs)) bare
      ((placeholderDirectories files).map bare.location) := by
  intro l hl hd hinside
  rcases onWay_cases hl with ⟨_, hp, down, name, hpage, rfl⟩ | ⟨name, hinner⟩
  · obtain ⟨file, hfile, rfl⟩ := List.mem_map.mp hp
    obtain ⟨down', name', hu⟩ := hbelow file hfile
    rw [namesBelow_eq hu] at hpage
    obtain ⟨rfl, -⟩ := List.append_inj' hpage rfl
    refine List.mem_map.mpr ⟨dirName file, ?_, ?_⟩
    · exact mem_placeholderDirectories.mpr ⟨file, hfile, rfl⟩
    · rw [location_congr hcwd, Store.location_under hu.dirName.1]
  · have hnone := hinside name
    rw [hsame _ (h.not_pageAt hinner), h.way _ hinner] at hnone
    cases hnone

/-- Clearing removes the files, and then directories until none is left to be looked at. -/
theorem clear (h : Clearable (held.location docs) (files.map (namesBelow docs)) held)
    (hdocs : docs.isEmpty = false) (hups : ".." ∉ components docs) (hbelow : Below docs files)
    (ref : Reference) (hplaceholders : ref.placeholders = files) :
    ∃ bare final, ref.clear docs held = ({ ref with placeholders := [] }, final, none) ∧
      bare.cwd = held.cwd ∧
      (∀ l, PageAt (held.location docs) (files.map (namesBelow docs)) l → bare.entryAt? l = none) ∧
      (∀ l, ¬ PageAt (held.location docs) (files.map (namesBelow docs)) l →
        bare.entryAt? l = held.entryAt? l) ∧
      Stripped (held.location docs) (files.map (namesBelow docs)) bare final ∧
      Emptied (held.location docs) (files.map (namesBelow docs)) final [] := by
  obtain ⟨bare, hremove, hcwd, hrooted, hgone, hsame⟩ :=
    removeEach_files h.rooted hdocs hups hbelow h.page
  have hemptied := h.emptied hbelow hcwd hsame
  have hways : ∀ directory ∈ placeholderDirectories files, ∃ down, Under docs down directory ∧
      ∀ above, above ≠ [] → above <+: down →
        OnWay (held.location docs) (files.map (namesBelow docs)) (held.location docs ++ above) := by
    intro directory hd
    obtain ⟨file, hfile, rfl⟩ := mem_placeholderDirectories.mp hd
    obtain ⟨down, name, hu⟩ := hbelow file hfile
    refine ⟨down, hu.dirName.1, fun above hne hin => ⟨_, List.mem_map_of_mem hfile, ?_⟩⟩
    rw [namesBelow_eq hu]
    exact above_concat.mpr ⟨above, hne, hin, rfl⟩
  have hstripped : Stripped (held.location docs) (files.map (namesBelow docs)) bare bare :=
    ⟨rfl, hrooted, fun l hl => .inl (by rw [hsame l (h.not_pageAt hl), h.way l hl]), fun _ _ => rfl⟩
  have htop := location_congr hcwd docs
  rw [← htop] at hemptied hways hstripped
  obtain ⟨final, hprune, hfinal, hdone⟩ := hstripped.pruneEach hdocs hups hways hemptied
  rw [htop] at hfinal hdone
  refine ⟨bare, final, ?_, hcwd, hgone, hsame, hfinal, hdone⟩
  rw [Reference.clear, hplaceholders, hremove]
  simp only [hprune]

end Clearable

theorem clear_nothing {ref : Reference} (h : ref.placeholders = []) (docs : String) (store : Store) :
    ref.clear docs store = (ref, store, none) := by
  have hdirectories : placeholderDirectories [] = [] := List.mergeSort_nil
  rw [clear, h]
  simp only [removeEach, hdirectories, pruneEach]
  rw [← h]

/-! ## What is left -/

/-- A directory on the way to a page that holds nothing but pages and other such directories. -/
inductive Hollow (store : Store) (top : Location) (pages : List (List String)) : Location → Prop
  | intro {l : Location} (way : OnWay top pages l) (here : store.entryAt? l = some .directory)
      (inside : ∀ name, store.entryAt? (l ++ [name]) ≠ none → ¬ PageAt top pages (l ++ [name]) →
        Hollow store top pages (l ++ [name])) :
      Hollow store top pages l

/-- What is left is neither a page nor a hollow directory, and nothing is new. -/
structure Remains (top : Location) (pages : List (List String)) (store final : Store) : Prop where
  page : ∀ l, PageAt top pages l → final.entryAt? l = none
  home : final.entryAt? top = some .directory
  file : ∀ l bytes, final.entryAt? l = some (.file bytes) ↔
    store.entryAt? l = some (.file bytes) ∧ ¬ PageAt top pages l
  directory : ∀ l, final.entryAt? l = some .directory ↔
    store.entryAt? l = some .directory ∧ ¬ Hollow store top pages l

section

variable {final : Store} (h : Clearable top pages held)
  (hsame : ∀ l, ¬ PageAt top pages l → bare.entryAt? l = held.entryAt? l)
  (hfinal : Stripped top pages bare final)

include h hsame hfinal

theorem hollow_of_gone (hway : OnWay top pages l) (hl : final.entryAt? l = none) :
    Hollow held top pages l := by
  obtain ⟨bound, hbound⟩ := onWay_length top pages
  -- what a hollow directory holds is deeper, and nothing on the way is deeper than the pages
  obtain ⟨depth, hdepth⟩ : ∃ depth, bound - l.length = depth := ⟨_, rfl⟩
  induction depth generalizing l with
  | zero =>
    have := hbound l hway
    omega
  | succ depth ih =>
    refine .intro hway (h.way l hway) fun name hname hp => ?_
    have hgone' : final.entryAt? (l ++ [name]) = none := by
      by_contra hsome
      rw [hfinal.rooted l name hsome] at hl
      cases hl
    have hinner : OnWay top pages (l ++ [name]) := by
      by_contra hno
      rw [hfinal.other _ hno, hsame _ hp] at hgone'
      exact hname hgone'
    exact ih hinner hgone' (by rw [List.length_append, List.length_singleton]; omega)

variable (hgone : ∀ l, PageAt top pages l → bare.entryAt? l = none)

include hgone

theorem entryAt?_of_stripped (hl : final.entryAt? l ≠ none) :
    final.entryAt? l = held.entryAt? l ∧ ¬ PageAt top pages l := by
  by_cases hw : OnWay top pages l
  · rw [h.way l hw]
    exact ⟨(hfinal.way l hw).resolve_right hl, h.not_pageAt hw⟩
  · rw [hfinal.other l hw] at hl ⊢
    have hp : ¬ PageAt top pages l := fun hp => hl (hgone l hp)
    exact ⟨hsame l hp, hp⟩

/-- Where no directory is left to be looked at, the hollow ones are gone. -/
theorem Hollow.gone (hdone : Emptied top pages final []) (hl : Hollow held top pages l) :
    final.entryAt? l = none := by
  induction hl with
  | @intro l hway _ _ ih =>
    refine (hfinal.way l hway).resolve_left fun hd => ?_
    refine absurd (hdone l hway hd fun name => ?_) List.not_mem_nil
    by_contra hsome
    obtain ⟨hentry, hp⟩ := entryAt?_of_stripped h hsame hfinal hgone hsome
    exact hsome (ih name (hentry ▸ hsome) hp)

theorem remains_of_stripped (hdone : Emptied top pages final [])
    (hhome : held.entryAt? top = some .directory) (hnone : ¬ PageAt top pages top) :
    Remains top pages held final := by
  have hrest : ∀ l, ¬ OnWay top pages l → ¬ PageAt top pages l →
      final.entryAt? l = held.entryAt? l := fun l hw hp => (hfinal.other l hw).trans (hsame l hp)
  have hpage : ∀ l, PageAt top pages l → final.entryAt? l = none := fun l hp => by
    rw [hfinal.other l fun hw => h.not_pageAt hw hp]
    exact hgone l hp
  refine ⟨hpage, ?_, fun l bytes => ⟨fun hf => ?_, fun ⟨hf, hp⟩ => ?_⟩,
    fun l => ⟨fun hd => ?_, fun ⟨hd, hh⟩ => ?_⟩⟩
  · rw [hrest top (fun hw => hw.ne rfl) hnone]
    exact hhome
  · have hsome : final.entryAt? l ≠ none := by rw [hf]; exact Option.some_ne_none _
    obtain ⟨hentry, hp⟩ := entryAt?_of_stripped h hsame hfinal hgone hsome
    exact ⟨hentry ▸ hf, hp⟩
  · refine (hrest l (fun hw => ?_) hp).trans hf
    rw [h.way l hw] at hf
    cases hf
  · have hsome : final.entryAt? l ≠ none := by rw [hd]; exact Option.some_ne_none _
    refine ⟨(entryAt?_of_stripped h hsame hfinal hgone hsome).1 ▸ hd, fun hh => ?_⟩
    exact hsome (hh.gone h hsame hfinal hgone hdone)
  · by_cases hw : OnWay top pages l
    · exact (hfinal.way l hw).resolve_right fun hnone =>
        hh (hollow_of_gone h hsame hfinal hw hnone)
    · exact (hrest l hw fun hp => h.page l hp hd).trans hd

end

/-- A placeholder in the directory of pages: its path name leads straight down from there (dots may
only stand right behind the directory's own path name), there is a directory around it, and it is a
file if it is there at all. -/
structure Placeholder (store : Store) (docs file : String) : Prop where
  below : ∃ down name, Under docs (down ++ [name]) file
  around : store.isDirectory (dirName file) = true
  notDirectory : store.isDirectory file = false

theorem clearable_of_placeholders (hstore : store.Rooted) (hdocs : docs.isEmpty = false)
    (hups : ".." ∉ components docs) (hfiles : ∀ file ∈ files, Placeholder store docs file) :
    Clearable (store.location docs) (files.map (namesBelow docs)) store := by
  have hbelow : Below docs files := fun file hf => (hfiles file hf).below
  refine ⟨hstore, fun l hp hd => ?_, ?_⟩
  · obtain ⟨file, hf, rfl⟩ := (pageAt_files hbelow).mp hp
    obtain ⟨down, name, hu⟩ := hbelow file hf
    have hyes := hstore.isDirectory (hu.isEmpty hdocs) (Store.ups_under hups hu) hd
    rw [(hfiles file hf).notDirectory] at hyes
    cases hyes
  · rintro l ⟨_, hp, habove⟩
    obtain ⟨file, hf, rfl⟩ := List.mem_map.mp hp
    obtain ⟨down, name, hu⟩ := hbelow file hf
    rw [namesBelow_eq hu, above_concat] at habove
    obtain ⟨above, -, ⟨rest, rfl⟩, rfl⟩ := habove
    obtain ⟨_, hlocate⟩ := Store.isDirectory_iff.mp (hfiles file hf).around
    have haround := (Store.eq_location_of_locate (Store.ups_under hups hu.dirName.1) hlocate).2
    rw [Store.location_under hu.dirName.1, ← List.append_assoc] at haround
    by_cases hrest : rest = []
    · rwa [hrest, List.append_nil] at haround
    · exact hstore.ancestor (by rw [haround]; exact Option.some_ne_none _) hrest

/-- Clearing takes away exactly the placeholders and the hollow directories on the way to them, and
forgets the placeholders, so that clearing once more changes nothing. -/
theorem clear_leaves (ref : Reference) (store : Store) (docs : String) (hstore : store.Rooted)
    (hdocs : store.isDirectory docs = true) (hups : ".." ∉ components docs)
    (hfiles : ∀ file ∈ ref.placeholders, Placeholder store docs file) :
    ∃ final, ref.clear docs store = ({ ref with placeholders := [] }, final, none) ∧
      (∀ file ∈ ref.placeholders, final.exists? file = false) ∧
      Remains (store.location docs) (ref.placeholders.map (namesBelow docs)) store final ∧
      ∀ docs, Reference.clear { ref with placeholders := [] } docs final =
        ({ ref with placeholders := [] }, final, none) := by
  have hbelow : Below docs ref.placeholders := fun file hf => (hfiles file hf).below
  obtain ⟨_, hlocate⟩ := Store.isDirectory_iff.mp hdocs
  have hne : docs.isEmpty = false := (Store.locate_eq_ok.mp hlocate).1
  have hhome := (Store.eq_location_of_locate hups hlocate).2
  have hclearable := clearable_of_placeholders hstore hne hups hfiles
  obtain ⟨bare, final, hclear, hcwd, hgone, hsame, hfinal, hdone⟩ :=
    hclearable.clear hne hups hbelow ref rfl
  have hnone : ¬ PageAt (store.location docs) (ref.placeholders.map (namesBelow docs))
      (store.location docs) := fun hp => hclearable.page _ hp hhome
  have hremains := remains_of_stripped hclearable hsame hfinal hgone hdone hhome hnone
  refine ⟨final, hclear, fun file hf => ?_, hremains, fun docs => clear_nothing rfl docs final⟩
  obtain ⟨down, name, hu⟩ := hbelow file hf
  have hlocation := location_congr (hfinal.cwd.trans hcwd) docs
  rw [hfinal.rooted.exists?_under hne hups hu, hlocation, ← Store.location_under hu,
    hremains.page _ ((pageAt_files hbelow).mpr ⟨file, hf, rfl⟩)]
  rfl

def holdingFiles (files : List String) : Reference :=
  { options := {}, surroundings := {}, placeholders := files }

/-- A directory of pages with what there is in it. -/
def docsWith (entries : List (Location × Entry)) : Store :=
  { entries := (["docs"], .directory) :: entries.map fun (l, e) => ("docs" :: l, e) }

/-- Two placeholders, one of which is gone already, beside a page and a directory of their own. -/
theorem clear_leaves_ownDirectory :
    let store := docsWith [(["keep.md"], .file []), (["own"], .directory), (["api"], .directory),
      (["api", "core"], .directory), (["api", "core", "index.md"], .file [])]
    let ref := holdingFiles ["/docs/api/core/index.md", "/docs/api/functions.md"]
    ∃ final, ref.clear "/docs" store = (holdingFiles [], final, none) ∧
      final.entryAt? ["docs", "keep.md"] = some (.file []) ∧
      final.entryAt? ["docs", "own"] = some .directory ∧
      final.entryAt? ["docs", "api"] ≠ some .directory := by
  intro store ref
  have hfiles : ∀ file ∈ ref.placeholders, Placeholder store "/docs" file := by
    intro file hf
    have hf : file ∈ ["/docs/api/core/index.md", "/docs/api/functions.md"] := hf
    rw [List.mem_cons, List.mem_singleton] at hf
    rcases hf with rfl | rfl
    · exact ⟨⟨["api", "core"], "index.md", by decide +kernel, ⟨[], nofun, by decide +kernel⟩,
        by decide +kernel, by decide +kernel⟩, by decide +kernel, by decide +kernel⟩
    · exact ⟨⟨["api"], "functions.md", by decide +kernel, ⟨[], nofun, by decide +kernel⟩,
        by decide +kernel, by decide +kernel⟩, by decide +kernel, by decide +kernel⟩
  obtain ⟨final, hclear, -, hremains, -⟩ := clear_leaves ref store "/docs" (by decide +kernel)
    (by decide +kernel) (by decide +kernel) hfiles
  have hpages : ref.placeholders.map (namesBelow "/docs") =
      [["api", "core", "index.md"], ["api", "functions.md"]] := by
    decide +kernel
  have htop : store.location "/docs" = ["docs"] := by decide +kernel
  rw [hpages, htop] at hremains
  have hlocations : store.entries.map (·.1) = [["docs"], ["docs", "keep.md"], ["docs", "own"],
      ["docs", "api"], ["docs", "api", "core"], ["docs", "api", "core", "index.md"]] := rfl
  have hcore : Hollow store ["docs"] [["api", "core", "index.md"], ["api", "functions.md"]]
      ["docs", "api", "core"] := by
    refine .intro ⟨_, List.mem_cons_self .., ["api", "core"], by decide, by decide, by decide, rfl⟩
      (by decide +kernel) fun name hname hp => absurd ?_ hp
    have hmem := hlocations ▸ Store.mem_entries_of_entryAt? hname (by simp)
    obtain rfl : name = "index.md" := by simpa using hmem
    exact ⟨_, List.mem_cons_self .., rfl⟩
  have hapi : Hollow store ["docs"] [["api", "core", "index.md"], ["api", "functions.md"]]
      ["docs", "api"] := by
    refine .intro ⟨_, List.mem_cons_self .., ["api"], by decide, by decide, by decide, rfl⟩
      (by decide +kernel) fun name hname _ => ?_
    have hmem := hlocations ▸ Store.mem_entries_of_entryAt? hname (by simp)
    obtain rfl : name = "core" := by simpa using hmem
    exact hcore
  refine ⟨final, hclear, ?_, ?_, fun hd => ((hremains.directory _).mp hd).2 hapi⟩
  · refine (hremains.file _ _).mpr ⟨by decide +kernel, ?_⟩
    rintro ⟨page, hp, he⟩
    simp only [List.mem_cons, List.not_mem_nil, or_false] at hp
    rcases hp with rfl | rfl <;> simp at he
  · refine (hremains.directory _).mpr ⟨by decide +kernel, fun hh => ?_⟩
    obtain ⟨⟨page, hp, above, -, hin, -, he⟩, -, -⟩ := hh
    obtain rfl : ["own"] = above := by simpa using he
    simp only [List.mem_cons, List.not_mem_nil, or_false] at hp
    rcases hp with rfl | rfl <;> simp at hin

/-- A placeholder in a directory that is named by a dot cannot be cleared, and a directory is left
empty that is named by way of one that was removed before. -/
theorem not_clear_leaves_dots :
    (let store := docsWith [(["api"], .directory), (["api", "functions.md"], .file [])]
      let ref := holdingFiles ["/docs/api/./functions.md"]
      let (cleared, final, failed) := ref.clear "/docs" store
      store.Rooted ∧ store.isDirectory "/docs/api/." = true ∧
        failed = some ⟨.notEmpty, "/docs/api/."⟩ ∧ cleared.placeholders = ref.placeholders ∧
        final.isEmptyDirectory "/docs/api" = true) ∧
      (let store := docsWith [(["api"], .directory), (["api", "reference"], .directory),
        (["api", "reference", "functions.md"], .file []), (["ref"], .directory),
        (["ref", "types.md"], .file [])]
      let ref := holdingFiles ["/docs/api/reference/functions.md", "/docs/api/../ref/types.md"]
      let (_, final, failed) := ref.clear "/docs" store
      store.Rooted ∧ store.isDirectory "/docs/api/../ref" = true ∧ failed = none ∧
        final.isEmptyDirectory "/docs/ref" = true) := by
  have hnames :
      (["/docs/api/reference/functions.md", "/docs/api/../ref/types.md"].map dirName).eraseDups =
        ["/docs/api/reference", "/docs/api/../ref"] := by
    decide +kernel
  have hdirectories :
      placeholderDirectories ["/docs/api/reference/functions.md", "/docs/api/../ref/types.md"] =
        ["/docs/api/reference", "/docs/api/../ref"] := by
    rw [placeholderDirectories, hnames]
    exact List.mergeSort_of_pairwise (by decide +kernel)
  refine ⟨by decide +kernel, ?_⟩
  simp only [clear, holdingFiles, hdirectories]
  decide +kernel

end HeaderDocs.Site.Reference
