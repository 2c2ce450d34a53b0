import HeaderDocs.Proofs.Site.Builds
import HeaderDocs.Proofs.Site.Clearing

/-!
# Placeholders leave nothing behind

Placeholders are made at the locations of the pages, and directories on the way to them. When they are
cleared, every location of a page is empty, and of the directories on the way those are left that hold
something else (`Kept`). Everything else is as it was.

* `Holding`: what is there while there are placeholders.
* `clear_place`: what is there afterwards, and when that is what was there before.
-/
namespace HeaderDocs.Site.Reference

open PathName

variable {top l : Location} {pages more : List (List String)} {page down : List String} {name : String}

/-- There is room for the pages: no directory stands where a page goes, no file where a directory
is needed, and no page is in the way of another one. -/
structure Free (store : Store) (top : Location) (pages : List (List String)) : Prop where
  page : ∀ l, PageAt top pages l → store.entryAt? l ≠ some .directory ∧ ¬ OnWay top pages l
  way : ∀ l, OnWay top pages l → ∀ bytes, store.entryAt? l ≠ some (.file bytes)

variable {store held : Store} {docs path : String}

theorem Free.subset (h : Free store top more) (hs : pages ⊆ more) : Free store top pages where
  page l hl := (h.page l (hl.mono hs)).imp_right fun hno hw => hno (hw.mono hs)
  way l hl := h.way l (hl.mono hs)
/-! ## Making placeholders -/

theorem placeFile_under (h : held.Rooted) (hdocs : docs.isEmpty = false)
    (hups : ".." ∉ components docs) (hu : Under docs (down ++ [name]) path)
    (hd : held.entryAt? (held.location docs) = some .directory)
    (hway : ∀ l, Above (held.location docs) (down ++ [name]) l → ∀ bytes,
      held.entryAt? l ≠ some (.file bytes))
    (hpage : held.entryAt? (held.location docs ++ (down ++ [name])) ≠ some .directory) :
    ∃ held', placeFile held path = (held', none) ∧ held'.cwd = held.cwd ∧ held'.Rooted ∧
      held'.entryAt? (held.location docs ++ (down ++ [name])) = some (.file []) ∧
      (∀ l, Above (held.location docs) (down ++ [name]) l → held'.entryAt? l = some .directory) ∧
      ∀ l, l ≠ held.location docs ++ (down ++ [name]) →
        ¬ Above (held.location docs) (down ++ [name]) l → held'.entryAt? l = held.entryAt? l := by
  have hclear : ∀ above, above <+: down → ∀ bytes,
      held.entryAt? (held.location docs ++ above) ≠ some (.file bytes) := by
    intro above hin bytes
    by_cases hne : above = []
    · rw [hne, List.append_nil, hd]
      exact nofun
    · exact hway _ (above_concat.mpr ⟨above, hne, hin, rfl⟩) bytes
  obtain ⟨made, hmake, hcwd, hrooted, hparent, hsame⟩ :=
    h.makeDirectories hdocs hups hd hu.dirName.1 hclear
  have hsamePage : made.entryAt? (held.location docs ++ (down ++ [name])) =
      held.entryAt? (held.location docs ++ (down ++ [name])) :=
    hsame _ fun above _ hin he => not_concat_prefix (List.append_cancel_left he ▸ hin)
  have hwrite := hrooted.write hdocs hups hu (location_congr hcwd docs ▸ hparent)
    (location_congr hcwd docs ▸ hsamePage ▸ hpage) []
  rw [location_congr hcwd] at hwrite
  have hne : held.location docs ++ (down ++ [name]) ≠ [] := by simp
  refine ⟨made.put (held.location docs ++ (down ++ [name])) (.file []), ?_, hcwd, ?_,
    Store.entryAt?_put _ hne _, fun l hl => ?_, fun l he hl => ?_⟩
  · rw [placeFile, hmake]
    simp only [hwrite]
  · refine hrooted.put hne ?_ (.inr (hsamePage ▸ hpage))
    rw [← List.append_assoc, List.dropLast_concat]
    exact hparent
  · obtain ⟨above, hnil, ⟨rest, hrest⟩, rfl⟩ := above_concat.mp hl
    have he : held.location docs ++ above ≠ held.location docs ++ (down ++ [name]) := by
      intro he
      have hin : above <+: down := ⟨rest, hrest⟩
      rw [List.append_cancel_left he] at hin
      exact not_concat_prefix hin
    rw [Store.entryAt?_put_of_ne _ he]
    by_cases hempty : rest = []
    · rw [hempty, List.append_nil] at hrest
      exact hrest ▸ hparent
    · rw [← hrest, ← List.append_assoc] at hparent
      exact hrooted.ancestor (by rw [hparent]; exact Option.some_ne_none _) hempty
  · rw [Store.entryAt?_put_of_ne _ he]
    exact hsame l fun above hnil hin hla => hl (above_concat.mpr ⟨above, hnil, hin, hla⟩)

/-- What is there while there are placeholders for pages. -/
structure Holding (top : Location) (pages : List (List String)) (store held : Store) : Prop where
  cwd : held.cwd = store.cwd
  rooted : held.Rooted
  home : held.entryAt? top = some .directory
  page : ∀ l, PageAt top pages l → held.entryAt? l = some (.file [])
  way : ∀ l, OnWay top pages l → held.entryAt? l = some .directory
  other : ∀ l, ¬ PageAt top pages l → ¬ OnWay top pages l → held.entryAt? l = store.entryAt? l

theorem holding_nil (h : store.Rooted) (ht : store.entryAt? top = some .directory) :
    Holding top [] store store :=
  ⟨rfl, h, ht, fun _ ⟨_, hp, _⟩ => absurd hp List.not_mem_nil,
    fun _ ⟨_, hp, _⟩ => absurd hp List.not_mem_nil, fun _ _ _ => rfl⟩

theorem Holding.placeFile (h : Holding (store.location docs) pages store held)
    (hdocs : docs.isEmpty = false) (hups : ".." ∉ components docs) (hlead : LeadsDown path)
    (hfree : Free store (store.location docs) (pages ++ [components path])) :
    ∃ held', placeFile held (join docs path) = (held', none) ∧
      Holding (store.location docs) (pages ++ [components path]) store held' := by
  obtain ⟨down, name, hpage⟩ : ∃ down name, components path = down ++ [name] :=
    ⟨_, _, (List.dropLast_concat_getLast hlead.nonempty).symm⟩
  have hu := under_join hlead hdocs
  rw [hpage] at hu hfree ⊢
  have htop := location_congr h.cwd docs
  generalize store.location docs = top at *
  subst htop
  have hpageAt : PageAt (held.location docs) (pages ++ [down ++ [name]])
      (held.location docs ++ (down ++ [name])) := pageAt_append.mpr (.inr rfl)
  have hnoPage : ∀ l, OnWay (held.location docs) (pages ++ [down ++ [name]]) l →
      ¬ PageAt (held.location docs) (pages ++ [down ++ [name]]) l := fun l hw hp =>
    (hfree.page l hp).2 hw
  have hclear : ∀ l, Above (held.location docs) (down ++ [name]) l → ∀ bytes,
      held.entryAt? l ≠ some (.file bytes) := by
    intro l hl bytes
    have hw : OnWay (held.location docs) (pages ++ [down ++ [name]]) l := onWay_append.mpr (.inr hl)
    by_cases hold : OnWay (held.location docs) pages l
    · rw [h.way l hold]
      exact nofun
    · rw [h.other l (fun hp => hnoPage l hw (pageAt_append.mpr (.inl hp))) hold]
      exact hfree.way l hw bytes
  have hroom : held.entryAt? (held.location docs ++ (down ++ [name])) ≠ some .directory := by
    by_cases hp : PageAt (held.location docs) pages (held.location docs ++ (down ++ [name]))
    · rw [h.page _ hp]
      exact nofun
    · rw [h.other _ hp fun hw => hnoPage _ (onWay_append.mpr (.inl hw)) hpageAt]
      exact (hfree.page _ hpageAt).1
  obtain ⟨held', hplace, hcwd, hrooted, hhere, hway, hsame⟩ :=
    placeFile_under h.rooted hdocs hups hu h.home hclear hroom
  refine ⟨held', hplace, hcwd.trans h.cwd, hrooted, ?_, fun l hl => ?_, fun l hl => ?_, fun l hp hw => ?_⟩
  · rw [hsame _ (by simp) fun ⟨above, hne, _, _, he⟩ => hne (by simpa using he)]
    exact h.home
  · by_cases he : l = held.location docs ++ (down ++ [name])
    · rw [he]
      exact hhere
    · rw [hsame l he fun ha => hnoPage l (onWay_append.mpr (.inr ha)) hl]
      exact h.page l ((pageAt_append.mp hl).resolve_right he)
  · by_cases ha : Above (held.location docs) (down ++ [name]) l
    · exact hway l ha
    · rw [hsame l (fun he => hnoPage l hl (he ▸ hpageAt)) ha]
      exact h.way l ((onWay_append.mp hl).resolve_right ha)
  · rw [hsame l (fun he => hp (he ▸ hpageAt)) fun ha => hw (onWay_append.mpr (.inr ha))]
    exact h.other l (fun hp' => hp (pageAt_append.mpr (.inl hp'))) fun hw' =>
      hw (onWay_append.mpr (.inl hw'))

variable {paths : List String}

theorem Holding.placeEach (h : Holding (store.location docs) pages store held)
    (hdocs : docs.isEmpty = false) (hups : ".." ∉ components docs)
    (hlead : ∀ path ∈ paths, LeadsDown path)
    (hfree : Free store (store.location docs) (pages ++ paths.map components)) (ref : Reference) :
    ∃ held', placeEach docs paths ref held =
        ({ ref with placeholders := ref.placeholders ++ paths.map (join docs) }, held', none) ∧
      Holding (store.location docs) (pages ++ paths.map components) store held' := by
  induction paths generalizing pages held ref with
  | nil =>
    rw [List.map_nil, List.append_nil, List.map_nil, List.append_nil]
    exact ⟨held, rfl, h⟩
  | cons path paths ih =>
    have hpages : pages ++ (path :: paths).map components =
        pages ++ [components path] ++ paths.map components := by
      rw [List.map_cons, List.append_cons]
    rw [hpages] at hfree ⊢
    obtain ⟨next, hplace, hnext⟩ := h.placeFile hdocs hups (hlead path (List.mem_cons_self ..))
      (hfree.subset (List.subset_append_left _ _))
    obtain ⟨held', hplaces, hheld⟩ := ih hnext (fun p hp => hlead p (List.mem_cons_of_mem _ hp)) hfree
      { ref with placeholders := ref.placeholders ++ [join docs path] }
    refine ⟨held', ?_, hheld⟩
    rw [Reference.placeEach]
    simp only [hplace, hplaces, List.map_cons, List.append_assoc, List.singleton_append]

/-- Where a placeholder was made, there is a file, with directories on the way to it. -/
theorem placeFile_eq_none (h : placeFile store path = (held, none)) (hups : ".." ∉ components path) :
    store.Extends held ∧ (∃ bytes, held.entryAt? (store.location path) = some (.file bytes)) ∧
      ∀ above below, components path = above ++ below → below ≠ [] →
        held.entryAt? (store.origin path ++ above) = some .directory := by
  unfold placeFile at h
  split at h
  · cases h
  rename_i made hmake
  split at h
  · rename_i written hwrite
    cases h
    obtain ⟨hextends, -⟩ := Store.makeDirectories_eq_none hmake
    obtain ⟨l, hleads, rfl⟩ := Store.write_eq_ok hwrite
    have hfollow := hleads.follow
    rw [hextends.origin] at hfollow
    obtain rfl := Store.eq_append_of_follow hups hfollow
    have hwritten := Store.extends_put_file hleads.free []
    refine ⟨hextends.trans hwritten, ⟨[], Store.entryAt?_put _ hleads.ne_nil _⟩, fun above below he hne => ?_⟩
    rw [he] at hfollow hups
    exact hwritten.directory _ (Store.entryAt?_of_follow (fun hm => hups (List.mem_append_left _ hm))
      hfollow hne)
  · cases h

/-- Where placeholders were made, there is a file for each page, with directories on the way to it. -/
theorem placeEach_eq_none {ref placed : Reference} (h : placeEach docs paths ref store = (placed, held, none))
    (hups : ∀ path ∈ paths, ".." ∉ components (join docs path)) :
    store.Extends held ∧ ∀ path ∈ paths,
      (∃ bytes, held.entryAt? (store.location (join docs path)) = some (.file bytes)) ∧
      ∀ above below, components (join docs path) = above ++ below → below ≠ [] →
        held.entryAt? (store.origin (join docs path) ++ above) = some .directory := by
  induction paths generalizing ref store with
  | nil =>
    cases h
    exact ⟨.refl _, nofun⟩
  | cons path paths ih =>
    rw [placeEach] at h
    split at h
    · cases h
    rename_i next hplace
    obtain ⟨hextends, ⟨bytes, hfile⟩, hway⟩ :=
      placeFile_eq_none hplace (hups path (List.mem_cons_self ..))
    obtain ⟨hextends', hall⟩ := ih h fun p hp => hups p (List.mem_cons_of_mem _ hp)
    refine ⟨hextends.trans hextends', fun p hp => ?_⟩
    rcases List.mem_cons.mp hp with rfl | hp
    · exact ⟨hextends'.file _ bytes hfile, fun above below he hne =>
        hextends'.directory _ (hway above below he hne)⟩
    · rw [← location_congr hextends.cwd, ← hextends.origin]
      exact hall p hp

theorem free_of_placeEach {ref placed : Reference}
    (h : placeEach docs paths ref store = (placed, held, none)) (hdocs : docs.isEmpty = false)
    (hups : ".." ∉ components docs) (hlead : ∀ path ∈ paths, LeadsDown path) :
    Free store (store.location docs) (paths.map components) := by
  have hunder : ∀ path ∈ paths, Under docs (components path) (join docs path) := fun path hp =>
    under_join (hlead path hp) hdocs
  obtain ⟨hextends, hall⟩ := placeEach_eq_none h fun path hp => Store.ups_under hups (hunder path hp)
  have hfile : ∀ l, PageAt (store.location docs) (paths.map components) l →
      ∃ bytes, held.entryAt? l = some (.file bytes) := by
    rintro l ⟨_, hp, rfl⟩
    obtain ⟨path, hpath, rfl⟩ := List.mem_map.mp hp
    rw [← Store.location_under (hunder path hpath)]
    exact (hall path hpath).1
  have hdirectory : ∀ l, OnWay (store.location docs) (paths.map components) l →
      held.entryAt? l = some .directory := by
    rintro l ⟨_, hp, above, hne, ⟨rest, hrest⟩, hproper, rfl⟩
    obtain ⟨path, hpath, rfl⟩ := List.mem_map.mp hp
    have hbelow : rest ≠ [] := by
      rintro rfl
      exact hproper ((List.append_nil above).symm.trans hrest)
    have hway := (hall path hpath).2 (components docs ++ above) rest
      (by rw [(hunder path hpath).components, ← hrest, List.append_assoc]) hbelow
    rw [← List.append_assoc] at hway
    rw [Store.location, Store.origin, ← (hunder path hpath).isAbsolute]
    exact hway
  refine ⟨fun l hp => ⟨fun hd => ?_, fun hw => ?_⟩, fun l hw bytes hf => ?_⟩
  · obtain ⟨bytes, hb⟩ := hfile l hp
    rw [hextends.directory l hd] at hb
    cases hb
  · obtain ⟨bytes, hb⟩ := hfile l hp
    rw [hdirectory l hw] at hb
    cases hb
  · obtain ⟨more, hm⟩ := hextends.file l bytes hf
    rw [hdirectory l hw] at hm
    cases hm

/-! ## Clearing -/

/-- There is something in the directory besides pages and the directories on the way to them. -/
def Kept (store : Store) (top : Location) (pages : List (List String)) (l : Location) : Prop :=
  ∃ below, below ≠ [] ∧ store.entryAt? (l ++ below) ≠ none ∧
    ¬ PageAt top pages (l ++ below) ∧ ¬ OnWay top pages (l ++ below)

structure Cleared (top : Location) (pages : List (List String)) (store final : Store) : Prop where
  cwd : final.cwd = store.cwd
  rooted : final.Rooted
  page : ∀ l, PageAt top pages l → final.entryAt? l = none
  kept : ∀ l, OnWay top pages l → Kept store top pages l → final.entryAt? l = some .directory
  gone : ∀ l, OnWay top pages l → ¬ Kept store top pages l → final.entryAt? l = none
  other : ∀ l, ¬ PageAt top pages l → ¬ OnWay top pages l → final.entryAt? l = store.entryAt? l

theorem Holding.clearable (h : Holding top pages store held) : Clearable top pages held :=
  ⟨h.rooted, fun l hp => by rw [h.page l hp]; exact nofun, h.way⟩

/-- A directory on the way that is left when nothing more is to be looked at holds something else. -/
theorem Stripped.kept (h : Stripped top pages bare store) (hdone : Emptied top pages store [])
    (hl : OnWay top pages l) (hd : store.entryAt? l = some .directory) :
    ∃ below, below ≠ [] ∧ bare.entryAt? (l ++ below) ≠ none ∧ ¬ OnWay top pages (l ++ below) := by
  obtain ⟨bound, hbound⟩ := onWay_length top pages
  -- going down from one directory on the way to the next comes to an end
  obtain ⟨depth, hdepth⟩ : ∃ depth, bound - l.length = depth := ⟨_, rfl⟩
  induction depth generalizing l with
  | zero =>
    have := hbound l hl
    omega
  | succ depth ih =>
    obtain ⟨name, hname⟩ : ∃ name, store.entryAt? (l ++ [name]) ≠ none := by
      by_contra hnone
      refine absurd (hdone l hl hd fun name => ?_) List.not_mem_nil
      by_contra hsome
      exact hnone ⟨name, hsome⟩
    by_cases hinner : OnWay top pages (l ++ [name])
    · have hd' := (h.way _ hinner).resolve_right hname
      obtain ⟨below, -, hsome, hno⟩ := ih hinner hd' (by simp; omega)
      rw [List.append_assoc] at hsome hno
      exact ⟨[name] ++ below, by simp, hsome, hno⟩
    · exact ⟨[name], by simp, h.other _ hinner ▸ hname, hinner⟩

/-- What is there when the files of pages are gone and no directory is left to be looked at. -/
theorem Holding.cleared {final : Store} (h : Holding top pages store held)
    (hcwd : bare.cwd = store.cwd) (hgone : ∀ l, PageAt top pages l → bare.entryAt? l = none)
    (hsame : ∀ l, ¬ PageAt top pages l → bare.entryAt? l = held.entryAt? l)
    (hfinal : Stripped top pages bare final) (hdone : Emptied top pages final []) :
    Cleared top pages store final := by
  have hrest : ∀ l, ¬ PageAt top pages l → ¬ OnWay top pages l →
      final.entryAt? l = store.entryAt? l := fun l hp hw => by
    rw [hfinal.other l hw, hsame l hp, h.other l hp hw]
  refine ⟨hfinal.cwd.trans hcwd, hfinal.rooted, fun l hp => ?_, fun l hl hk => ?_,
    fun l hl hk => ?_, hrest⟩
  · rw [hfinal.other l fun hw => h.clearable.not_pageAt hw hp]
    exact hgone l hp
  · obtain ⟨below, hne, hsome, hp, hw⟩ := hk
    exact hfinal.rooted.ancestor (by rwa [hrest _ hp hw]) hne
  · refine (hfinal.way l hl).resolve_left fun hd => hk ?_
    obtain ⟨below, hne, hsome, hw⟩ := hfinal.kept hdone hl hd
    have hp : ¬ PageAt top pages (l ++ below) := fun hp => hsome (hgone _ hp)
    exact ⟨below, hne, by rwa [hsame _ hp, h.other _ hp hw] at hsome, hp, hw⟩

theorem below_join (hdocs : docs.isEmpty = false) (hlead : ∀ path ∈ paths, LeadsDown path) :
    Below docs (paths.map (join docs)) ∧
      (paths.map (join docs)).map (namesBelow docs) = paths.map components := by
  refine ⟨fun file hf => ?_, ?_⟩
  · obtain ⟨path, hpath, rfl⟩ := List.mem_map.mp hf
    have hu := under_join (hlead path hpath) hdocs
    rw [← List.dropLast_concat_getLast (hlead path hpath).nonempty] at hu
    exact ⟨_, _, hu⟩
  · rw [List.map_map]
    exact List.map_congr_left fun path hpath => namesBelow_eq (under_join (hlead path hpath) hdocs)

theorem Holding.clear (h : Holding (store.location docs) (paths.map components) store held)
    (hdocs : docs.isEmpty = false) (hups : ".." ∉ components docs)
    (hlead : ∀ path ∈ paths, LeadsDown path) (ref : Reference)
    (hplaceholders : ref.placeholders = paths.map (join docs)) :
    ∃ final, ref.clear docs held = ({ ref with placeholders := [] }, final, none) ∧
      Cleared (store.location docs) (paths.map components) store final := by
  have htop := location_congr h.cwd docs
  rw [← htop] at h ⊢
  obtain ⟨hbelow, hpages⟩ := below_join hdocs hlead
  rw [← hpages] at h ⊢
  obtain ⟨bare, final, hclear, hcwd, hgone, hsame, hfinal, hdone⟩ :=
    h.clearable.clear hdocs hups hbelow ref hplaceholders
  exact ⟨final, hclear, h.cleared (hcwd.trans h.cwd) hgone hsame hfinal hdone⟩

/-- Everything is as it was, if there was nothing where the pages are and no directory on the way to
them that was left empty. -/
theorem Cleared.restored_iff {final : Store} (h : Cleared top pages store final) (hstore : store.Rooted)
    (hfree : Free store top pages) :
    (∀ l, final.entryAt? l = store.entryAt? l) ↔
      (∀ l, PageAt top pages l → store.entryAt? l = none) ∧
        ∀ l, OnWay top pages l → store.entryAt? l = some .directory → Kept store top pages l := by
  constructor
  · intro hsame
    refine ⟨fun l hp => hsame l ▸ h.page l hp, fun l hl hd => ?_⟩
    by_contra hk
    have hnone := h.gone l hl hk
    rw [hsame, hd] at hnone
    cases hnone
  · rintro ⟨hpage, hway⟩ l
    by_cases hp : PageAt top pages l
    · rw [h.page l hp, hpage l hp]
    by_cases hl : OnWay top pages l
    · cases hentry : store.entryAt? l with
      | none =>
        refine h.gone l hl fun ⟨below, hne, hsome, _⟩ => ?_
        rw [hstore.ancestor hsome hne] at hentry
        cases hentry
      | some e =>
        cases e with
        | file bytes => exact absurd hentry (hfree.way l hl bytes)
        | directory => exact h.kept l hl (hway l hl hentry)
    · exact h.other l hp hl

/-- Placeholders are made for all pages if and only if there is room for them. When they are cleared
after that, there is nothing where the pages are, and the directories on the way to them are left
that hold something else; all else is as it was. So everything is as it was if and only if there was
nothing where the pages are, and no directory on the way to them that holds nothing else. -/
theorem clear_place (ref : Reference) (store : Store) (docs : String) (hfresh : ref.placeholders = [])
    (hlead : ∀ path ∈ ref.pagePaths, LeadsDown path) (hstore : store.Rooted)
    (hdocs : store.isDirectory docs = true) (hups : ".." ∉ components docs) :
    let top := store.location docs
    let pages := ref.pagePaths.map components
    ((ref.place docs store).2.2 = none ↔ Free store top pages) ∧
      (Free store top pages → ∃ placed held final, ref.place docs store = (placed, held, none) ∧
        placed.clear docs held = (ref, final, none) ∧ Cleared top pages store final ∧
        ((∀ l, final.entryAt? l = store.entryAt? l) ↔
          (∀ l, PageAt top pages l → store.entryAt? l = none) ∧
            ∀ l, OnWay top pages l → store.entryAt? l = some .directory → Kept store top pages l)) := by
  intro top pages
  obtain ⟨l, hlocate⟩ := Store.isDirectory_iff.mp hdocs
  have hne : docs.isEmpty = false := (Store.locate_eq_ok.mp hlocate).1
  have htop : store.entryAt? top = some .directory := (Store.eq_location_of_locate hups hlocate).2
  have hplace (hfree : Free store top pages) :
      ∃ held, ref.place docs store =
        ({ ref with placeholders := ref.pagePaths.map (join docs) }, held, none) ∧
        Holding top pages store held := by
    obtain ⟨held, hplace, hheld⟩ := (holding_nil hstore htop).placeEach hne hups hlead hfree ref
    rw [hfresh] at hplace
    exact ⟨held, hplace, hheld⟩
  refine ⟨⟨fun hnone => ?_, fun hfree => ?_⟩, fun hfree => ?_⟩
  · exact free_of_placeEach (Prod.ext rfl (Prod.ext rfl hnone)) hne hups hlead
  · obtain ⟨held, hplace, -⟩ := hplace hfree
    rw [hplace]
  · obtain ⟨held, hplace, hheld⟩ := hplace hfree
    obtain ⟨final, hclear, hcleared⟩ := hheld.clear hne hups hlead
      { ref with placeholders := ref.pagePaths.map (join docs) } rfl
    refine ⟨_, held, final, hplace, ?_, hcleared, hcleared.restored_iff hstore hfree⟩
    rw [hclear, ← hfresh]

def onePage : Reference :=
  { options := {}, surroundings := {}, pages := [("api/functions.md", .listing "functions", 0)] }
theorem pagePaths_onePage : onePage.pagePaths = ["api/functions.md"] := List.mergeSort_singleton _

theorem leadsDown_onePage : LeadsDown "api/functions.md" where
  relative := by decide +kernel
  named := by decide +kernel
  names := ⟨[], nofun, by decide +kernel⟩
  ups := by decide +kernel
  nonempty := by decide +kernel

/-- A page where there is none, beside another file. -/
theorem clear_place_newPage :
    let store := docsWith [(["keep.md"], .file [])]
    ∃ placed held final, onePage.place "/docs" store = (placed, held, none) ∧
      placed.clear "/docs" held = (onePage, final, none) ∧
      ∀ l, final.entryAt? l = store.entryAt? l := by
  intro store
  have hlead : ∀ path ∈ onePage.pagePaths, LeadsDown path := by
    rw [pagePaths_onePage]
    exact fun path hp => List.mem_singleton.mp hp ▸ leadsDown_onePage
  have hpages : onePage.pagePaths.map components = [["api", "functions.md"]] := by
    rw [pagePaths_onePage]
    decide +kernel
  have htop : store.location "/docs" = ["docs"] := by decide +kernel
  obtain ⟨hroom, hcleared⟩ := clear_place onePage store "/docs" rfl hlead (by decide +kernel)
    (by decide +kernel) (by decide +kernel)
  obtain ⟨placed, held, final, hplace, hclear, -, hrestored⟩ := hcleared (hroom.mp (by decide +kernel))
  refine ⟨placed, held, final, hplace, hclear, hrestored.mpr ⟨?_, ?_⟩⟩
  · rintro _ ⟨page, hp, rfl⟩
    rw [hpages] at hp
    rw [htop, List.mem_singleton.mp hp]
    decide +kernel
  · rintro _ ⟨page, hp, habove⟩ hd
    rw [hpages] at hp
    obtain rfl := List.mem_singleton.mp hp
    have hpage : ["api", "functions.md"] = ["api"] ++ ["functions.md"] := rfl
    rw [hpage, above_concat] at habove
    obtain ⟨above, hne, hin, rfl⟩ := habove
    rcases List.prefix_cons_iff.mp hin with rfl | ⟨below, rfl, hnil⟩
    · exact absurd rfl hne
    rw [htop, List.prefix_nil.mp hnil] at hd
    exact absurd hd (by decide +kernel)

/-- A page that is there already is lost, and so is the directory around it. -/
theorem clear_place_ownPage :
    let store := docsWith [(["api"], .directory), (["api", "functions.md"], .file [109, 105, 110, 101])]
    let (placed, held, failed) := onePage.place "/docs" store
    let (_, final, failed') := placed.clear "/docs" held
    failed = none ∧ failed' = none ∧
      store.entryAt? ["docs", "api", "functions.md"] = some (.file [109, 105, 110, 101]) ∧
      final.entryAt? ["docs", "api", "functions.md"] = none ∧
      store.entryAt? ["docs", "api"] = some .directory ∧ final.entryAt? ["docs", "api"] = none := by
  decide +kernel

end HeaderDocs.Site.Reference
