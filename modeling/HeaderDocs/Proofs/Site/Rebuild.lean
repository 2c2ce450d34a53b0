import HeaderDocs.Proofs.Site.Links
import Mathlib.Data.List.Nodup
import Mathlib.Data.List.Perm.Basic

/-!
# Building again

A build begins anew: of what an earlier one has left only the navigation is read, and there the entry
of the reference is replaced. So it does not matter what was built before, and building twice is
building once, as long as no group keeps its tree in a file, from which the next build starts.

* `Reference.scanGroups_withSurroundings`: reading the groups does not look at the navigation.
* `placeEntry_placeEntry`, `placeEntry_split`: an entry is placed once, and only its place changes.
* `Reference.Tabled`: the table has the pages of the groups, if those have places of their own.
* `Reference.build_again`: what a build depends on, and what it does to the navigation.
-/
namespace HeaderDocs.Site

/-! ## Navigation -/

mutual
/-- The texts that are values somewhere in a setting, in order. -/
def Setting.texts : Setting → List String
  | .text value => [value]
  | .list items => textsOfItems items
  | .table fields => textsOfFields fields
  | _ => []

def textsOfItems : List Setting → List String
  | [] => []
  | item :: items => item.texts ++ textsOfItems items

def textsOfFields : List (String × Setting) → List String
  | [] => []
  | (_, value) :: fields => value.texts ++ textsOfFields fields
end

theorem textsOfItems_eq (items : List Setting) : textsOfItems items = items.flatMap (·.texts) := by
  induction items with
  | nil => rfl
  | cons item items ih => rw [textsOfItems, ih, List.flatMap_cons]

theorem texts_table (title : String) (value : Setting) :
    (Setting.table [(title, value)]).texts = value.texts := by
  simp [Setting.texts, textsOfFields]

/-- In a navigation with an entry for the paths, all entries are as before but one of its title, or
the last one is new. -/
def IsPlaced (title : String) (paths : List String) (before after : List Setting) : Prop :=
  ∃ front old back items, before = front ++ old ++ back ∧
    after = front ++ .table [(title, items)] :: back ∧
    (old = [] ∧ back = [] ∨ ∃ item, old = [item] ∧ (item.field? title).isSome = true) ∧
    items.texts.Perm paths

theorem IsPlaced.texts_perm {title : String} {paths : List String} {after : List Setting}
    (h : IsPlaced title paths [] after) : (after.flatMap (·.texts)).Perm paths := by
  obtain ⟨front, old, back, items, hbefore, rfl, -, hitems⟩ := h
  simp only [List.nil_eq, List.append_eq_nil_iff] at hbefore
  obtain ⟨⟨rfl, rfl⟩, rfl⟩ := hbefore
  rwa [List.nil_append, List.flatMap_singleton, texts_table]

namespace Reference

theorem placeEntry_split (title : String) (entry : Setting) (nav : List Setting) :
    ∃ front old back, nav = front ++ old ++ back ∧
      placeEntry title entry nav = front ++ entry :: back ∧
      (old = [] ∧ back = [] ∨ ∃ item, old = [item] ∧ (item.field? title).isSome = true) := by
  induction nav with
  | nil => exact ⟨[], [], [], rfl, rfl, .inl ⟨rfl, rfl⟩⟩
  | cons item items ih =>
    unfold placeEntry
    split
    · rename_i hitem
      exact ⟨[], [item], items, rfl, rfl, .inr ⟨item, rfl, hitem⟩⟩
    · obtain ⟨front, old, back, hnav, hplaced, hold⟩ := ih
      exact ⟨item :: front, old, back, by simp [hnav], by rw [hplaced]; rfl, hold⟩

theorem placeEntry_placeEntry {title : String} {entry : Setting}
    (hentry : (entry.field? title).isSome = true) (nav : List Setting) :
    placeEntry title entry (placeEntry title entry nav) = placeEntry title entry nav := by
  induction nav with
  | nil => simp [placeEntry, hentry]
  | cons item items ih =>
    by_cases hitem : (item.field? title).isSome = true
    · simp [placeEntry, hitem, hentry]
    · simp [placeEntry, hitem, ih]

/-! ## Groups -/

variable {ref : Reference} {store store' : Store} {g g' : Group} {messages : List Message}

theorem store_keepTree (hkeep : g.treeFile.getD "" = "") (tree : Node) :
    (keepTree store g tree).1 = store := by
  unfold keepTree
  cases hfile : g.treeFile with
  | none => rfl
  | some path =>
    obtain rfl : path = "" := by simpa [hfile] using hkeep
    rfl

/-- A group that keeps no tree writes no file. -/
theorem store_scanGroup (hkeep : g.treeFile.getD "" = "")
    (h : scanGroup store g = .ok (g', store', messages)) : store' = store := by
  simp only [scanGroup, bind, Except.bind] at h
  split at h
  · cases h
  · split at h
    · cases h
      rfl
    · split at h
      · cases h
      · cases h
        refine store_keepTree ?_ _
        exact hkeep

/-- Reading the groups does not look at the surroundings. -/
theorem scanGroups_withSurroundings (surroundings : Surroundings) (ref : Reference) (store : Store)
    (messages : List Message) (groups : List Group) :
    scanGroups (ref.withSurroundings surroundings) store messages groups =
      let outcome := scanGroups ref store messages groups
      { outcome with ref := outcome.ref.withSurroundings surroundings } := by
  induction groups generalizing ref store messages with
  | nil => rfl
  | cons g groups ih =>
    unfold scanGroups
    cases scanGroup store g with
    | error e => rfl
    | ok read => exact ih (ref.addGroup read.1) read.2.1 (messages ++ read.2.2)

theorem store_scanGroups (ref : Reference) (store : Store) (messages : List Message)
    {groups : List Group} (hkeep : ∀ g ∈ groups, g.treeFile.getD "" = "") :
    (scanGroups ref store messages groups).store = store := by
  induction groups generalizing ref messages with
  | nil => rfl
  | cons g groups ih =>
    unfold scanGroups
    split
    · rfl
    · rename_i g' store' more hg
      obtain rfl := store_scanGroup (hkeep g (List.mem_cons_self ..)) hg
      exact ih _ _ fun g hg => hkeep g (List.mem_cons_of_mem _ hg)

/-! ## Pages -/

def pathsOf (groups : List Group) : List String := groups.flatMap fun g => g.pages.map (·.1)

/-- Pages with paths of their own are added one after the other. -/
theorem paths_foldl_addPage {added : List (String × PageKind)} {i : Nat} {pages : Pages}
    (h : (pages.map (·.1) ++ added.map (·.1)).Nodup) :
    (added.foldl (fun pages (path, kind) => addPage pages path kind i) pages).map (·.1) =
      pages.map (·.1) ++ added.map (·.1) := by
  induction added generalizing pages with
  | nil => simp
  | cons page added ih =>
    obtain ⟨path, kind⟩ := page
    have hnew : pages.any (·.1 == path) = false := by
      rw [List.any_eq_false]
      intro other hother he
      have hdisjoint := (List.nodup_append.mp h).2.2
      exact hdisjoint other.1 (List.mem_map_of_mem hother) path (by simp) (eq_of_beq he)
    have hadd : addPage pages path kind i = pages ++ [(path, kind, i)] := by
      simp [addPage, hnew]
    have hnodup : ((pages ++ [(path, kind, i)]).map (·.1) ++ added.map (·.1)).Nodup := by
      simpa using h
    change (added.foldl _ (addPage pages path kind i)).map (·.1) = _
    rw [hadd, ih hnodup]
    simp

/-- The table has the pages of the groups, if no two of them have the same path. -/
def Tabled (ref : Reference) : Prop :=
  (pathsOf ref.groups).Nodup → ref.pages.map (·.1) = pathsOf ref.groups

theorem tabled_addGroup (h : ref.Tabled) (g : Group) : (ref.addGroup g).Tabled := by
  intro hnodup
  have hpaths : pathsOf (ref.addGroup g).groups = pathsOf ref.groups ++ g.pages.map (·.1) := by
    simp [pathsOf, addGroup]
  rw [hpaths] at hnodup ⊢
  have hold := h (List.nodup_append.mp hnodup).1
  rw [← hold] at hnodup ⊢
  exact paths_foldl_addPage hnodup

end Reference

/-! ## Paths of pages -/

def pageSlugs : List String := sections.map (·.1) ++ ["index"]

theorem nodup_pageSlugs : pageSlugs.Nodup := by decide +kernel

theorem notMem_slash_pageSlugs : ∀ slug ∈ pageSlugs, '/' ∉ slug.toList := by decide +kernel

namespace Group

variable {g : Group}

theorem nodup_pagePath (g : Group) : (pageSlugs.map g.pagePath).Nodup :=
  nodup_pageSlugs.map_on fun slug hs slug' hs' h =>
    (pagePath_inj (notMem_slash_pageSlugs slug hs) (notMem_slash_pageSlugs slug' hs') h).2

theorem paths_pagesFor_sublist (g : Group) (tree : Node) :
    ((g.pagesFor tree).map (·.1)).Sublist (pageSlugs.map g.pagePath) := by
  have hsections : ∀ ss : List (String × Kind × String),
      ((ss.filterMap fun s =>
        if (Located.publicNodes tree s.2.1).isEmpty then none
        else some (g.pagePath s.1, PageKind.listing s.1)).map (·.1)).Sublist
          ((ss.map (·.1)).map g.pagePath) := by
    intro ss
    induction ss with
    | nil => exact .slnil
    | cons s ss ih =>
      rw [List.filterMap_cons]
      split
      · exact .cons _ ih
      · rename_i hpage
        split at hpage
        · cases hpage
        · cases hpage
          exact .cons_cons _ ih
  unfold pagesFor
  dsimp only
  split
  · exact List.nil_sublist _
  · rw [List.map_append, pageSlugs, List.map_append]
    exact (hsections sections).append (.refl _)

theorem IsRead.paths_sublist (h : g.IsRead) :
    (g.pages.map (·.1)).Sublist (pageSlugs.map g.pagePath) := by
  rcases h with hnone | hall
  · rw [hnone]
    exact List.nil_sublist _
  · rw [hall]
    exact g.paths_pagesFor_sublist g.tree

theorem IsRead.index_mem (h : g.IsRead) (hne : g.pages ≠ []) :
    g.pagePath "index" ∈ g.pages.map (·.1) := by
  have hall := h.resolve_left hne
  rw [hall] at hne ⊢
  unfold pagesFor at hne ⊢
  dsimp only at hne ⊢
  split
  · rename_i hempty
    exact absurd (if_pos hempty) hne
  · simp

theorem texts_navItems (g : Group) :
    g.navItems.texts = g.pagePath "index" ::
      ((sections.map (·.1)).filter fun slug => g.pages.any (·.1 == g.pagePath slug)).map g.pagePath := by
  have hsections : ∀ ss : List (String × Kind × String),
      (ss.filterMap fun s =>
        if g.pages.any (·.1 == g.pagePath s.1) then
          some (.table [(s.2.2, .text (g.pagePath s.1))])
        else none).flatMap (Setting.texts ·) =
          ((ss.map (·.1)).filter fun slug => g.pages.any (·.1 == g.pagePath slug)).map g.pagePath := by
    intro ss
    induction ss with
    | nil => rfl
    | cons s ss ih =>
      rw [List.filterMap_cons]
      by_cases hany : g.pages.any (·.1 == g.pagePath s.1) = true
      · simp only [hany, if_true, List.map_cons, List.filter_cons, List.flatMap_cons, texts_table]
        exact congrArg (g.pagePath s.1 :: ·) ih
      · simp only [hany, Bool.false_eq_true, if_false, List.map_cons, List.filter_cons]
        exact ih
  unfold navItems
  dsimp only
  rw [Setting.texts, textsOfItems, textsOfItems_eq, texts_table]
  exact congrArg (g.pagePath "index" :: ·) (hsections sections)

/-- The navigation of a group has its pages. -/
theorem IsRead.texts_navItems_perm (h : g.IsRead) (hne : g.pages ≠ []) :
    g.navItems.texts.Perm (g.pages.map (·.1)) := by
  have hpages := h.paths_sublist
  rw [texts_navItems]
  refine (List.perm_ext_iff_of_nodup ?_ (hpages.nodup g.nodup_pagePath)).mpr fun path => ?_
  · have hsub : (pageSlugs.map g.pagePath).Perm
        (g.pagePath "index" :: (sections.map (·.1)).map g.pagePath) := by
      rw [pageSlugs, List.map_append]
      exact List.perm_append_singleton _ _
    have hnodup := hsub.nodup_iff.mp g.nodup_pagePath
    exact (List.Sublist.cons_cons _ (List.filter_sublist.map _)).nodup hnodup
  · constructor
    · intro hpath
      rcases List.mem_cons.mp hpath with rfl | hpath
      · exact h.index_mem hne
      · obtain ⟨slug, hslug, rfl⟩ := List.mem_map.mp hpath
        obtain ⟨page, hpage, he⟩ := List.any_eq_true.mp (List.mem_filter.mp hslug).2
        exact eq_of_beq he ▸ List.mem_map_of_mem hpage
    · intro hpath
      obtain ⟨slug, hslug, rfl⟩ := List.mem_map.mp (hpages.subset hpath)
      rcases List.mem_append.mp hslug with hslug | hslug
      · obtain ⟨page, hpage, he⟩ := List.mem_map.mp hpath
        refine List.mem_cons_of_mem _ (List.mem_map_of_mem (List.mem_filter.mpr ⟨hslug, ?_⟩))
        exact List.any_eq_true.mpr ⟨page, hpage, beq_iff_eq.mpr he⟩
      · rw [List.mem_singleton.mp hslug]
        exact List.mem_cons_self ..

end Group

namespace Reference

variable {ref : Reference} {store : Store}

/-- Groups with directories of their own have pages with paths of their own. -/
theorem nodup_pathsOf {groups : List Group} (hread : ∀ g ∈ groups, g.IsRead)
    (hdirs : (groups.map (·.outputDir.shown)).Nodup) : (pathsOf groups).Nodup := by
  refine List.nodup_flatMap.mpr ⟨fun g hg => ?_, ?_⟩
  · exact (hread g hg).paths_sublist.nodup g.nodup_pagePath
  · refine (List.pairwise_map.mp hdirs).imp_of_mem fun {g g'} hg hg' hne path hpath hpath' => ?_
    obtain ⟨slug, hslug, rfl⟩ := List.mem_map.mp ((hread g hg).paths_sublist.subset hpath)
    obtain ⟨slug', hslug', he⟩ := List.mem_map.mp ((hread g' hg').paths_sublist.subset hpath')
    exact hne (pagePath_inj (notMem_slash_pageSlugs slug hslug)
      (notMem_slash_pageSlugs slug' hslug') he.symm).1

theorem pathsOf_filter (groups : List Group) :
    pathsOf (groups.filter (!·.pages.isEmpty)) = pathsOf groups := by
  induction groups with
  | nil => rfl
  | cons g groups ih =>
    rw [pathsOf, pathsOf] at ih
    rw [pathsOf, pathsOf, List.flatMap_cons, ← ih]
    by_cases hempty : g.pages.isEmpty = true
    · rw [List.filter_cons_of_neg (by simp [hempty]), List.isEmpty_iff.mp hempty]
      rfl
    · rw [List.filter_cons_of_pos (by simpa using hempty), List.flatMap_cons]

/-! ## The entry of the reference -/

/-- The entries of groups in the navigation have the pages that the groups have there. -/
theorem texts_navEntries? {groups : List Group} {entries : List Setting}
    (h : navEntries? groups = some entries) :
    entries.flatMap (·.texts) = groups.flatMap (·.navItems.texts) := by
  unfold navEntries? at h
  induction groups generalizing entries with
  | nil =>
    cases h
    rfl
  | cons g groups ih =>
    simp only [List.mapM_cons, bind, Option.bind_eq_some_iff, Option.map_eq_some_iff] at h
    obtain ⟨_, ⟨title, -, rfl⟩, rest, hrest, hentries⟩ := h
    cases hentries
    rw [List.flatMap_cons, List.flatMap_cons, texts_table, ih hrest]

/-- The entry of the reference has the pages of all groups. -/
theorem texts_navItems_perm (hread : ∀ g ∈ ref.groups, g.IsRead) {items : Setting}
    (h : ref.navItems = .ok (some items)) : items.texts.Perm (pathsOf ref.groups) := by
  have hread' : ∀ g ∈ ref.groups.filter (!·.pages.isEmpty),
      g.navItems.texts.Perm (g.pages.map (·.1)) := by
    intro g hg
    obtain ⟨hg, hne⟩ := List.mem_filter.mp hg
    exact (hread g hg).texts_navItems_perm (by simpa using hne)
  rw [← pathsOf_filter]
  unfold navItems at h
  generalize hshown : ref.groups.filter (!·.pages.isEmpty) = shown at h hread' ⊢
  cases shown with
  | nil => cases h
  | cons g groups =>
    dsimp only at h
    split at h
    · rename_i hone
      cases h
      have hlength := List.length_filter_le (!·.pages.isEmpty) ref.groups
      rw [hshown, List.length_cons, eq_of_beq hone] at hlength
      obtain rfl : groups = [] := List.eq_nil_of_length_eq_zero (by omega)
      simpa [pathsOf] using hread' g (List.mem_cons_self ..)
    · split at h
      · rename_i entries hentries
        cases h
        rw [Setting.texts, textsOfItems_eq, texts_navEntries? hentries, pathsOf]
        exact List.Perm.flatMap_left _ hread'
      · cases h

/-- There is an entry if any group has pages. -/
theorem navItems_ne_none (hpages : ∃ g ∈ ref.groups, g.pages ≠ []) :
    ref.navItems ≠ .ok none := by
  obtain ⟨g, hg, hne⟩ := hpages
  have hmem : g ∈ ref.groups.filter (!·.pages.isEmpty) :=
    List.mem_filter.mpr ⟨hg, by simpa using hne⟩
  unfold navItems
  split
  · rename_i hnone
    rw [hnone] at hmem
    cases hmem
  · split
    · simp
    · split <;> simp

theorem navWith_eq_ok {nav : Option (List Setting)} (h : ref.navWith = .ok nav) :
    ∃ items, ref.navItems = .ok items ∧ nav = (items.map fun items =>
      placeEntry ref.options.navTitle (.table [(ref.options.navTitle, items)])
        (ref.surroundings.nav.getD [])).or ref.surroundings.nav := by
  unfold navWith at h
  cases hitems : ref.navItems with
  | error e =>
    rw [hitems] at h
    cases h
  | ok items =>
    rw [hitems] at h
    cases h
    refine ⟨items, rfl, ?_⟩
    cases items <;> rfl

/-- With the entry of the reference in place, the navigation stays as it is. -/
theorem navWith_again {nav : Option (List Setting)} (h : ref.navWith = .ok nav) :
    (ref.withSurroundings { ref.surroundings with nav }).navWith = .ok nav := by
  obtain ⟨items, hitems, rfl⟩ := navWith_eq_ok h
  unfold navWith
  rw [show ∀ surroundings, (ref.withSurroundings surroundings).navItems = ref.navItems from
    fun _ => rfl, hitems]
  cases items with
  | none => rfl
  | some items =>
    simp [Except.map, withSurroundings, placeEntry_placeEntry, Setting.field?]

/-- The navigation gets an entry with the pages of all groups. -/
theorem navWith_isPlaced (hread : ∀ g ∈ ref.groups, g.IsRead)
    (hpages : ∃ g ∈ ref.groups, g.pages ≠ []) {nav : Option (List Setting)}
    (h : ref.navWith = .ok nav) :
    ∃ placed, nav = some placed ∧
      IsPlaced ref.options.navTitle (pathsOf ref.groups) (ref.surroundings.nav.getD []) placed := by
  obtain ⟨items?, hitems, rfl⟩ := navWith_eq_ok h
  cases items? with
  | none => exact absurd hitems (navItems_ne_none hpages)
  | some items =>
    obtain ⟨front, old, back, hnav, hplaced, hold⟩ := placeEntry_split ref.options.navTitle
      (.table [(ref.options.navTitle, items)]) (ref.surroundings.nav.getD [])
    exact ⟨_, rfl, front, old, back, items, hnav, hplaced, hold, texts_navItems_perm hread hitems⟩

/-! ## Two builds -/

/-- No group of the reference keeps its tree in a file. -/
def KeepsNoTrees (ref : Reference) (store : Store) : Prop :=
  ∀ groups messages, initialGroups store ref = .ok (groups, messages) →
    ∀ g ∈ groups, g.treeFile.getD "" = ""

theorem scanGroups_frame (ref : Reference) (store : Store) (messages : List Message)
    (groups : List Group) :
    let built := (scanGroups ref store messages groups).ref
    built.options = ref.options ∧ built.surroundings = ref.surroundings ∧
      built.placeholders = ref.placeholders :=
  invariant_scanGroups (P := fun built => built.options = ref.options ∧
      built.surroundings = ref.surroundings ∧ built.placeholders = ref.placeholders)
    (fun _ _ _ _ _ h => h) ⟨rfl, rfl, rfl⟩ store messages groups

/-- The groups that a build starts with do not depend on the navigation. -/
theorem initialGroups_congr {other : Reference} (hoptions : other.options = ref.options)
    (hsettings : other.surroundings.settingsFile = ref.surroundings.settingsFile) :
    initialGroups store other = initialGroups store ref := by
  unfold initialGroups
  rw [hoptions, hsettings]

theorem cleared_congr {other : Reference} (hoptions : other.options = ref.options) :
    other.cleared = ref.cleared.withSurroundings other.surroundings := by
  unfold cleared withSurroundings
  rw [hoptions]

/-- Whether the entry can be made, and all but the navigation, does not depend on the surroundings.
-/
theorem finish_withSurroundings (outcome : Outcome) (surroundings : Surroundings) :
    let moved := finish { outcome with ref := outcome.ref.withSurroundings surroundings }
    let finished := finish outcome
    moved.ref.groups = finished.ref.groups ∧ moved.ref.pages = finished.ref.pages ∧
      moved.ref.symbols = finished.ref.symbols ∧ moved.messages = finished.messages ∧
      moved.error = finished.error := by
  unfold finish navWith
  dsimp only
  rw [show (outcome.ref.withSurroundings surroundings).navItems = outcome.ref.navItems from rfl]
  cases herror : outcome.error with
  | some e => simp [withSurroundings, herror]
  | none => cases outcome.ref.navItems <;> simp [Except.map, withSurroundings]

/-- What a build makes, whatever the navigation is and whatever has been built before. -/
theorem build_same {other : Reference} (hoptions : other.options = ref.options)
    (hsettings : other.surroundings.settingsFile = ref.surroundings.settingsFile) (store : Store) :
    let built := ref.build store
    let rebuilt := other.build store
    rebuilt.ref.groups = built.ref.groups ∧ rebuilt.ref.pages = built.ref.pages ∧
      rebuilt.ref.symbols = built.ref.symbols ∧ rebuilt.messages = built.messages ∧
      rebuilt.error = built.error := by
  dsimp only
  rw [build_eq, build_eq, initialGroups_congr hoptions hsettings, cleared_congr hoptions]
  cases initialGroups store ref with
  | error e => exact ⟨rfl, rfl, rfl, rfl, rfl⟩
  | ok initial =>
    dsimp only
    rw [scanGroups_withSurroundings]
    exact finish_withSurroundings _ _

/-- Ending a build again changes nothing. -/
theorem finish_again {outcome : Outcome} {nav : Option (List Setting)} (h : outcome.error = none)
    (hnav : outcome.ref.navWith = .ok nav) :
    finish { outcome with ref := outcome.ref.withSurroundings (finish outcome).ref.surroundings } =
      finish outcome := by
  have hagain := navWith_again hnav
  rw [ref_finish h hnav]
  unfold finish
  simp only [h, hnav]
  unfold withSurroundings at hagain ⊢
  simp only [hagain]

/-- A build that has ended without errors makes the same again from what it has left. -/
theorem build_build (herror : (ref.build store).error = none) :
    (ref.build store).ref.build store = ref.build store := by
  obtain ⟨groups, messages, nav, hinitial, hnone, hnav, hbuild⟩ := exists_of_build herror
  obtain ⟨hoptions, hsurroundings, -⟩ := scanGroups_frame ref.cleared store messages groups
  have hoptions' : (ref.build store).ref.options = ref.options := by
    rw [hbuild, ref_finish hnone hnav]
    exact hoptions
  have hsettings : (ref.build store).ref.surroundings.settingsFile =
      ref.surroundings.settingsFile := by
    rw [hbuild, ref_finish hnone hnav]
    exact congrArg (·.settingsFile) hsurroundings
  rw [build_eq (ref.build store).ref, initialGroups_congr hoptions' hsettings, hinitial,
    cleared_congr hoptions']
  dsimp only
  rw [scanGroups_withSurroundings, hbuild]
  exact finish_again hnone hnav

theorem store_finish (outcome : Outcome) : (finish outcome).store = outcome.store := by
  unfold finish
  split
  · rfl
  · split <;> rfl

theorem store_build (hkeeps : ref.KeepsNoTrees store) : (ref.build store).store = store := by
  rw [build_eq]
  cases hinitial : initialGroups store ref with
  | error e => rfl
  | ok initial =>
    have hstore := store_scanGroups ref.cleared store initial.2
      (hkeeps initial.1 initial.2 hinitial)
    dsimp only
    rw [store_finish]
    exact hstore

/-- The table of a build has the pages of its groups. -/
theorem tabled_build (ref : Reference) (store : Store) : (ref.build store).ref.Tabled :=
  invariant_build (P := Tabled) (fun _ => rfl) (fun _ _ _ _ _ h => tabled_addGroup h _) (fun _ _ h => h) store

/-- Of a reference whose groups keep no trees, a build makes groups, pages and symbols that depend
only on the options, the directory of the settings and the files, which it leaves alone. Building
again changes nothing. If no two groups have directories that are shown alike, and any of them has
pages, the navigation has one entry for all pages, and is as before apart from that. -/
theorem build_again (hkeeps : ref.KeepsNoTrees store) :
    let built := ref.build store
    (∀ other : Reference, other.options = ref.options →
      other.surroundings.settingsFile = ref.surroundings.settingsFile →
        let rebuilt := other.build store
        rebuilt.ref.groups = built.ref.groups ∧ rebuilt.ref.pages = built.ref.pages ∧
          rebuilt.ref.symbols = built.ref.symbols ∧ rebuilt.error = built.error) ∧
    built.store = store ∧
    (built.error = none → built.ref.build built.store = built) ∧
    (built.error = none → (∃ g ∈ built.ref.groups, g.pages ≠ []) →
      (built.ref.groups.map (·.outputDir.shown)).Nodup →
        (built.ref.pages.map (·.1)).Nodup ∧ ∃ nav, built.ref.surroundings.nav = some nav ∧
          IsPlaced ref.options.navTitle (built.ref.pages.map (·.1)) (ref.surroundings.nav.getD [])
            nav) := by
  have hstore := store_build hkeeps
  refine ⟨fun other hoptions hsettings => ?_, hstore, fun herror => ?_, fun herror hpages hdirs => ?_⟩
  · obtain ⟨hgroups, hpages, hsymbols, -, herror⟩ := build_same hoptions hsettings store
    exact ⟨hgroups, hpages, hsymbols, herror⟩
  · rw [hstore]
    exact build_build herror
  · have hread := (linked_build ref store).groups
    have hnodup := nodup_pathsOf hread hdirs
    have hpaths := tabled_build ref store hnodup
    obtain ⟨groups, messages, nav, -, hnone, hnav, hbuild⟩ := exists_of_build herror
    obtain ⟨hoptions, hsurroundings, -⟩ := scanGroups_frame ref.cleared store messages groups
    rw [hpaths]
    refine ⟨hnodup, ?_⟩
    rw [hbuild, ref_finish hnone hnav] at hread hpages ⊢
    obtain ⟨placed, rfl, hplaced⟩ :=
      @navWith_isPlaced (scanGroups ref.cleared store messages groups).ref hread hpages _ hnav
    rw [hoptions, hsurroundings] at hplaced
    exact ⟨placed, rfl, hplaced⟩

theorem keepsNoTrees_of_all (h : ((initialGroups store ref).toOption.all fun initial =>
    initial.1.all fun g => g.treeFile.getD "" == "") = true) : ref.KeepsNoTrees store := by
  intro groups messages hinitial g hg
  rw [hinitial] at h
  exact eq_of_beq (List.all_eq_true.mp h g hg)

theorem exists_pages {groups : List Group} (h : groups.any (!·.pages.isEmpty) = true) :
    ∃ g ∈ groups, g.pages ≠ [] := by
  obtain ⟨g, hg, hne⟩ := List.any_eq_true.mp h
  exact ⟨g, hg, by simpa using hne⟩

/-- The reference of two directories, in a site whose navigation has an entry with its title. -/
def twoGroups : Reference :=
  { options :=
      { sources := [.text "a/src", .table [("root", .text "b/src"), ("output_dir", .text "b")]] }
    surroundings :=
      { nav := some [.text "index.md", .table [("API Reference", .text "old.md")], .text "end.md"] } }

theorem build_again_twoGroups :
    let built := twoGroups.build sameName
    twoGroups.KeepsNoTrees sameName ∧ built.error = none ∧
      built.ref.pages.map (·.1) =
        ["api/src/functions.md", "api/src/index.md", "b/functions.md", "b/index.md"] ∧
      built.ref.build built.store = built ∧
      ∃ nav, built.ref.surroundings.nav = some nav ∧
        IsPlaced twoGroups.options.navTitle (built.ref.pages.map (·.1))
          (twoGroups.surroundings.nav.getD []) nav := by
  have hkeeps : twoGroups.KeepsNoTrees sameName := keepsNoTrees_of_all (by decide +kernel)
  have herror : (twoGroups.build sameName).error = none := by decide +kernel
  have hpages : ∃ g ∈ (twoGroups.build sameName).ref.groups, g.pages ≠ [] :=
    exists_pages (by decide +kernel)
  have hdirs : ((twoGroups.build sameName).ref.groups.map (·.outputDir.shown)).Nodup := by
    decide +kernel
  obtain ⟨-, -, hagain, hplaced⟩ := build_again hkeeps
  exact ⟨hkeeps, herror, by decide +kernel, hagain herror, (hplaced herror hpages hdirs).2⟩

/-- The reference of two directories whose groups have their pages in the same place. The settings
give it as a number and as a text. -/
def numberAndText : Reference :=
  { options :=
      { sources :=
          [.table [("root", .text "a/src"), ("output_dir", .integer 2)],
            .table [("root", .text "b/src"), ("output_dir", .text "2")]] }
    surroundings := {} }

/-- Directories that are given by different settings may be the same: then the entry has their pages
twice. -/
theorem build_again_numberAndText :
    let built := numberAndText.build sameName
    numberAndText.KeepsNoTrees sameName ∧ built.error = none ∧
      (∃ g ∈ built.ref.groups, g.pages ≠ []) ∧ (built.ref.groups.map (·.outputDir)).Nodup ∧
      built.ref.pages.map (·.1) = ["2/functions.md", "2/index.md"] ∧
      ¬ ∃ nav, built.ref.surroundings.nav = some nav ∧
        IsPlaced numberAndText.options.navTitle (built.ref.pages.map (·.1))
          (numberAndText.surroundings.nav.getD []) nav := by
  intro built
  -- only one of the two settings is a text
  have htexts : ((built.ref.groups.map (·.outputDir)).map (·.text?)).Nodup := by decide +kernel
  refine ⟨keepsNoTrees_of_all (by decide +kernel), by decide +kernel,
    exists_pages (by decide +kernel), htexts.of_map _, by decide +kernel, ?_⟩
  rintro ⟨nav, hnav, hplaced⟩
  have hlength : ((built.ref.surroundings.nav.getD []).flatMap (·.texts)).length = 4 := by
    decide +kernel
  have hpaths : (built.ref.pages.map (·.1)).length = 2 := by decide +kernel
  rw [hnav, Option.getD_some, hplaced.texts_perm.length_eq, hpaths] at hlength
  cases hlength

end Reference

end HeaderDocs.Site
