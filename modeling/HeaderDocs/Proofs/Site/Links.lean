import HeaderDocs.Proofs.Reference.Anchors
import HeaderDocs.Proofs.Site.Builds
import HeaderDocs.Site.Page

/-!
# Links to symbols

What is registered names a page and an anchor on it. Pages are looked up by their path, and the page
that a path was given last is the one that is shown, while the symbol that a name was given first is
the one that is found. Two groups with the same directory for their pages can so tear them apart.

* `Registry.mem_registerGroup`: a group registers symbols of its own pages.
* `Reference.Linked`: every symbol is shown by the group that registered it, and every page of a group
  is in the table, for this group or a later one.
* `Reference.symbol_shown`: every registered symbol leads to a page that shows it, unless that page
  has replaced the one of an earlier group.
-/
namespace HeaderDocs.Site

/-! ## Paths of pages -/

theorem notMem_slash_slug : ∀ s ∈ sections, '/' ∉ s.1.toList ∧ s.1 ≠ "index" := by
  decide +kernel

/-- What stands before the last slash and after it. -/
theorem append_slash_inj {a b x y : List Char} (hx : '/' ∉ x) (hy : '/' ∉ y)
    (h : a ++ '/' :: x = b ++ '/' :: y) : a = b ∧ x = y := by
  rcases List.append_eq_append_iff.mp h with ⟨between, hb, hslash⟩ | ⟨between, ha, hslash⟩
  · cases between with
    | nil => exact ⟨by simpa using hb.symm, by simpa using hslash⟩
    | cons c between =>
      obtain ⟨-, hrest⟩ := List.cons.inj hslash
      exact absurd (hrest ▸ List.mem_append_right _ (List.mem_cons_self ..)) hx
  · cases between with
    | nil => exact ⟨by simpa using ha, by simpa using hslash.symm⟩
    | cons c between =>
      obtain ⟨-, hrest⟩ := List.cons.inj hslash
      exact absurd (hrest ▸ List.mem_append_right _ (List.mem_cons_self ..)) hy

/-- The path of a page says which it is in which directory. -/
theorem pagePath_inj {g g' : Group} {slug slug' : String} (hs : '/' ∉ slug.toList)
    (hs' : '/' ∉ slug'.toList) (h : g.pagePath slug = g'.pagePath slug') :
    g.outputDir.shown = g'.outputDir.shown ∧ slug = slug' := by
  have hlist := congrArg String.toList h
  simp only [Group.pagePath, String.toList_append, List.append_assoc] at hlist
  have hx : '/' ∉ slug.toList ++ ".md".toList := by simpa using hs
  have hy : '/' ∉ slug'.toList ++ ".md".toList := by simpa using hs'
  obtain ⟨hdir, hslug⟩ := append_slash_inj hx hy hlist
  exact ⟨String.toList_inj.mp hdir, String.toList_inj.mp (List.append_cancel_right hslug)⟩

namespace Group

variable {g : Group} {tree : Node} {page : String × PageKind}

theorem mem_pagesFor (h : page ∈ g.pagesFor tree) :
    (∃ s ∈ sections, page = (g.pagePath s.1, .listing s.1)) ∨
      page = (g.pagePath "index", .overview) := by
  unfold pagesFor at h
  dsimp only at h
  split at h
  · cases h
  · rcases List.mem_append.mp h with hsection | hindex
    · obtain ⟨s, hs, hpage⟩ := List.mem_filterMap.mp hsection
      split at hpage
      · cases hpage
      · exact .inl ⟨s, hs, (Option.some.inj hpage).symm⟩
    · exact .inr (List.mem_singleton.mp hindex)

theorem listing_mem_pagesFor {s : String × Kind × String} (hs : s ∈ sections) {l : Located}
    (hl : l ∈ Located.publicNodes tree s.2.1) :
    (g.pagePath s.1, .listing s.1) ∈ g.pagesFor tree := by
  have hmem : (g.pagePath s.1, PageKind.listing s.1) ∈ sections.filterMap fun t =>
      if (Located.publicNodes tree t.2.1).isEmpty then none
      else some (g.pagePath t.1, PageKind.listing t.1) := by
    refine List.mem_filterMap.mpr ⟨s, hs, if_neg fun he => ?_⟩
    rw [List.isEmpty_iff.mp he] at hl
    cases hl
  unfold pagesFor
  dsimp only
  rw [if_neg fun he => List.ne_nil_of_mem hmem (List.isEmpty_iff.mp he)]
  exact List.mem_append_left _ hmem

/-- A group that has been read has the pages of its tree, or none at all. -/
def IsRead (g : Group) : Prop := g.pages = [] ∨ g.pages = g.pagesFor g.tree

theorem IsRead.mem_pagesFor (h : g.IsRead) (hpage : page ∈ g.pages) : page ∈ g.pagesFor g.tree := by
  rcases h with hnone | hall
  · rw [hnone] at hpage
    cases hpage
  · exact hall ▸ hpage

end Group

/-- The path of a generated page says what it shows, whatever group it is of. -/
theorem kind_eq_of_path {g g' : Group} {tree tree' : Node} {path : String} {kind kind' : PageKind}
    (h : (path, kind) ∈ g.pagesFor tree) (h' : (path, kind') ∈ g'.pagesFor tree') :
    kind = kind' := by
  have hindex : '/' ∉ "index".toList := by decide
  rcases Group.mem_pagesFor h with ⟨s, hs, he⟩ | he <;>
    rcases Group.mem_pagesFor h' with ⟨s', hs', he'⟩ | he' <;>
    obtain ⟨rfl, rfl⟩ := Prod.mk.inj he <;> obtain ⟨hpath, rfl⟩ := Prod.mk.inj he'
  · rw [(pagePath_inj (notMem_slash_slug s hs).1 (notMem_slash_slug s' hs').1 hpath).2]
  · exact absurd (pagePath_inj (notMem_slash_slug s hs).1 hindex hpath).2
      (notMem_slash_slug s hs).2
  · exact absurd (pagePath_inj hindex (notMem_slash_slug s' hs').1 hpath).2.symm
      (notMem_slash_slug s' hs').2
  · rfl

/-! ## Registration -/

namespace Registry

variable {r : Registry} {entry : Option String × Symbol}

theorem mem_register {name : Option String} {symbol : Symbol} (h : entry ∈ r.register name symbol) :
    entry ∈ r ∨ entry.2 = symbol := by
  unfold register at h
  split at h
  · exact .inl h
  · rcases List.mem_append.mp h with hold | hnew
    · exact .inl hold
    · exact .inr (congrArg Prod.snd (List.mem_singleton.mp hnew))

/-- What a list of registrations adds, one of them has added. -/
theorem mem_foldl {α : Type} {f : Registry → α → Registry} {P : Symbol → Prop} {as : List α}
    (hf : ∀ a ∈ as, ∀ r, entry ∈ f r a → entry ∈ r ∨ P entry.2) (h : entry ∈ as.foldl f r) :
    entry ∈ r ∨ P entry.2 := by
  induction as generalizing r with
  | nil => exact .inl h
  | cons a as ih =>
    rcases ih (fun b hb => hf b (List.mem_cons_of_mem _ hb)) h with hold | hnew
    · exact hf a (List.mem_cons_self ..) r hold
    · exact .inr hnew

/-- A symbol is on the page, and the text has its anchor. -/
def Shown (page text : String) (symbol : Symbol) : Prop :=
  symbol.page = page ∧ HasAnchor text symbol.anchor

variable {page : String} {groupTitle : Setting} {style : EntryStyle} {l : Located}

/-- The entry of a node shows the members that are registered with it. -/
theorem hasAnchor_of_mem_membersOf {m : Located} (h : m ∈ membersOf style.members l) :
    HasAnchor (l.entry style) (if m.node.kind == .constant then l.anchor else m.anchor) := by
  obtain ⟨n, hn, rfl⟩ := List.mem_map.mp h
  split at hn
  · -- the constants of an enumeration
    obtain ⟨-, hkind⟩ := List.mem_filter.mp hn
    rw [if_pos (by simpa [Node.isKind, Located.child] using hkind)]
    exact hasAnchor_entry style l
  · split at hn
    · -- the functions and variables of a record
      rename_i hrecord
      obtain ⟨hrecord, hmembers⟩ := Bool.and_eq_true_iff.mp hrecord
      obtain ⟨kind, hkind, hn⟩ := List.mem_flatMap.mp hn
      obtain ⟨hn, hscope⟩ := List.mem_filter.mp hn
      obtain ⟨hchild, hn⟩ := List.mem_filter.mp hn
      obtain ⟨hnamed, hpublic⟩ := Bool.and_eq_true_iff.mp hn
      have hnkind : n.kind = kind := by simpa [Node.isNamed] using hnamed
      have hconstant : n.kind ≠ .constant ∧ n.kind ∈ memberKinds := by
        rw [hnkind]
        rcases List.mem_cons.mp hkind with rfl | hkind
        · decide
        · obtain rfl := List.mem_singleton.mp hkind
          decide
      rw [if_neg (by simpa [Located.child] using hconstant.1)]
      exact hasAnchor_member hmembers (by simp [Kind.listsMembers, hrecord]) hchild hconstant.2
        hpublic (by simpa using hscope)
    · cases hn

/-- A node and its members are registered with anchors of its entry. -/
theorem mem_registerNode (h : entry ∈ registerNode style.members page groupTitle r l) :
    entry ∈ r ∨ Shown page (l.entry style) entry.2 := by
  have hmember : ∀ m ∈ membersOf style.members l, ∀ r,
      entry ∈ registerMember page groupTitle l r m →
        entry ∈ r ∨ Shown page (l.entry style) entry.2 := by
    intro m hm r h
    unfold registerMember at h
    dsimp only at h
    rcases mem_register h with h | h
    · rcases mem_register h with h | h
      · rcases mem_register h with h | h
        · exact .inl h
        · exact .inr ⟨by rw [h], by rw [h]; exact hasAnchor_of_mem_membersOf hm⟩
      · exact .inr ⟨by rw [h], by rw [h]; exact hasAnchor_of_mem_membersOf hm⟩
    · exact .inr ⟨by rw [h], by rw [h]; exact hasAnchor_of_mem_membersOf hm⟩
  unfold registerNode at h
  rcases mem_foldl hmember h with h | h
  · rcases mem_register h with h | h
    · rcases mem_register h with h | h
      · exact .inl h
      · exact .inr ⟨by rw [h], by rw [h]; exact hasAnchor_entry style l⟩
    · exact .inr ⟨by rw [h], by rw [h]; exact hasAnchor_entry style l⟩
  · exact .inr h

/-- A group registers symbols that the sections of its tree show. -/
theorem mem_registerGroup (style : EntryStyle) {g : Group}
    (h : entry ∈ registerGroup style.members r g) :
    entry ∈ r ∨ ∃ s ∈ sections, ∃ l ∈ Located.publicNodes g.tree s.2.1,
      Shown (g.pagePath s.1) (l.entry style) entry.2 := by
  refine mem_foldl (P := fun symbol => ∃ s ∈ sections, ∃ l ∈ Located.publicNodes g.tree s.2.1,
    Shown (g.pagePath s.1) (l.entry style) symbol) (fun s hs r hr => ?_) h
  refine mem_foldl (P := fun symbol => ∃ s ∈ sections, ∃ l ∈ Located.publicNodes g.tree s.2.1,
    Shown (g.pagePath s.1) (l.entry style) symbol) (fun l hl r hr => ?_) hr
  exact (mem_registerNode hr).imp_right fun hshown => ⟨s, hs, l, hl, hshown⟩

end Registry

/-! ## Groups of a site -/

namespace Reference

abbrev Pages := List (String × PageKind × Nat)

/-- The page that a path was given last is found. -/
theorem find?_addPage (pages : Pages) (path : String) (kind : PageKind) (i : Nat) (other : String) :
    (addPage pages path kind i).find? (·.1 == other) =
      if path = other then some (path, kind, i) else pages.find? (·.1 == other) := by
  unfold addPage
  split
  · rename_i hany
    -- replacing a page changes no path
    have hpath : ((·.1 == other) ∘ fun page : String × PageKind × Nat =>
        if page.1 == path then (path, kind, i) else page) = (·.1 == other) := by
      funext page
      by_cases h : page.1 = path <;> simp [h]
    rw [List.find?_map, hpath]
    cases hfound : pages.find? (·.1 == other) with
    | none =>
      have hne : path ≠ other := by
        rintro rfl
        obtain ⟨page, hmem, hp⟩ := List.any_eq_true.mp hany
        exact List.find?_eq_none.mp hfound page hmem hp
      simp [hne]
    | some page =>
      have hother : page.1 = other := by simpa using List.find?_some hfound
      by_cases h : path = other
      · simp [h, hother]
      · simp [h, hother, Ne.symm h]
  · rename_i hnone
    have hnone : pages.find? (·.1 == path) = none := List.find?_eq_none.mpr fun page hmem hp =>
      hnone (List.any_eq_true.mpr ⟨page, hmem, hp⟩)
    rw [List.find?_append]
    by_cases h : path = other
    · simp [← h, hnone]
    · simp [h]

/-- A path that a group has a page for leads to that page, other paths are left alone. -/
theorem find?_addGroup (ref : Reference) {g : Group} {tree : Node}
    (hpages : ∀ page ∈ g.pages, page ∈ g.pagesFor tree) (path : String) :
    (∀ kind, (path, kind) ∈ g.pages →
      (ref.addGroup g).pages.find? (·.1 == path) = some (path, kind, ref.groups.length)) ∧
    ((∀ kind, (path, kind) ∉ g.pages) →
      (ref.addGroup g).pages.find? (·.1 == path) = ref.pages.find? (·.1 == path)) := by
  unfold addGroup
  dsimp only
  generalize ref.pages = pages
  generalize ref.groups.length = i
  generalize g.pages = added at hpages
  induction added generalizing pages with
  | nil => exact ⟨nofun, fun _ => rfl⟩
  | cons first added ih =>
    obtain ⟨hfound, hother⟩ := ih (addPage pages first.1 first.2 i)
      fun page hmem => hpages page (List.mem_cons_of_mem _ hmem)
    constructor
    · intro kind hmem
      by_cases hlater : ∃ kind', (path, kind') ∈ added
      · obtain ⟨kind', hlater⟩ := hlater
        have hkind : kind' = kind := kind_eq_of_path (hpages _ (List.mem_cons_of_mem _ hlater))
          (hpages _ hmem)
        exact hkind ▸ hfound kind' hlater
      · have hnot : ∀ kind', (path, kind') ∉ added := fun kind' h => hlater ⟨kind', h⟩
        have hfirst : first = (path, kind) :=
          ((List.mem_cons.mp hmem).resolve_right (hnot kind)).symm
        rw [List.foldl_cons, hother hnot, find?_addPage, hfirst, if_pos rfl]
    · intro hnot
      rw [List.foldl_cons, hother fun kind h => hnot kind (List.mem_cons_of_mem _ h), find?_addPage,
        if_neg]
      rintro rfl
      exact hnot first.2 (List.mem_cons_self ..)

/-- What the table of pages and the registered symbols say of the groups that have been read. -/
structure Linked (ref : Reference) : Prop where
  groups : ∀ g ∈ ref.groups, g.IsRead
  /-- A page of a group is in the table, for this group or for a later one. -/
  table : ∀ (i : Nat) (g : Group) (page : String × PageKind), ref.groups[i]? = some g →
    page ∈ g.pages → ∃ j g', i ≤ j ∧ ref.groups[j]? = some g' ∧ page ∈ g'.pages ∧
      ref.pages.find? (·.1 == page.1) = some (page.1, page.2, j)
  /-- A symbol is shown by a group. -/
  symbols : ∀ entry ∈ ref.symbols, ∃ (i : Nat) (g : Group) (slug : String),
    ref.groups[i]? = some g ∧ (entry.2.page, .listing slug) ∈ g.pages ∧
      HasAnchor (ref.sectionPage g slug) entry.2.anchor

theorem hasAnchor_sectionPage (ref : Reference) {g : Group} {s : String × Kind × String}
    (hs : s ∈ sections) {l : Located} (hl : l ∈ Located.publicNodes g.tree s.2.1) {anchor : String}
    (h : HasAnchor (l.entry ref.style) anchor) : HasAnchor (ref.sectionPage g s.1) anchor := by
  have hfind : ∀ s ∈ sections, sections.find? (·.1 == s.1) = some s := by decide +kernel
  unfold sectionPage
  rw [hfind s hs]
  exact (hasAnchor_sectionText "" hl h).append _

theorem getElem?_concat {α : Type} {as : List α} {a b : α} {i : Nat}
    (h : (as ++ [a])[i]? = some b) : as[i]? = some b ∨ i = as.length ∧ b = a := by
  rcases Nat.lt_or_ge i as.length with hlt | hge
  · exact .inl ((List.getElem?_append_left hlt).symm.trans h)
  · have hlast : i = as.length := by
      have := (List.getElem?_eq_some_iff.mp h).1
      simp only [List.length_append, List.length_singleton] at this
      omega
    subst hlast
    exact .inr ⟨rfl, Option.some.inj (h.symm.trans List.getElem?_concat_length)⟩

theorem linked_addGroup {ref : Reference} (h : ref.Linked) {g : Group} (hg : g.IsRead) :
    (ref.addGroup g).Linked := by
  have hold : ∀ {i : Nat} {g' : Group}, ref.groups[i]? = some g' →
      (ref.addGroup g).groups[i]? = some g' := fun hi =>
    (List.getElem?_append_left (List.getElem?_eq_some_iff.mp hi).1).trans hi
  have hnew : (ref.addGroup g).groups[ref.groups.length]? = some g := List.getElem?_concat_length
  have hpages := ref.find?_addGroup fun page hpage => hg.mem_pagesFor hpage
  refine ⟨?_, ?_, ?_⟩
  · intro g' hg'
    rcases List.mem_append.mp hg' with hg' | hg'
    · exact h.groups g' hg'
    · obtain rfl := List.mem_singleton.mp hg'
      exact hg
  · intro i g' page hi hpage
    obtain ⟨hfound, hother⟩ := hpages page.1
    rcases getElem?_concat hi with hi' | ⟨rfl, rfl⟩
    · by_cases hadded : ∃ kind, (page.1, kind) ∈ g.pages
      · -- the new group takes the path over
        obtain ⟨kind, hadded⟩ := hadded
        have hkind : kind = page.2 := kind_eq_of_path (hg.mem_pagesFor hadded)
          ((h.groups g' (List.mem_of_getElem? hi')).mem_pagesFor hpage)
        obtain rfl := hkind
        have hlt := (List.getElem?_eq_some_iff.mp hi').1
        exact ⟨_, g, Nat.le_of_lt hlt, hnew, hadded, hfound _ hadded⟩
      · obtain ⟨j, shown, hij, hj, hshown, hfind⟩ := h.table i g' page hi' hpage
        exact ⟨j, shown, hij, hold hj, hshown, (hother fun kind hk => hadded ⟨kind, hk⟩).trans hfind⟩
    · exact ⟨_, g', Nat.le_refl _, hnew, hpage, hfound _ hpage⟩
  · intro entry hentry
    have hentry' : entry ∈ ref.symbols ∨ g.pages ≠ [] ∧
        entry ∈ Registry.registerGroup ref.options.members ref.symbols g := by
      simp only [addGroup] at hentry
      split at hentry
      · exact .inl hentry
      · rename_i hne
        exact .inr ⟨by simpa using hne, hentry⟩
    have hkeep : ∀ entry ∈ ref.symbols, ∃ (i : Nat) (g' : Group) (slug : String),
        (ref.addGroup g).groups[i]? = some g' ∧ (entry.2.page, .listing slug) ∈ g'.pages ∧
          HasAnchor (ref.sectionPage g' slug) entry.2.anchor := fun entry hentry =>
      have ⟨i, g', slug, hi, hpage, hanchor⟩ := h.symbols entry hentry
      ⟨i, g', slug, hold hi, hpage, hanchor⟩
    rcases hentry' with hentry | ⟨hne, hentry⟩
    · exact hkeep entry hentry
    · rcases Registry.mem_registerGroup ref.style hentry with
        hentry | ⟨s, hs, l, hl, hpath, hanchor⟩
      · exact hkeep entry hentry
      · refine ⟨_, g, s.1, hnew, ?_, hasAnchor_sectionPage ref hs hl hanchor⟩
        rw [hpath, hg.resolve_left hne]
        exact Group.listing_mem_pagesFor hs hl

/-! ## Builds -/

theorem linked_nil (ref : Reference) :
    ({ ref with groups := [], pages := [], symbols := [], placeholders := [] } : Reference).Linked :=
  ⟨nofun, fun _ _ _ hi => absurd hi (Option.some_ne_none _).symm, nofun⟩

theorem isRead_scanGroup {store store' : Store} {g g' : Group} {messages : List Message}
    (h : scanGroup store g = .ok (g', store', messages)) : g'.IsRead := by
  simp only [scanGroup, bind, Except.bind] at h
  split at h
  · cases h
  · split at h
    · cases h
      exact .inl rfl
    · split at h
      · cases h
      · cases h
        exact .inr rfl

theorem linked_build (ref : Reference) (store : Store) : (ref.build store).ref.Linked :=
  invariant_build (P := Linked) (linked_nil ref)
    (fun _ _ _ _ hread h => linked_addGroup h (isRead_scanGroup hread))
    (fun _ _ h => ⟨h.groups, h.table, h.symbols⟩) store

/-- Two directories of the same name, whose groups have their pages in the same place. -/
def sameName : Store :=
  { entries := [(["a"], .directory), (["a", "src"], .directory),
      (["a", "src", "x.h"], .file (Text.Utf8.encode "int f(void); int g(void);".toList)),
      (["b"], .directory), (["b", "src"], .directory),
      (["b", "src", "x.h"], .file (Text.Utf8.encode "int g(void);".toList))] }

def siteOf (sources : List String) : Reference :=
  (build { options := { sources := sources.map .text }, surroundings := {} } sameName).ref

/-- The function `f` is registered for a page. -/
def LinksToF (site : Reference) (symbol : Symbol) : Prop :=
  (some "f", symbol) ∈ site.symbols ∧ symbol.page = "api/src/functions.md" ∧
    symbol.anchor = "func-f"

theorem exists_linksToF {site : Reference}
    (h : (site.symbols.any fun entry => entry.1 == some "f" &&
      entry.2.page == "api/src/functions.md" && entry.2.anchor == "func-f") = true) :
    ∃ symbol, site.LinksToF symbol := by
  obtain ⟨⟨name, symbol⟩, hmem, hfacts⟩ := List.any_eq_true.mp h
  simp only [Bool.and_eq_true, beq_iff_eq] at hfacts
  obtain ⟨⟨rfl, hpage⟩, hanchor⟩ := hfacts
  exact ⟨symbol, hmem, hpage, hanchor⟩

end Reference

end HeaderDocs.Site
