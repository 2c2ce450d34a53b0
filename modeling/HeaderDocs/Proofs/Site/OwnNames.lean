import HeaderDocs.Proofs.Files.Trees
import HeaderDocs.Proofs.Site.Links

/-!
# The names that lead to a symbol

A group registers its nodes one after the other, each under several names, and the first that is
registered under a name keeps it. So what a name leads to is the first registration that has it: the
full name of a node may be taken by the short name of a member that comes before it.

* `registerGroup_eq`: registering a group is making its registrations in order.
* `find?_enterAll`: the first registration that has a name is found.
* `Reference.ownName_resolves`: the full name of a node leads to it unless it has been taken.
-/
namespace HeaderDocs.Site

/-- A node, the names it is registered under in this order, and what is registered. -/
structure Registration where
  node : Located
  names : List (Option String)
  symbol : Symbol

namespace Registration

/-- The registration of a node that is listed in a section. -/
def ofNode (page : String) (groupTitle : Setting) (l : Located) : Registration where
  node := l
  names := [l.node.name, some l.qualifiedName]
  symbol := { name := l.node.name, kind := l.node.kind, page, anchor := l.anchor, groupTitle }

def ofMember (page : String) (groupTitle : Setting) (owner l : Located) : Registration where
  node := l
  names := [some l.qualifiedName, some (owner.node.shownName ++ "." ++ l.node.shownName),
    l.node.name]
  symbol :=
    { name := l.node.name
      kind := l.node.kind
      page
      anchor := if l.node.kind == .constant then owner.anchor else l.anchor
      groupTitle }

def hasName (e : Registration) (name : String) : Bool := e.names.contains (some name)

/-- The address of what is registered, from the top of the site. -/
def address (e : Registration) : String := e.symbol.page ++ "#" ++ e.symbol.anchor

end Registration

namespace Registry

open Registration

variable {r : Registry} {name : String}

def enter (r : Registry) (e : Registration) : Registry :=
  e.names.foldl (fun r name => r.register name e.symbol) r

def nodeRegistrations (members : Bool) (page : String) (groupTitle : Setting) (l : Located) :
    List Registration :=
  ofNode page groupTitle l :: (membersOf members l).map (ofMember page groupTitle l)

def registrations (members : Bool) (g : Group) : List Registration :=
  sections.flatMap fun (slug, kind, _) =>
    (Located.publicNodes g.tree kind).flatMap
      (nodeRegistrations members (g.pagePath slug) g.navTitle)

theorem registerNode_eq (members : Bool) (page : String) (groupTitle : Setting) (r : Registry)
    (l : Located) : registerNode members page groupTitle r l =
      (nodeRegistrations members page groupTitle l).foldl enter r := by
  unfold registerNode nodeRegistrations
  rw [List.foldl_cons, List.foldl_map]
  rfl

theorem registerGroup_eq (members : Bool) (r : Registry) (g : Group) :
    registerGroup members r g = (registrations members g).foldl enter r := by
  unfold registerGroup registrations
  rw [List.foldl_flatMap]
  congr 1
  funext r s
  dsimp only
  rw [List.foldl_flatMap]
  congr 1
  funext r l
  exact registerNode_eq ..

theorem find?_register (r : Registry) (key : Option String) (symbol : Symbol) (name : String) :
    (r.register key symbol).find? name =
      (r.find? name).or (if key = some name then some symbol else none) := by
  unfold register
  split
  · rename_i hany
    split
    · -- the name is taken, so that there is something under it
      rename_i hkey
      obtain ⟨entry, hentry, hname⟩ := List.any_eq_true.mp hany
      have hsome : (List.find? (·.1 == some name) r).isSome = true :=
        List.find?_isSome.mpr ⟨entry, hentry, hkey ▸ hname⟩
      obtain ⟨found, hfound⟩ := Option.isSome_iff_exists.mp hsome
      simp [find?, hfound]
    · simp
  · unfold find?
    rw [List.find?_append]
    by_cases hkey : key = some name
    · cases List.find? (·.1 == some name) r <;> simp [hkey]
    · cases List.find? (·.1 == some name) r <;> simp [hkey]

/-- Of the names of a registration, only those that are free are given to it. -/
theorem find?_enter (r : Registry) (e : Registration) (name : String) :
    (r.enter e).find? name = (r.find? name).or (if e.hasName name then some e.symbol else none) := by
  have hnames : ∀ names : List (Option String),
      (names.foldl (fun r name => r.register name e.symbol) r).find? name =
        (r.find? name).or (if names.contains (some name) then some e.symbol else none) := by
    intro names
    induction names generalizing r with
    | nil => simp
    | cons key names ih =>
      rw [List.foldl_cons, ih, find?_register, Option.or_assoc]
      congr 1
      by_cases hkey : key = some name
      · simp [hkey]
      · simp [hkey, Ne.symm hkey]
  exact hnames e.names

/-- The first registration that has a name is found, unless the name was taken before. -/
theorem find?_enterAll (r : Registry) (es : List Registration) (name : String) :
    (es.foldl enter r).find? name =
      (r.find? name).or ((es.find? (·.hasName name)).map (·.symbol)) := by
  induction es generalizing r with
  | nil => simp
  | cons e es ih =>
    rw [List.foldl_cons, ih, find?_enter, Option.or_assoc, List.find?_cons]
    cases e.hasName name <;> rfl

end Registry

/-! ## Sites with one group -/

namespace Reference

open HeaderDocs.Text Registry

variable {ref : Reference} {store : Store} {g : Group}

/-- The symbols are those of the groups that have pages, in their order. -/
def Indexed (ref : Reference) : Prop :=
  ref.symbols = ref.groups.foldl (fun r g =>
    if g.pages.isEmpty then r else registerGroup ref.options.members r g) []

theorem indexed_addGroup (h : ref.Indexed) (g : Group) : (ref.addGroup g).Indexed := by
  unfold Indexed addGroup at *
  rw [List.foldl_append, ← h]
  rfl

theorem indexed_build (ref : Reference) (store : Store) : (ref.build store).ref.Indexed :=
  invariant_build (P := Indexed) rfl (fun _ _ _ _ _ h => indexed_addGroup h _) (fun _ _ h => h) store

theorem registrations_eq_nil {members : Bool} (h : g.pagesFor g.tree = []) :
    registrations members g = [] := by
  refine List.flatMap_eq_nil_iff.mpr fun s hs => ?_
  have hnone : Located.publicNodes g.tree s.2.1 = [] := by
    refine List.eq_nil_iff_forall_not_mem.mpr fun l hl => ?_
    have hpage := Group.listing_mem_pagesFor (g := g) hs hl
    rw [h] at hpage
    cases hpage
  dsimp only
  rw [hnone]
  rfl

/-- What is found under a name in a site with one group, whose directory is there. -/
theorem find?_symbols_of_build (hgroup : (ref.build store).ref.groups = [g])
    (hroot : store.isDirectory g.root = true) (name : String) :
    (ref.build store).ref.symbols.find? name =
      ((registrations ref.options.members g).find? (·.hasName name)).map (·.symbol) := by
  have hoptions : (ref.build store).ref.options = ref.options :=
    invariant_build (P := fun built => built.options = ref.options) rfl (fun _ _ _ _ _ h => h)
      (fun _ _ h => h) store
  obtain ⟨unread, more, hread⟩ := exists_scanGroup_of_build hgroup
  have hpages := pages_of_scanGroup hread hroot
  rw [indexed_build ref store, hgroup, hoptions, List.foldl_cons, List.foldl_nil]
  split
  · rename_i hnone
    rw [registrations_eq_nil (hpages ▸ List.isEmpty_iff.mp hnone)]
    rfl
  · rw [registerGroup_eq, find?_enterAll]
    rfl

/-- In a site with one group, whose directory is there, a name leads to what has been registered
under it first. So the full name of a listed node, or of a function or variable that is listed with
it, leads to it, if the name is looked up as it is and none that is registered before has it. -/
theorem ownName_resolves (hgroup : (ref.build store).ref.groups = [g])
    (hroot : store.isDirectory g.root = true) :
    let lk := (ref.build store).ref.linker store
    let members := ref.options.members
    (∀ name, lk.resolve name none = ((registrations members g).find?
      (·.hasName (Linker.lookupName name))).map (·.address)) ∧
    ∀ s ∈ sections, ∀ l ∈ Located.publicNodes g.tree s.2.1, ∀ n : Located,
      (n = l ∨ n ∈ membersOf members l ∧ n.node.kind ≠ .constant) →
      ∃ e ∈ registrations members g, e.node = n ∧ e.hasName n.qualifiedName = true ∧
        (Linker.lookupName n.qualifiedName = n.qualifiedName →
          ∀ before after, registrations members g = before ++ e :: after →
            (∀ earlier ∈ before, earlier.hasName n.qualifiedName = false) →
              lk.resolve n.qualifiedName none = some (g.pagePath s.1 ++ "#" ++ n.anchor)) := by
  intro lk members
  have hresolve : ∀ name, lk.resolve name none = ((registrations members g).find?
      (·.hasName (Linker.lookupName name))).map (·.address) := by
    intro name
    have hfind : lk.symbols.find? (Linker.lookupName name) = _ :=
      find?_symbols_of_build hgroup hroot (Linker.lookupName name)
    unfold Linker.resolve
    rw [hfind]
    cases (registrations ref.options.members g).find? (·.hasName (Linker.lookupName name)) <;> rfl
  refine ⟨hresolve, fun s hs l hl n hn => ?_⟩
  obtain ⟨e, he, hnode, hname, haddress⟩ : ∃ e ∈ nodeRegistrations members (g.pagePath s.1)
      g.navTitle l, e.node = n ∧ e.hasName n.qualifiedName = true ∧
        e.address = g.pagePath s.1 ++ "#" ++ n.anchor := by
    rcases hn with rfl | ⟨hmember, hkind⟩
    · exact ⟨_, List.mem_cons_self .., rfl, by simp [Registration.hasName, Registration.ofNode], rfl⟩
    · refine ⟨_, List.mem_cons_of_mem _ (List.mem_map_of_mem hmember), rfl,
        by simp [Registration.hasName, Registration.ofMember], ?_⟩
      simp [Registration.address, Registration.ofMember, hkind]
  refine ⟨e, List.mem_flatMap.mpr ⟨s, hs, List.mem_flatMap.mpr ⟨l, hl, he⟩⟩, hnode, hname, ?_⟩
  intro hlookup before after hsplit hfree
  rw [hresolve, hlookup, hsplit, List.find?_append,
    List.find?_eq_none.mpr fun earlier hearlier => by simp [hfree earlier hearlier],
    List.find?_cons, hname]
  exact congrArg some haddress

def oneHeader (text : String) : Store :=
  { entries := [(["src"], .directory), (["src", "a.h"], .file (Utf8.encode text.toList))] }

/-- A member and a function of the same name, and a variable whose name ends like a call. -/
def sharedName : Store := oneHeader
  "/** s */ struct S \x7b /** m */ int f; \x7d;\n/** g */ int f(void);\n/** d */ int (*cb)();"

def keptTree : Node := Scan.scan "/** g */ int f(void);" .empty

/-- The file in which that tree is kept, without a directory of sources. -/
def keptOnly : Store :=
  { entries := [(["d.xml"], .file (Utf8.encode keptTree.toXml.toList))] }

def sourceSite : Reference :=
  { options := { sourceRoot := "src", treeFile := "d.xml" }, surroundings := {} }

theorem exists_single {groups : List Group} {f : Group → Bool}
    (h : (groups.length == 1 && groups.all f) = true) : ∃ g, groups = [g] ∧ f g = true := by
  obtain ⟨hlength, hall⟩ := Bool.and_eq_true_iff.mp h
  obtain ⟨g, rfl⟩ := List.length_eq_one_iff.mp (by simpa using hlength)
  exact ⟨g, rfl, by simpa using hall⟩

/-- The full name of the member leads to it. -/
theorem ownName_resolves_member :
    let lk := (sourceSite.build sharedName).ref.linker sharedName
    ∃ g, (sourceSite.build sharedName).ref.groups = [g] ∧
      sharedName.isDirectory g.root = true ∧
      ∃ l ∈ Located.publicNodes g.tree .structType, ∃ m ∈ membersOf true l,
        m.qualifiedName = "S::f" ∧
        lk.resolve m.qualifiedName none = some (g.pagePath "structures" ++ "#" ++ m.anchor) := by
  intro lk
  obtain ⟨g, hg, hfacts⟩ := @exists_single (sourceSite.build sharedName).ref.groups
    (fun g => sharedName.isDirectory g.root &&
      ((registrations true g).filter (·.hasName "S::f")).length == 1 &&
      (Located.publicNodes g.tree .structType).any fun l => (membersOf true l).any fun m =>
        m.qualifiedName == "S::f" && m.node.kind != .constant) (by decide +kernel)
  simp only [Bool.and_eq_true, List.any_eq_true, beq_iff_eq, bne_iff_ne] at hfacts
  obtain ⟨⟨hroot, hcount⟩, l, hl, m, hm, hname, hkind⟩ := hfacts
  obtain ⟨e, he, -, hown, hleads⟩ := (ownName_resolves hg hroot).2
    ("structures", .structType, "Structures") (by decide +kernel) l hl m (.inr ⟨hm, hkind⟩)
  refine ⟨g, hg, hroot, l, hl, m, hm, hname, ?_⟩
  obtain ⟨before, after, hsplit⟩ := List.append_of_mem he
  refine hleads (by rw [hname]; decide +kernel) before after hsplit ?_
  -- no other registration has the name, so none before has
  rw [hname] at hown ⊢
  change registrations true g = _ at hsplit
  rw [hsplit, List.filter_append, List.filter_cons, if_pos hown, List.length_append,
    List.length_cons] at hcount
  have hnone : before.filter (·.hasName "S::f") = [] := List.length_eq_zero_iff.mp (by omega)
  exact fun earlier hearlier => by simpa using List.filter_eq_nil_iff.mp hnone earlier hearlier

/-- Without its directory, a group has the tree that was kept, but no pages. -/
theorem groups_keptOnly : ∃ g, (sourceSite.build keptOnly).ref.groups = [g] ∧ g.pages = [] ∧
    g.tree = keptTree.canon := by
  have hinitial : initialGroups keptOnly sourceSite =
      .ok ([singleGroup sourceSite.options "/"], []) := by
    unfold initialGroups
    dsimp only
    rw [show (PathName.dirName sourceSite.surroundings.settingsFile).isEmpty = true by decide +kernel,
      if_pos rfl, show cwdName keptOnly = "/" by decide +kernel]
    rfl
  have hload : keptOnly.loadTree "/d.xml" = .ok keptTree.canon :=
    Store.loadTree_of_read (by decide +kernel) rfl
  have hstart : ∃ said, startingTree keptOnly (singleGroup sourceSite.options "/") =
      .ok (keptTree.canon, said) := by
    unfold startingTree
    rw [show (singleGroup sourceSite.options "/").treeFile = some "/d.xml" by decide +kernel]
    dsimp only
    rw [show ("/d.xml".isEmpty || !keptOnly.isFile "/d.xml") = false by decide +kernel, hload]
    exact ⟨_, rfl⟩
  obtain ⟨said, hsaid⟩ := hstart
  have hmissing : keptOnly.isDirectory (singleGroup sourceSite.options "/").root = false := by
    decide +kernel
  rw [build_eq, hinitial]
  dsimp only
  simp only [scanGroups, scanGroup, bind, Except.bind, hsaid, hmissing, Bool.not_false, if_true,
    pure, Except.pure, finish]
  exact ⟨_, rfl, rfl, rfl⟩

/-- The function has a name that no other node has, but that leads to the member; the variable cannot
be looked up; and nothing is registered without the directory of the sources. -/
theorem ownName_resolves_taken :
    (let lk := (sourceSite.build sharedName).ref.linker sharedName
      ∃ g, (sourceSite.build sharedName).ref.groups = [g] ∧
        ((registrations true g).filter (·.node.qualifiedName == "f")).length = 1 ∧
        (∃ l ∈ Located.publicNodes g.tree .function, l.qualifiedName = "f" ∧
          lk.resolve l.qualifiedName none = some "api/structures.md#var-S.f" ∧
          g.pagePath "functions" ++ "#" ++ l.anchor = "api/functions.md#func-f") ∧
        ((registrations true g).filter (·.node.qualifiedName == "(*cb)()")).length = 1 ∧
        ∃ l ∈ Located.publicNodes g.tree .var, l.qualifiedName = "(*cb)()" ∧
          lk.resolve l.qualifiedName none = none) ∧
      let lk := (sourceSite.build keptOnly).ref.linker keptOnly
      ∃ g, (sourceSite.build keptOnly).ref.groups = [g] ∧
        ∃ l ∈ Located.publicNodes g.tree .function, l.qualifiedName = "f" ∧
          lk.resolve l.qualifiedName none = none := by
  constructor
  · obtain ⟨g, hg, hfacts⟩ := @exists_single (sourceSite.build sharedName).ref.groups
      (fun g =>
        let lk := (sourceSite.build sharedName).ref.linker sharedName
        ((registrations true g).filter (·.node.qualifiedName == "f")).length == 1 &&
        ((Located.publicNodes g.tree .function).any fun l => l.qualifiedName == "f" &&
          lk.resolve l.qualifiedName none == some "api/structures.md#var-S.f" &&
          g.pagePath "functions" ++ "#" ++ l.anchor == "api/functions.md#func-f") &&
        ((registrations true g).filter (·.node.qualifiedName == "(*cb)()")).length == 1 &&
        (Located.publicNodes g.tree .var).any fun l => l.qualifiedName == "(*cb)()" &&
          lk.resolve l.qualifiedName none == none) (by decide +kernel)
    simp only [Bool.and_eq_true, List.any_eq_true, beq_iff_eq, and_assoc] at hfacts
    exact ⟨g, hg, hfacts⟩
  · obtain ⟨g, hg, hpages, htree⟩ := groups_keptOnly
    have hsymbols : (sourceSite.build keptOnly).ref.symbols = [] := by
      rw [indexed_build sourceSite keptOnly, hg, List.foldl_cons, hpages]
      rfl
    have hnode : ((Located.publicNodes keptTree.canon .function).any fun l =>
        l.qualifiedName == "f") = true := by decide +kernel
    obtain ⟨l, hl, hname⟩ := List.any_eq_true.mp hnode
    refine ⟨g, hg, l, htree ▸ hl, eq_of_beq hname, ?_⟩
    unfold Linker.resolve linker
    rw [hsymbols]
    rfl

end Reference

end HeaderDocs.Site
