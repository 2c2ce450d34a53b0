import HeaderDocs.Files.Sources
import HeaderDocs.Files.Trees
import HeaderDocs.Site.Link

/-!
# Building the reference of a site

`build` reads the sources of all groups into their trees, registers the symbols, and adds the pages
to the navigation of the site. Nothing is kept from an earlier build but the navigation, in which
the entry of the reference is replaced.
-/
namespace HeaderDocs.Site

open HeaderDocs.Text

inductive Level where
  | info
  | warning
  | error
deriving DecidableEq, Repr

/-- Something to tell the authors of the site. -/
structure Message where
  level : Level
  text : String
deriving DecidableEq, Repr

/-- What the reference needs to know of the site. -/
structure Surroundings where
  nav : Option (List Setting) := none
  /-- The path name of the settings. -/
  settingsFile : String := ""
  /-- Whether pages are served from directories. -/
  directories : Bool := true

/-- The reference of a site. -/
structure Reference where
  options : Options
  surroundings : Surroundings
  groups : List Group := []
  /-- The generated pages by their path, with the position of their group. -/
  pages : List (String × PageKind × Nat) := []
  symbols : Registry := []
  /-- Files that stand in for generated pages until the site is built. -/
  placeholders : List String := []

namespace Reference

/-- The path name of the working directory. -/
def cwdName (store : Store) : String := "/" ++ String.intercalate "/" store.cwd

/-! ## Groups -/

/-- The groups of the site, with what there is to say about items that are none. -/
def initialGroups (store : Store) (ref : Reference) :
    Except BuildError (List Group × List Message) := do
  let directory := PathName.dirName ref.surroundings.settingsFile
  let directory := if directory.isEmpty then cwdName store else directory
  if ref.options.sources.isEmpty then return ([singleGroup ref.options directory], [])
  else
    let (groups, skipped) ← groupsOf ref.options directory 0 ref.options.sources
    return (groups, skipped.map fun i =>
      ⟨.error, "apitree: sources[" ++ toString i ++ "] has no root, skipping"⟩)

/-- The tree that a group starts from: the one that is kept, if it can be loaded. -/
def startingTree (store : Store) (g : Group) : Except BuildError (Node × List Message) :=
  match g.treeFile with
  | none => .ok (.empty, [])
  | some path =>
    if path.isEmpty || !store.isFile path then .ok (.empty, [])
    else
      match store.loadTree path with
      | .ok tree =>
        .ok (tree, [⟨.info, "apitree: [" ++ g.navTitle ++ "] merging into " ++ path⟩])
      | .error e =>
        match e.message? with
        | some message =>
          .ok (.empty, [⟨.error, "apitree: " ++ message ++ ", starting a fresh tree"⟩])
        | none => .error .notText

def scanSources (store : Store) (root : String) : List String → Node → Node × List Message
  | [], tree => (tree, [])
  | path :: paths, tree =>
    let path := PathName.normalize (PathName.join root path)
    match store.scanFile path tree with
    | .ok tree => scanSources store root paths tree
    | .error e =>
      let (tree, messages) := scanSources store root paths tree
      (tree, ⟨.error, "apitree: unable to read " ++ path ++ ": " ++ e.message⟩ :: messages)

/-- Keeps the tree of a group, if it has a file for it. -/
def keepTree (store : Store) (g : Group) (tree : Node) : Store × List Message :=
  match g.treeFile with
  | none => (store, [])
  | some path =>
    if path.isEmpty then (store, [])
    else
      match store.saveTree path tree with
      | (store, none) => (store, [])
      | (store, some e) =>
        (store, [⟨.error, "apitree: unable to write " ++ path ++ ": " ++ e.message⟩])

def extensionsOf (g : Group) : Except BuildError (List String) :=
  match g.extensions.items? with
  | none => .error .wrongType
  | some items =>
    match items.mapM Setting.text? with
    | some extensions => .ok extensions
    | none => .error .notAText

/-- Whether patterns exclude a path name. Patterns are looked at one after the other, up to the
first that matches. -/
def isExcludedBy (path : String) : List Setting → Except BuildError Bool
  | [] => .ok false
  | .text pattern :: patterns =>
    if Store.isMatch path pattern then .ok true else isExcludedBy path patterns
  | _ :: _ => .error .wrongType

/-- The sources of a group. Only files with one of the extensions are held against the patterns. -/
def sourcesOf (store : Store) (g : Group) : Except BuildError (List String) := do
  let extensions ← extensionsOf g
  (store.filesBelow g.root extensions).filterM fun path =>
    match g.exclude.items? with
    | some patterns => (isExcludedBy path patterns).map (!·)
    | none => .error .wrongType

def scanGroup (store : Store) (g : Group) : Except BuildError (Group × Store × List Message) := do
  let (tree, loaded) ← startingTree store g
  let g := { g with discovered := [], pages := [], tree }
  if !store.isDirectory g.root then
    return (g, store, loaded ++ [⟨.error, "apitree: source root missing: " ++ g.root⟩])
  else
    let discovered ← sourcesOf store g
    let found : Message := ⟨.info, "apitree: [" ++ g.navTitle ++ "] " ++
      toString discovered.length ++ " files in " ++ g.root⟩
    let (tree, unread) := scanSources store g.root discovered tree
    let (store, unwritten) := keepTree store g tree
    let g := { g with discovered, tree, pages := g.pagesFor tree }
    return (g, store, loaded ++ [found] ++ unread ++ unwritten)

/-! ## Pages -/

/-- Adds a page. A path that has a page keeps its place among the pages. -/
def addPage (pages : List (String × PageKind × Nat)) (path : String) (kind : PageKind)
    (group : Nat) : List (String × PageKind × Nat) :=
  if pages.any (·.1 == path) then
    pages.map fun page => if page.1 == path then (path, kind, group) else page
  else pages ++ [(path, kind, group)]

def addGroup (ref : Reference) (g : Group) : Reference :=
  let i := ref.groups.length
  { ref with
    groups := ref.groups ++ [g]
    pages := g.pages.foldl (fun pages (path, kind) => addPage pages path kind i) ref.pages
    symbols :=
      if g.pages.isEmpty then ref.symbols
      else Registry.registerGroup ref.options.members ref.symbols g }

/-! ## Navigation -/

/-- Replaces the first entry of the navigation with the given title, or adds one. -/
def placeEntry (title : String) (entry : Setting) : List Setting → List Setting
  | [] => [entry]
  | item :: items =>
    if (item.field? title).isSome then entry :: items else item :: placeEntry title entry items

/-- The entries of groups by their titles, if all of these can be keys. -/
def navEntries? (groups : List Group) : Option (List Setting) :=
  groups.mapM fun g => g.navTitle.key?.map fun title => .table [(title, g.navItems)]

/-- What the entry of the reference holds. There is no entry without pages. -/
def navItems (ref : Reference) : Except BuildError (Option Setting) :=
  match ref.groups.filter (!·.pages.isEmpty) with
  | [] => .ok none
  | g :: groups =>
    if ref.groups.length == 1 then .ok (some g.navItems)
    else
      match navEntries? (g :: groups) with
      | some entries => .ok (some (.list entries))
      | none => .error .wrongType

/-- The navigation with the entry of the reference. -/
def navWith (ref : Reference) : Except BuildError (Option (List Setting)) :=
  let title := ref.options.navTitle
  ref.navItems.map fun
    | some items =>
      some (placeEntry title (.table [(title, items)]) (ref.surroundings.nav.getD []))
    | none => ref.surroundings.nav

/-! ## Builds -/

/-- What a build leads to. -/
structure Outcome where
  ref : Reference
  store : Store
  messages : List Message
  error : Option BuildError := none

/-- Reads groups one after the other, up to the first that cannot be read. -/
def scanGroups (ref : Reference) (store : Store) (messages : List Message) : List Group → Outcome
  | [] => { ref, store, messages }
  | g :: gs =>
    match scanGroup store g with
    | .error e => { ref, store, messages, error := some e }
    | .ok (g, store, more) => scanGroups (ref.addGroup g) store (messages ++ more) gs

/-- Builds the reference anew. -/
def build (ref : Reference) (store : Store) : Outcome :=
  let fresh := { ref with groups := [], pages := [], symbols := [], placeholders := [] }
  match initialGroups store fresh with
  | .error e => { ref := fresh, store, messages := [], error := some e }
  | .ok (groups, messages) =>
    let outcome := scanGroups fresh store messages groups
    match outcome.error with
    | some _ => outcome
    | none =>
      let ref := outcome.ref
      match ref.navWith with
      | .error e => { outcome with error := some e }
      | .ok nav =>
        let count := ref.symbols.length
        let summary : List Message :=
          if count == 0 then []
          else
            [⟨.info, "apitree: symbol registry built, " ++ toString count ++ " symbols indexed"⟩]
        { outcome with
          ref := { ref with surroundings := { ref.surroundings with nav } }
          messages := outcome.messages ++ summary }

def linker (ref : Reference) (store : Store) : Linker :=
  { symbols := ref.symbols
    directories := ref.surroundings.directories
    cwd := cwdName store }

end Reference

end HeaderDocs.Site
