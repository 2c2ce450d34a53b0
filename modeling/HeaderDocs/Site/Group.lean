import HeaderDocs.Files.PathName
import HeaderDocs.Reference.Section
import HeaderDocs.Site.Options
import HeaderDocs.Text.Space

/-!
# Source groups

A group is a directory of sources with the pages made from it. The options name one directory, or a
list of groups that may have options of their own; an item of that list without a directory is
skipped.
-/
namespace HeaderDocs.Site

open HeaderDocs.Text

inductive PageKind where
  /-- The list of all symbols of a group. -/
  | overview
  /-- A section, by the name of its page. -/
  | listing (slug : String)
deriving DecidableEq, Repr

def PageKind.slug : PageKind → String
  | overview => "__INDEX__"
  | listing slug => slug

structure Group where
  root : String
  navTitle : Setting
  outputDir : Setting
  extensions : Setting
  exclude : Setting
  /-- Where the tree is kept; nothing if the settings say so. -/
  treeFile : Option String := some ""
  /-- The sources that were found, relative to the root. -/
  discovered : List String := []
  tree : Node := .empty
  /-- The pages of the group, by their path in the site. -/
  pages : List (String × PageKind) := []

/-- Why a site cannot be built. -/
inductive BuildError where
  /-- A saved tree is not UTF-8. -/
  | notText
  /-- A value has a type that cannot be used at all. -/
  | wrongType
  /-- A value lacks what a text has. -/
  | notAText
deriving DecidableEq, Repr

/-- A path name of the settings, which are relative to the directory they are kept in. -/
def settingPath (directory path : String) : String :=
  if path.isEmpty || PathName.isAbsolute path then path
  else PathName.normalize (PathName.join directory path)

/-- A path name of a group, from a value of the settings that should be a text. Other values are no
path names, but count as none if they are void. -/
def pathSetting (directory : String) : Setting → Except BuildError (Option String)
  | .text path => .ok (some (settingPath directory path))
  | setting => if setting.isVoid then .ok none else .error .wrongType

/-- The name of a directory, whatever slashes its path name ends in. -/
def directoryName (root : String) : String :=
  PathName.baseName (onChars (dropEndWhile (· == '/')) root)

/-- The group that the options name if they hold no list of groups. -/
def singleGroup (options : Options) (directory : String) : Group :=
  { root := settingPath directory (if options.sourceRoot.isEmpty then "." else options.sourceRoot)
    navTitle := .text options.navTitle
    outputDir := .text options.outputDir
    extensions := .list options.extensions
    exclude := .list options.exclude
    treeFile := some (settingPath directory options.treeFile) }

/-- The group of an item of the list of groups, with the setting for its directory. -/
def groupOf (options : Options) (directory : String) (root item : Setting) :
    Except BuildError Group := do
  let some root ← pathSetting directory root | .error .notAText
  let name := directoryName root
  let name := if name.isEmpty then "src" else name
  let treeFile ← pathSetting directory ((item.field? "tree_file").getD (.text ""))
  return {
    root, treeFile
    navTitle := (item.field? "nav_title").getD (.text ("API (" ++ name ++ ")"))
    outputDir := (item.field? "output_dir").getD (.text (options.outputDir ++ "/" ++ name))
    extensions := (item.field? "extensions").getD (.list options.extensions)
    exclude := (item.field? "exclude").getD (.list options.exclude) }

/-- The groups of a list, and the positions of the items that are none. -/
def groupsOf (options : Options) (directory : String) :
    Nat → List Setting → Except BuildError (List Group × List Nat)
  | _, [] => .ok ([], [])
  | i, item :: items => do
    let item := match item with
      | .text root => .table [("root", .text root)]
      | item => item
    match item.field? "root" with
    | some root =>
      let group ← groupOf options directory root item
      let (groups, skipped) ← groupsOf options directory (i + 1) items
      return (group :: groups, skipped)
    | none =>
      let (groups, skipped) ← groupsOf options directory (i + 1) items
      return (groups, i :: skipped)

namespace Group

/-- The path of the page of a section in the site. -/
def pagePath (g : Group) (slug : String) : String := g.outputDir ++ "/" ++ slug ++ ".md"

/-- The pages for a tree: one for each section that is not empty, and an overview if there is any.
-/
def pagesFor (g : Group) (tree : Node) : List (String × PageKind) :=
  let pages := sections.filterMap fun (slug, kind, _) =>
    if (Located.publicNodes tree kind).isEmpty then none
    else some (g.pagePath slug, PageKind.listing slug)
  if pages.isEmpty then [] else pages ++ [(g.pagePath "index", .overview)]

/-- The entries of the group in the navigation of the site. -/
def navItems (g : Group) : Setting :=
  let pages := sections.filterMap fun (slug, _, title) =>
    if g.pages.any (·.1 == g.pagePath slug) then
      some (.table [(title, .text (g.pagePath slug))])
    else none
  .list (.table [("Overview", .text (g.pagePath "index"))] :: pages)

end Group

end HeaderDocs.Site
