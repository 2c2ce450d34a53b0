import HeaderDocs.Site.Build
import HeaderDocs.Site.Directive
import HeaderDocs.Text.Integer
import HeaderDocs.Text.Quoted

/-!
# Pages

The text of a page: an overview or a section if the page is generated, and the text that an author
wrote with its directives replaced otherwise. Either way names are linked.
-/
namespace HeaderDocs.Site

open HeaderDocs.Text

namespace Reference

/-- How entries are written on the pages of the site. -/
def style (ref : Reference) : EntryStyle :=
  { headingLevel := ref.options.headingLevel
    members := ref.options.members
    language := ref.options.language }

/-! ## Generated pages -/

def overviewRow (slug : String) (l : Located) : String :=
  let summary := onChars (replace ['|'] ['\\', '|']) l.node.summaryLine
  let address := slug ++ ".md#" ++ l.anchor
  "| [" ++ codeWord l.node.shownName ++ "](" ++ address ++ ") | " ++ summary ++ " |"

/-- The list of all symbols of a group. -/
def overview (g : Group) : String :=
  let counts := sections.map fun (_, kind, _) => (Located.publicNodes g.tree kind).length
  let files := g.discovered.length
  let tables := sections.flatMap fun (slug, kind, title) =>
    let nodes := Located.publicNodes g.tree kind
    if nodes.isEmpty then []
    else
      ["## [" ++ title ++ "](" ++ slug ++ ".md)", "", "| Name | Description |", "|---|---|"] ++
        nodes.map (overviewRow slug) ++ [""]
  String.intercalate "\n" <|
    ["# " ++ g.navTitle, "",
      "This reference covers " ++ toString (counts.foldl (· + ·) 0) ++ " documented symbols from " ++
        toString files ++ " source " ++ (if files == 1 then "file" else "files") ++ ".", ""] ++
      tables

def sectionPage (ref : Reference) (g : Group) (slug : String) : String :=
  match sections.find? (·.1 == slug) with
  | some (_, kind, title) => "# " ++ title ++ "\n\n" ++ sectionText g.tree kind ref.style ""
  | none => "<!-- apitree: unknown section '" ++ slug ++ "' -->\n"

/-! ## Directives -/

/-- The group with a title, or whose directory has the name. -/
def findGroup? (ref : Reference) (name : String) : Option Group :=
  ref.groups.find? fun g => g.navTitle.text? == some name || name == directoryName g.root

/-- The style that the options of a directive ask for, and a warning if a level is no number. -/
def directiveStyle (ref : Reference) (d : Directive) (source : Option String) :
    EntryStyle × List Message :=
  let style := ref.style
  let (style, messages) : EntryStyle × List Message := match d.option? "heading_level" with
    | none => (style, [])
    | some text =>
      match integer? text.toList with
      | some level => ({ style with headingLevel := level }, [])
      | none =>
        let place := source.getD "None"
        (style, [⟨.warning, "apitree: bad :heading_level: " ++ quoted text ++ " on " ++ place⟩])
  match d.option? "members" with
  | some text => ({ style with members := ["true", "yes", "1"].contains (lowered text) }, messages)
  | none => (style, messages)

/-- The sections of groups, under a title of any level if one is asked for. -/
def documentText (groups : List Group) (style : EntryStyle) (title : String) : String :=
  let head :=
    if title.isEmpty then []
    else
      let marks := List.replicate (max 1 (style.headingLevel - 1)).toNat '#'
      [String.ofList marks ++ " " ++ title, ""]
  let body := groups.flatMap fun g => sections.flatMap fun (_, kind, _) =>
    if (Located.publicNodes g.tree kind).isEmpty then []
    else [sectionText g.tree kind style "", ""]
  String.intercalate "\n" (head ++ body)

/-- The entry of a symbol in the first group that has it; the last group says if there is none. -/
def symbolText (kind : Kind) (name : String) (style : EntryStyle) : List Group → String
  | [] => ""
  | [g] => singleEntry g.tree name (some kind) style
  | g :: gs =>
    if (findShown? g.tree name (some kind)).isSome then singleEntry g.tree name (some kind) style
    else symbolText kind name style gs

def directiveGroups (ref : Reference) (d : Directive) : Except String (List Group) :=
  match d.option? "group" with
  | some name =>
    match ref.findGroup? name with
    | some g => .ok [g]
    | none => .error ("<!-- apitree: unknown group '" ++ name ++ "' -->\n")
  | none =>
    if ref.groups.isEmpty then
      .error ("<!-- apitree: no sources configured for apitree:" ++ d.word ++ " -->\n")
    else .ok ref.groups

/-- What stands in the place of a directive on the page that is made from a source. -/
def directiveText (ref : Reference) (source : Option String) (d : Directive) :
    String × List Message :=
  match ref.directiveGroups d with
  | .error text => (text, [])
  | .ok groups =>
    let (style, messages) := ref.directiveStyle d source
    let text := match d.kind with
      | .document => documentText groups style ((d.option? "title").getD "")
      | .symbol kind =>
        let name := (d.option? "name").getD ""
        if name.isEmpty then "<!-- apitree: missing :name: for apitree:" ++ d.word ++ " -->\n"
        else symbolText kind name style groups
    (text, messages)

/-! ## Pages -/

def directivesFrom : (lineStart : Bool) → (skip : Nat) → List Char → List Directive
  | _, _, [] => []
  | _, skip + 1, c :: cs => directivesFrom (c == '\n') skip cs
  | lineStart, 0, c :: cs =>
    match if lineStart then Directive.directiveAt? (c :: cs) else none with
    | some (d, length) => d :: directivesFrom (c == '\n') (length - 1) cs
    | none => directivesFrom (c == '\n') 0 cs

/-- The text of the page with a path before names are linked, and what there is to say about it. The
source of the page is named in warnings. A page without a path is none of those that are generated.
-/
def pageText (ref : Reference) (path source : Option String) (markdown : String) :
    String × List Message :=
  match ref.pages.find? (some ·.1 == path) with
  | some (_, kind, i) =>
    match ref.groups[i]? with
    | some g =>
      match kind with
      | .overview => (overview g, [])
      | .listing slug => (ref.sectionPage g slug, [])
    | none => ("", [])
  | none =>
    let replaced := Directive.replaceAll (fun d => (ref.directiveText source d).1.toList)
      markdown.toList
    let messages := (directivesFrom true 0 markdown.toList).flatMap fun d =>
      (ref.directiveText source d).2
    (String.ofList replaced, messages)

/-- The text of a page, and what there is to say about it. -/
def page (ref : Reference) (store : Store) (path source : Option String) (markdown : String) :
    String × List Message :=
  let (text, messages) := ref.pageText path source markdown
  ((ref.linker store).linkPage ref.options.autoLink path text, messages)

end Reference

end HeaderDocs.Site
