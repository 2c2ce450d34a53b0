import HeaderDocs.Site.Group

/-!
# The symbols of a site

Every public node that a page shows is registered under its name and its qualified name, and members
also under the name of their owner, a dot and their own. The first registration of a name holds, so
names of earlier groups and sections come before those of later ones.
-/
namespace HeaderDocs.Site

/-- Where a symbol is documented. -/
structure Symbol where
  name : Option String
  kind : Kind
  page : String
  anchor : String
  groupTitle : Setting

/-- The symbols of a site by the names they are found under, in the order of registration. A node
without a name is registered as such. -/
abbrev Registry := List (Option String × Symbol)

namespace Registry

/-- What is registered under a name. -/
def find? (r : Registry) (name : String) : Option Symbol :=
  (List.find? (·.1 == some name) r).map (·.2)

/-- Registers a symbol, unless the name is taken. -/
def register (r : Registry) (name : Option String) (symbol : Symbol) : Registry :=
  if r.any (·.1 == name) then r else r ++ [(name, symbol)]

/-- The members of a node that are documented with it. -/
def membersOf (members : Bool) (l : Located) : List Located :=
  let n := l.node
  let nodes :=
    if n.kind == .enumType then n.childrenOf .constant
    else if n.kind.isRecord && members then
      [Kind.function, Kind.var].flatMap fun kind =>
        (n.publicChildren kind none).filter (·.scope != some "private")
    else []
  nodes.map l.child

/-- Registers a member of a node. The constants of an enumeration are documented at its anchor. -/
def registerMember (page : String) (groupTitle : Setting) (owner : Located) (r : Registry)
    (l : Located) : Registry :=
  let symbol : Symbol := {
    name := l.node.name
    kind := l.node.kind
    page
    anchor := if l.node.kind == .constant then owner.anchor else l.anchor
    groupTitle }
  let dotted := owner.node.shownName ++ "." ++ l.node.shownName
  ((r.register (some l.qualifiedName) symbol).register (some dotted) symbol).register
    l.node.name symbol

def registerNode (members : Bool) (page : String) (groupTitle : Setting) (r : Registry)
    (l : Located) : Registry :=
  let symbol : Symbol := {
    name := l.node.name, kind := l.node.kind, page, anchor := l.anchor, groupTitle }
  (membersOf members l).foldl (registerMember page groupTitle l)
    ((r.register l.node.name symbol).register (some l.qualifiedName) symbol)

def registerGroup (members : Bool) (r : Registry) (g : Group) : Registry :=
  sections.foldl (fun r (slug, kind, _) =>
    (Located.publicNodes g.tree kind).foldl
      (registerNode members (g.pagePath slug) g.navTitle) r) r

end Registry

end HeaderDocs.Site
