import HeaderDocs.Reference.Entry

/-!
# Reference sections

A section lists the entries of all public nodes of a kind. The reference of a whole tree has a
section for every kind that has public nodes.
-/
namespace HeaderDocs

/-- The kinds that have sections, with the name of the page and the title of the section. -/
def sections : List (String × Kind × String) :=
  [("classes", .classType, "Classes"), ("structures", .structType, "Structures"),
    ("unions", .unionType, "Unions"), ("enumerations", .enumType, "Enumerations"),
    ("types", .typeAlias, "Types"), ("functions", .function, "Functions"),
    ("variables", .var, "Variables")]

/-- The section of a kind, under a title if one is given. -/
def sectionText (tree : Node) (kind : Kind) (style : EntryStyle) (title : String) : String :=
  let head :=
    if title.isEmpty then [] else [heading title (max 1 (style.headingLevel - 1)), ""]
  let entries := (Located.publicNodes tree kind).map (·.entry style)
  String.intercalate "\n" (head ++ [String.intercalate "\n---\n\n" entries])

/-- Whether a node has the name, qualified or not, and the kind where one is given. -/
def Located.isCalled (l : Located) (name : String) (kind : Option Kind) : Bool :=
  kind.all (· == l.node.kind) && (l.node.name == some name || l.qualifiedName == name)

/-- The first node of a name that has an entry. Constants have one even without a description. -/
def findShown? (tree : Node) (name : String) (kind : Option Kind) : Option Located :=
  (Located.walk tree).find? fun l =>
    (Node.kindLabel? l.node.kind).isSome && l.isCalled name kind &&
      (l.node.kind == .constant || l.node.isPublic)

/-- The entry of the node with a name, or a comment that says that there is none. -/
def singleEntry (tree : Node) (name : String) (kind : Option Kind) (style : EntryStyle) : String :=
  match findShown? tree name kind with
  | some l => l.entry style
  | none => "<!-- apitree: symbol '" ++ name ++ "' not found -->\n"

/-- The sections of a tree that are not empty, as one page. -/
def referencePage (tree : Node) (title : String) : String :=
  let style : EntryStyle := { headingLevel := 3 }
  let body := sections.flatMap fun (_, kind, label) =>
    if (Located.publicNodes tree kind).isEmpty then []
    else [sectionText tree kind style label, ""]
  String.intercalate "\n" (["# " ++ title, ""] ++ body)

end HeaderDocs
