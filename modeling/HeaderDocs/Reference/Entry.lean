import HeaderDocs.Reference.Signature

/-!
# Reference entries

What is shown for one node: an anchor, a heading, annotations, the signature, the summary, tables of
arguments or constants, the discussion, and the entries of its members.

* `cell_noLineFeed`: a table cell stays on its line.
-/
namespace HeaderDocs

open HeaderDocs.Text

/-- How entries are written. -/
structure EntryStyle where
  /-- The level of the heading of an entry. -/
  headingLevel : Int := 2
  /-- Whether entries are followed by those of their members. -/
  members : Bool := true
  /-- The language that signatures are marked with. -/
  language : String := "c"
deriving DecidableEq, Repr

/-- A heading. There are six levels, and below the first there is no mark at all. -/
def heading (text : String) (level : Int) : String :=
  String.ofList (List.replicate (min level 6).toNat '#') ++ " " ++ text

def codeWord (word : String) : String := "\x60" ++ word ++ "\x60"

/-- A text for a table cell: on one line, and with bars escaped. -/
def cellText (s : String) : List Char :=
  (Comment.stripMarkup s).toList.flatMap fun c =>
    if c == '\n' then [' '] else if c == '|' then ['\\', '|'] else [c]

def cell (s : String) : String := String.ofList (cellText s)

def annotationLines (text : String) : List String :=
  let annotation := Comment.annotation text
  if annotation.isEmpty then []
  else if annotation == Comment.deprecated then
    ["!!! warning \"Deprecated\"",
      "    This symbol is deprecated and should not be used in new code.", ""]
  else ["*Since " ++ stripped annotation ++ "*", ""]

namespace Node

/-- The word that entries of a kind are headed with, if it has entries. -/
def kindLabel? : Kind → Option String
  | .nameSpace => some "Namespace"
  | .classType => some "Class"
  | .structType => some "Struct"
  | .unionType => some "Union"
  | .enumType => some "Enum"
  | .constant => some "Enumerator"
  | .typeAlias => some "Type"
  | .function => some "Function"
  | .var => some "Variable"
  | _ => none

def directionText : Option String → String
  | some "I" => "in"
  | some "O" => "out"
  | some "IO" => "in/out"
  | _ => ""

def argumentTable (n : Node) : List String :=
  let rows := (n.childrenOf .argument).map fun a =>
    "| " ++ codeWord a.shownName ++ " | " ++ directionText a.attrs.direction ++ " | " ++
      cell a.descriptionText ++ " |"
  if rows.isEmpty then []
  else
    ["**Parameters:**", "", "| Name | Direction | Description |", "|---|---|---|"] ++ rows ++ [""]

def resultLines (n : Node) : List String :=
  match n.child? .result with
  | some result =>
    if result.descriptionText.isEmpty then []
    else ["**Returns:** " ++ cell result.descriptionText, ""]
  | none => []

def constantTable (n : Node) : List String :=
  let rows := (n.childrenOf .constant).map fun c =>
    "| " ++ codeWord c.shownName ++ " | " ++ cell c.descriptionText ++ " |"
  if rows.isEmpty then []
  else ["| Constant | Description |", "|---|---|"] ++ rows ++ [""]

def summaryLine (n : Node) : String :=
  onChars (replace ['\n'] [' ']) (Comment.splitSummary (Comment.stripMarkup n.descriptionText)).1

/-- The text that heads the entry of a node. -/
def entryTitle (n : Node) : String :=
  let title := match n.name with
    | some name => if name.isEmpty then "Documentation" else codeWord name
    | none => "Documentation"
  match kindLabel? n.kind with
  | some label => label ++ ": " ++ title
  | none => title

end Node

/-- The kinds of members, in the order they are listed in. -/
def memberKinds : List Kind :=
  [.nameSpace, .classType, .structType, .unionType, .enumType, .typeAlias, .function, .var]

def Kind.listsMembers (k : Kind) : Bool := k == .nameSpace || k.isRecord

/-- The lines of an entry itself, without those of its members. -/
def Located.entryLines (style : EntryStyle) (l : Located) : List String :=
  let n := l.node
  let text := n.descriptionText
  let signature := l.signature
  let (summary, discussion) := Comment.splitSummary (Comment.stripMarkup text)
  ["<a id=\"" ++ l.anchor ++ "\"></a>", "", heading n.entryTitle style.headingLevel, ""] ++
    annotationLines text ++
    (if signature.isEmpty then []
      else ["\x60\x60\x60" ++ style.language, signature, "\x60\x60\x60", ""]) ++
    (if summary.isEmpty then [] else [summary, ""]) ++
    (if n.kind == .function then n.argumentTable ++ n.resultLines
      else if n.kind == .enumType then n.constantTable
      else []) ++
    (if discussion.isEmpty then [] else ["**Discussion:**", "", discussion, ""])

mutual

def Node.entry (style : EntryStyle) (above : List Node) : Node → String
  | ⟨k, attrs, content, spaced, children⟩ =>
    let node : Node := ⟨k, attrs, content, spaced, children⟩
    let members :=
      if style.members && k.listsMembers then
        let style := { style with headingLevel := style.headingLevel + 1, members := true }
        memberKinds.flatMap fun kind => Node.memberEntries style (node :: above) kind children
      else []
    String.intercalate "\n" (Located.entryLines style { node, above } ++ members)

/-- The entries of the public members of a kind that are not private. -/
def Node.memberEntries (style : EntryStyle) (above : List Node) (kind : Kind) :
    List Node → List String
  | [] => []
  | n :: ns =>
    (if n.kind == kind && n.isPublic && n.scope != some "private" then [n.entry style above]
      else []) ++ Node.memberEntries style above kind ns

end

def Located.entry (style : EntryStyle) (l : Located) : String := l.node.entry style l.above

theorem cell_noLineFeed (s : String) : '\n' ∉ (cell s).toList := by
  simp only [cell, cellText, String.toList_ofList, List.mem_flatMap, not_exists, not_and]
  intro c _
  by_cases hn : c = '\n'
  · simp [hn]
  · by_cases hb : c = '|'
    · simp [hb]
    · simpa [hn, hb] using fun h => hn h.symm

end HeaderDocs
