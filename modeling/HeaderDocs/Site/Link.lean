import HeaderDocs.Files.PathName
import HeaderDocs.Site.Symbol
import HeaderDocs.Text.Letter
import HeaderDocs.Text.Substitute

/-!
# Links between pages

Names of symbols in a page become links to where they are documented: names in a role, and names in
backquotes wherever prose is. Headings, fenced code and what is a link already are left alone.

Pages are served from directories or from files. A page served from a directory is named for it, so
that a link to it ends in a slash.

* `autoLink_heading`: a heading is left alone.
-/
namespace HeaderDocs.Site

open HeaderDocs.Text

/-! ## Addresses -/

def pageDirectory (page : String) : String :=
  let cs := page.toList
  let path := if ".md".toList.isSuffixOf cs then String.ofList (cs.take (cs.length - 3)) else page
  if PathName.baseName path == "index" then PathName.dirName path else path

/-- The address of a page in a link from another page. There is none if the page is served from the
top itself. -/
def relativeAddress? (cwd target current : String) (directories : Bool) : Option String :=
  if directories then
    (PathName.relativeTo? cwd (pageDirectory target) (pageDirectory current)).map (· ++ "/")
  else PathName.relativeTo? cwd target (PathName.dirName current)

structure Linker where
  symbols : Registry
  /-- Whether pages are served from directories. -/
  directories : Bool
  /-- The working directory, which path names that lead out of the site pass through. -/
  cwd : String

namespace Linker

/-- The name under which a symbol is looked up: without the parentheses of a call. -/
def lookupName (name : String) : String :=
  let cs := trim name.toList
  String.ofList (if "()".toList.isSuffixOf cs then cs.take (cs.length - 2) else cs)

/-- The address of a symbol, from the top of the site or in a link from a page. -/
def resolve (lk : Linker) (name : String) (current : Option String) : Option String :=
  match lk.symbols.find? (lookupName name) with
  | none => none
  | some symbol =>
    match current with
    | none => some (symbol.page ++ "#" ++ symbol.anchor)
    | some current =>
      if symbol.page == current then some ("#" ++ symbol.anchor)
      else (relativeAddress? lk.cwd symbol.page current lk.directories).map
        (· ++ "#" ++ symbol.anchor)

/-- A link with a label in backquotes, or a text where there is no such symbol. -/
def link (lk : Linker) (name label : String) (current : Option String) (fallback : String) :
    String :=
  match lk.resolve name current with
  | some address => "[\x60" ++ label ++ "\x60](" ++ address ++ ")"
  | none => fallback

/-! ## Roles -/

def roles : List String :=
  ["func", "type", "struct", "union", "enum", "class", "var", "const", "member"]

/-- The name given to a role at the front of a text, as in `:func:` followed by a name in
backquotes, and the length of the whole. -/
def roleName? (cs : List Char) : Option (List Char × Nat) :=
  roles.findSome? fun role =>
    let opening := (":" ++ role ++ ":\x60").toList
    match opening.isPrefixOf? cs with
    | none => none
    | some rest =>
      let name := rest.takeWhile (· != '\x60')
      if name.isEmpty || (rest.drop name.length).isEmpty then none
      else some (name, opening.length + name.length + 1)

/-- Replaces roles, which are lost even where there is no such symbol. -/
def roleRule (lk : Linker) (current : Option String) : Rule := fun _ cs =>
  (roleName? cs).map fun (name, length) =>
    let name := String.ofList name
    ((lk.link name name current ("\x60" ++ name ++ "\x60")).toList, length)

/-! ## Names in backquotes -/

/-- What stands in the backquotes at the front of a text, and the length of the whole, unless it is
the label of a link: that is preceded or followed by a square bracket. -/
def backquoted? (before : Option Char) (allowed : Char → Bool) (ending : String) :
    List Char → Option (List Char × Nat)
  | [] => none
  | c :: cs =>
    if c != '\x60' || before == some '[' then none
    else
      let name := cs.takeWhile allowed
      match (ending ++ "\x60").toList.isPrefixOf? (cs.drop name.length) with
      | some rest =>
        if name.isEmpty || rest.head? == some ']' then none
        else some (name, name.length + ending.length + 2)
      | none => none

def callRule (lk : Linker) (current : Option String) : Rule := fun before cs =>
  (backquoted? before (fun c => isWordChar c || c == ':' || c == '~') "()" cs).map
    fun (name, length) =>
      let name := String.ofList name
      ((lk.link name (name ++ "()") current (String.ofList (cs.take length))).toList, length)

/-- Links names in backquotes. A name starts with a character of an identifier. -/
def nameRule (lk : Linker) (current : Option String) : Rule := fun before cs =>
  match backquoted? before (fun c => isWordChar c || c == ':') "" cs with
  | some (name, length) =>
    if name.head?.any isWordChar then
      let name := String.ofList name
      some ((lk.link name name current (String.ofList (cs.take length))).toList, length)
    else none
  | none => none

/-- Links the names in a line of prose. A heading is left alone. -/
def linkLine (lk : Linker) (current : Option String) (line : List Char) : List Char :=
  if (trimStart line).head? == some '#' then line
  else substitute (lk.nameRule current) (substitute (lk.callRule current) line)

def linkProse (lk : Linker) (current : Option String) (cs : List Char) : List Char :=
  List.intercalate ['\n'] ((lines cs).map (lk.linkLine current))

/-! ## Fenced code -/

def fence : List Char := ['\x60', '\x60', '\x60']

/-- The length of a text up to and with the first fence that starts a line in it. -/
def toFence? (lineStart : Bool) : List Char → Option Nat
  | [] => none
  | c :: cs =>
    if lineStart && fence.isPrefixOf (c :: cs) then some 3
    else (toFence? (c == '\n') cs).map (· + 1)

/-- Splits a text at fenced code: the prose before it and the code, with `inCode` characters of code
still to be read. Code that does not end is prose. The prose read so far is kept backwards. -/
def chunksFrom (prose code : List Char) : (lineStart : Bool) → (inCode : Nat) → List Char →
    List (List Char × List Char)
  | _, _, [] => [(prose.reverse, code.reverse)]
  | _, inCode + 1, c :: cs =>
    if inCode == 0 then
      (prose.reverse, (c :: code).reverse) :: chunksFrom [] [] (c == '\n') 0 cs
    else chunksFrom prose (c :: code) (c == '\n') inCode cs
  | lineStart, 0, c :: cs =>
    let length := if lineStart && fence.isPrefixOf (c :: cs) then
        (toFence? false (cs.drop 2)).map (· + 3)
      else none
    match length with
    | some length => chunksFrom prose [c] (c == '\n') (length - 1) cs
    | none => chunksFrom (c :: prose) code (c == '\n') 0 cs

/-- The prose and the fenced code of a text, in turn. -/
def chunks (cs : List Char) : List (List Char × List Char) := chunksFrom [] [] true 0 cs

/-- Links the names in a text outside of fenced code. -/
def linkNames (lk : Linker) (current : Option String) (cs : List Char) : List Char :=
  (chunks cs).flatMap fun (prose, code) => lk.linkProse current prose ++ code

def linkPage (lk : Linker) (auto : Bool) (current : Option String) (markdown : String) : String :=
  let cs := substitute (lk.roleRule current) markdown.toList
  String.ofList (if auto then lk.linkNames current cs else cs)

theorem autoLink_heading (lk : Linker) (current : Option String) (line : List Char)
    (h : (trimStart line).head? = some '#') : lk.linkLine current line = line := by
  simp [linkLine, h]

end Linker

end HeaderDocs.Site
