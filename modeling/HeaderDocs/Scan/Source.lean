import HeaderDocs.Scan.Declaration

/-!
# Reading a source

A source is read one character at a time, and `step` is total: what cannot be understood is passed
over. The `Mode` says what the next character belongs to, and the scopes being filled form a stack,
with one scope for every record and namespace whose body is open.

`scan` reads a whole source into a tree. Scopes that are still open at the end are put back as if
they had been closed.

* `scan_append`: reading a text in two parts is reading it as one.
-/
namespace HeaderDocs.Scan

open HeaderDocs.Text

/-- What the next character belongs to. Texts read so far are kept backwards. -/
inductive Mode where
  | plain
  /-- After a slash that may open a comment. -/
  | slash
  /-- In a preprocessor directive, perhaps in a literal with the given quote. -/
  | directive (quote : Option Char)
  | directiveEscape (quote : Option Char)
  | directiveSlash
  /-- In a comment in a directive; `star` if the last character was a star. -/
  | directiveComment (star : Bool)
  /-- In a block comment; `lineStart` as long as its line holds only decoration. -/
  | blockComment (text : List Char) (lineStart : Bool)
  /-- After a decorating star. -/
  | blockStar (text : List Char)
  | lineComment (text : List Char)
  | literal (quote : Char) (text : List Char)
  | literalEscape (quote : Char) (text : List Char)
  | word (text : List Char)
deriving DecidableEq, Repr

/-- The state of reading a source. -/
structure State where
  mode : Mode := .plain
  scope : OpenScope
  enclosing : List OpenScope := []

namespace State

def start (tree : Node) : State := { scope := .begin tree .source }

def update (f : OpenScope → OpenScope) (s : State) : State := { s with scope := f s.scope }

def enter (mode : Mode) (s : State) : State := { s with mode }

/-! ## Opening and closing scopes -/

/-- Puts a scope whose body has been read back into the one around it. -/
def putBack (inner outer : OpenScope) : OpenScope :=
  let outer := { outer with events := outer.events ++ inner.events }
  match inner.origin with
  | .source => outer
  | .record =>
    match outer.context.record with
    | some (.inScope i) =>
      let outer := outer.modifyAt (fun _ => inner.node) [i]
      if inner.attached then outer else outer.removeAt [i]
    | some (.aside _) => outer.update ({ · with record := some (.aside inner.node) })
    | none => outer
  | .nameSpace (some i) => outer.modifyAt (fun _ => inner.node) [i]
  | .nameSpace none => outer

/-- Starts to fill a scope. -/
def push (node : Node) (origin : Origin) (s : State) : State :=
  { s with scope := .begin node origin, enclosing := s.scope :: s.enclosing }

/-- Ends the innermost block whose declarations are recorded. The source itself never ends at a
brace. -/
def pop (s : State) : State :=
  match s.scope.suspended, s.enclosing with
  | context :: suspended, _ => { s with scope := { s.scope with context, suspended } }
  | [], outer :: enclosing => { s with scope := putBack s.scope outer, enclosing }
  | [], [] => s

/-- The scope of the source, with every open scope put back. -/
def unwind : OpenScope → List OpenScope → OpenScope
  | scope, [] => scope
  | scope, outer :: enclosing => unwind (putBack scope outer) enclosing

/-! ## Braces -/

def recordKind? (word : String) : Option Kind :=
  if word == "class" then some .classType
  else if word == "struct" then some .structType
  else if word == "union" then some .unionType
  else none

/-- Splits `typedef` from the run before a brace. -/
def splitAlias (run : Run) : Bool × Run :=
  if run.texts.head? == some "typedef" then (true, run.drop 1) else (false, run)

/-- The name waiting for its declarator after a definition, described by the waiting comment. -/
def aliasOf (aliased : Bool) (comment : Option String) : Option Node :=
  if aliased then some (Node.describeIf { kind := .typeAlias } comment) else none

/-- The types a record derives from, from the words after its name. -/
def baseOf? (words : List String) : Option String :=
  let words := match words with
    | ":" :: rest => rest
    | words => words
  if words.isEmpty then none else some (String.intercalate " " words)

/-- Opens the body of a record, which is recorded at once if it has a name. -/
def openRecord (kind : Kind) (aliased : Bool) (run : Run) (s : State) : State :=
  let c := s.scope.context
  let words := run.texts
  let attrs : Attributes := {
    name := (words[1]?).map withoutColons
    base := if aliased then none else baseOf? (words.drop 2) }
  let node := Node.describe { kind, attrs } (c.comment.getD "")
  let typeAlias := aliasOf aliased c.comment
  let scope := s.scope.update fun c =>
    let c := if aliased then { c with run := run.closeUp } else c.dropRun
    { c.takeComment with typeAlias }
  let (scope, path) := scope.commitNamed node
  let place := OpenScope.placeOf node path
  let node := (place.node? scope.node).getD node
  let scope := scope.update ({ · with record := some place, claim := none })
  { s with scope }.push node .record

/-- Opens the body of a namespace, which may have been opened before. -/
def openNameSpace (name : String) (s : State) : State :=
  let comment := s.scope.context.comment
  let scope := s.scope.update fun c => { c.takeComment.dropRun with claim := none }
  match scope.node.children.findIdx? (Node.isNamed .nameSpace (some name)) with
  | some i =>
    let node := (scope.node.get? [i]).getD (.ofName .nameSpace name)
    { s with scope }.push node (.nameSpace (some i))
  | none =>
    let node := (Node.ofName .nameSpace name).describe (comment.getD "")
    let (scope, path) := scope.commit node
    { s with scope }.push node (.nameSpace (path.bind (·.head?)))

def openEnumeration (aliased : Bool) (run : Run) (scope : OpenScope) : OpenScope :=
  let c := scope.context
  let name := run.texts[1]?
  let node := Node.describe { kind := .enumType, attrs := { name } } (c.comment.getD "")
  let typeAlias := aliasOf aliased c.comment
  let scope := scope.update fun c =>
    let c := if aliased then { c with run := run.closeUp } else c.dropRun
    { c.takeComment with typeAlias }
  let (scope, path) := scope.commitNamed node
  scope.update ({ · with enumeration := some (OpenScope.placeOf node path), inValue := false })

/-- Opens a linkage block, which declares into the scope around it. -/
def openLinkage (s : State) : State :=
  s.update fun scope =>
    let outer := { scope.context.dropRun with claim := none }
    { scope with context := .ofScope scope.node, suspended := outer :: scope.suspended }

/-- Opens a brace whose contents are not recorded, except for the constants of an enumeration. -/
def openBlock (f : OpenScope → OpenScope) (s : State) : State :=
  s.update fun scope =>
    (f scope).update fun c => { c with braces := c.braces + 1, claim := none }

/-- An opening brace. The words before it say what it opens. -/
def openBrace (s : State) : State :=
  let c := s.scope.context
  let (aliased, run) := splitAlias c.run
  let words := c.run.texts
  let first := run.texts.headD ""
  match c.header with
  | some h => s.openBlock (·.commitHeader h)
  | none =>
    match recordKind? first with
    | some kind => s.openRecord kind aliased run
    | none =>
      match words with
      | "namespace" :: name :: _ => s.openNameSpace name
      | _ =>
        if 1 < words.length && first == "enum" then s.openBlock (openEnumeration aliased run)
        else if first == "extern" && !aliased then s.openLinkage
        else s.openBlock (·.update .dropRun)

def closeBrace (s : State) : State :=
  let c := s.scope.context
  let closed : Context :=
    { c with
      enumeration := if c.typeAlias.isNone then none else c.enumeration
      inValue := false
      record := none
      claim := none }
  if 0 < c.braces then
    s.update fun scope =>
      let c := { closed with braces := c.braces - 1 }
      { scope with context := if c.braces == 0 then { c with comment := none, runComment := none }
                              else c }
  else (s.update ({ · with context := closed })).pop

/-! ## Characters -/

def isWordStart (c : Char) : Bool := isAlphanumeric c || c == '_' || c == '.' || c == '~'

/-- Whether a character continues a word. Commas do inside of nested parentheses. -/
def isWordPart (parens : Nat) (c : Char) : Bool :=
  isWordStart c || c == '[' || c == ']' || c == ':' || (c == ',' && 1 < parens)

/-- Takes a mark outside of words, literals, comments and directives. -/
def mark (c : Char) (s : State) : State :=
  match c with
  | '#' => s.enter (.directive none)
  | '"' | '\'' => s.enter (.literal c [c])
  | '\x7b' => s.openBrace
  | '\x7d' => s.closeBrace
  | '(' => s.update (·.update .openParen)
  | ')' => s.update (·.update .closeParen)
  | ';' => s.update .semicolon
  | ',' => s.update (·.update .comma)
  | '=' => s.update (·.update .equals)
  | '*' | '+' | '-' => s.update (·.update (·.pushMark c.toString))
  | '&' => s.update (·.update (·.pushFragment "&" true))
  | ':' => s.update (·.update (·.pushIfStarted ":" true))
  | _ => if isWordStart c then s.enter (.word [c]) else s

/-- A character outside of words, literals, comments and directives. -/
def plain (c : Char) (s : State) : State :=
  if c == '\n' then s.update (·.update fun c => { c with claim := none, joinable := false })
  else if isSpace c then s
  else if c == '/' then s.enter .slash
  else (s.update (·.update ({ · with joinable := false }))).mark c

def endComment (text : List Char) (line : Bool) (s : State) : State :=
  (s.enter .plain).update (·.takeComment (String.ofList text) line)

/-- The end of a block comment, whose last line may end in decoration. -/
def endBlockComment (text : List Char) (s : State) : State :=
  s.endComment (trimEnd (dropEndWhile (· == '*') (trimEnd text.reverse))) false

/-- A character in a block comment. Stars and white space at the start of a line are decoration;
lines that end before the text begins are dropped. -/
def blockComment (text : List Char) (lineStart : Bool) (c : Char) (s : State) : State :=
  let newline := if text.isEmpty then [] else '\n' :: text
  if lineStart && c == '*' then s.enter (.blockStar text)
  else if c == '\n' then s.enter (.blockComment newline true)
  else if lineStart && isSpace c then s.enter (.blockComment text true)
  else
    match c, text with
    | '/', '*' :: rest => s.endBlockComment rest
    | _, _ => s.enter (.blockComment (c :: text) false)

def endLineComment (text : List Char) (s : State) : State :=
  let text := trim (text.reverse.dropWhile fun c => c == '/' || c == '!')
  (s.endComment text true).update (·.update .endLine)

def directive (quote : Option Char) (c : Char) (s : State) : State :=
  if c == '\n' then (s.enter .plain).update (·.update .endLine)
  else if c == '\\' then s.enter (.directiveEscape quote)
  else
    match quote with
    | some q => if c == q then s.enter (.directive none) else s.enter (.directive quote)
    | none =>
      if c == '"' || c == '\'' then s.enter (.directive (some c))
      else if c == '/' then s.enter .directiveSlash
      else s.enter (.directive none)

/-- The end of a literal, which belongs to the declaration if one has begun. -/
def endLiteral (text : List Char) (s : State) : State :=
  (s.enter .plain).update (·.update fun c =>
    c.pushIfStarted (String.ofList text.reverse) true)

def step (s : State) (c : Char) : State :=
  match s.mode with
  | .plain => s.plain c
  | .slash =>
    if c == '*' then s.enter (.blockComment [] true)
    else if c == '/' then s.enter (.lineComment [])
    else
      let s := (s.enter .plain).update (·.update fun c => { c with joinable := false }.pushMark "/")
      s.plain c
  | .directive quote => s.directive quote c
  | .directiveEscape quote => s.enter (.directive quote)
  | .directiveSlash =>
    if c == '*' then s.enter (.directiveComment false)
    else s.directive none c
  | .directiveComment star =>
    if star && c == '/' then s.enter (.directive none)
    else s.enter (.directiveComment (c == '*'))
  | .blockComment text lineStart => s.blockComment text lineStart c
  | .blockStar text =>
    if c == '/' then s.endBlockComment text
    else s.blockComment text true c
  | .lineComment text =>
    if c == '\n' then s.endLineComment text
    else if c == '\r' then s
    else s.enter (.lineComment (c :: text))
  | .literal quote text =>
    if c == '\\' then s.enter (.literalEscape quote (c :: text))
    else if c == quote then s.endLiteral (c :: text)
    else s.enter (.literal quote (c :: text))
  | .literalEscape quote text => s.enter (.literal quote (c :: text))
  | .word text =>
    if isWordPart s.scope.context.parens c then s.enter (.word (c :: text))
    else ((s.enter .plain).update (·.word (String.ofList text.reverse) c)).plain c

/-- Reads a text. -/
def run (s : State) (source : List Char) : State := source.foldl step s

def result (s : State) : OpenScope := unwind s.scope s.enclosing

theorem run_append (s : State) (first second : List Char) :
    s.run (first ++ second) = (s.run first).run second := by
  simp [run]

end State

/-- Reads a source into a tree: the tree with the declarations recorded, and what there is to report
about them. -/
def scanWithEvents (source : String) (tree : Node) : Node × List Event :=
  let scope := ((State.start tree).run source.toList).result
  (scope.node, scope.events)

/-- Reads a source into a tree. -/
def scan (source : String) (tree : Node) : Node := (scanWithEvents source tree).1

theorem scan_append (first second : String) (tree : Node) :
    scan (first ++ second) tree =
      (((State.start tree).run first.toList).run second.toList).result.node := by
  simp [scan, scanWithEvents, State.run_append]

end HeaderDocs.Scan
