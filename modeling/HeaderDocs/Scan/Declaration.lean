import HeaderDocs.Scan.OpenScope
import HeaderDocs.Text.Space
import HeaderDocs.Text.Substitute

/-!
# What a declaration declares

The words of a declaration are collected until a parenthesis, a comma or a semicolon says what was
declared: a function, a variable, a name for a type, or the constant of an enumeration. A word is
read together with the character that ends it, because an identifier directly before an opening
parenthesis starts a function.
-/
namespace HeaderDocs.Scan

open HeaderDocs.Text

/-- Drops the colons at the end of a word. -/
def withoutColons (word : String) : String := onChars (dropEndWhile (· == ':')) word

def isAccess (word : String) : Bool := word == "public" || word == "protected" || word == "private"

/-- Whether a declaration that starts with the word is left out: external ones everywhere, static
ones outside of any scope. -/
def isLeftOut (scope : Kind) (first : String) : Bool :=
  first == "extern" || (first == "static" && scope == .root)

namespace OpenScope

/-! ## Functions -/

/-- The class, or else the structure, of the given name among the children of a scope. -/
def recordNamed? (scope : Node) (name : String) : Option Place :=
  match scope.children.findIdx? (Node.isNamed .classType (some name)) with
  | some i => some (.inScope i)
  | none =>
    (scope.children.findIdx? (Node.isNamed .structType (some name))).map .inScope

/-- Splits a qualified name at its first pair of colons. The qualifier is not empty. -/
def splitQualified (word : String) : Option (String × String) :=
  match breakOn? [':', ':'] word.toList with
  | some (qualifier, name) =>
    if qualifier.isEmpty then none else some (String.ofList qualifier, String.ofList name)
  | none => none

/-- The node of what a function returns, for the run before its name. A function that returns
nothing has none. -/
def resultOf? (run : Run) (comment : Option String) : Option Node :=
  match run.getLast? with
  | some last =>
    if last.text == "void" then none
    else
      let result : Node := { kind := .result, children := [run.closeUp.toType] }
      some (result.describe (comment.getD ""))
  | none => none

def startFunction (word : String) (s : OpenScope) : OpenScope :=
  let c := s.context
  if c.run.texts.head?.any (isLeftOut s.node.kind) then s.update .dropRun
  else
    let (home, name) := match splitQualified word with
      | some (qualifier, name) => (recordNamed? s.node qualifier, name)
      | none => (none, word)
    let function : Node := {
      kind := .function
      attrs := { name := some name, scope := c.access }
      children := (resultOf? c.run c.runComment).toList }
    let header : Header := {
      node := function.describe (c.comment.getD "")
      typed := !c.run.isEmpty
      home }
    s.update fun c => { c.takeComment.dropRun with header := some header }

/-! ## Variables -/

/-- Records a variable at the end of its declarator. After a comma its first words are shared with
the next declarator. -/
def declareVariable (terminator : Char) (s : OpenScope) : OpenScope :=
  match Declarator.ofRun? s.context.run with
  | none => s.update .dropRun
  | some d =>
    let c := s.context
    let node := ((d.toNode .var).withScope c.access).describeIf c.comment
    let base := if terminator == ',' then d.type.takeWhile (·.isWord) else []
    let (s, path) := (s.update fun c => { c.dropRun.takeComment with base }).commit node
    s.update ({ · with claim := claimOn path })

/-! ## Names for types -/

/-- Where the name stands in a run that names a type and was ended by a semicolon: after the stars
of the first parenthesis, or before that parenthesis if it opens an argument list, or last. -/
def aliasIndex (run : Run) : Nat :=
  let words := run.texts
  let last := words.length - 1
  match (words.drop 1).findIdx? (· == "(") with
  | none => last
  | some i =>
    -- the parenthesis is the word at `i + 1`
    if words[i + 2]? == some "*" then
      let stars := ((words.drop (i + 2)).takeWhile (· == "*")).length
      min (i + 2 + stars) last
    else if 0 < i then i
    else last

/-- Records a name for a type, described by the waiting comment. -/
def declareAlias (name : String) (type : Run) (s : OpenScope) : OpenScope :=
  let node : Node := { (Node.ofName .typeAlias name) with children := [type.closeUp.toType] }
  let node := node.describeIf s.context.comment
  let (s, path) := (s.update fun c => { c.takeComment with run := [] }).commit node
  s.update ({ · with claim := claimOn path })

/-- Ends a declaration that names a type at its semicolon. -/
def finishAlias (s : OpenScope) : OpenScope :=
  let run := s.context.run
  let i := aliasIndex run
  match run[i]? with
  | some name => s.declareAlias name.text ((run.eraseIdx i).drop (if i == 0 then 0 else 1))
  | none => s

/-! ## Declarators after a definition -/

/-- Names a record or enumeration that has been defined without a name, and records it. -/
def nameAside (name : String) (place : Option Place) (s : OpenScope) : OpenScope × Option Place :=
  match place with
  | some (.aside node) =>
    if node.name.getD "" == "" then
      let node := node.withName name
      let (s, path) := s.commit node
      (s, some (placeOf node path))
    else (s, place)
  | _ => (s, place)

/-- Declares the name that waits for its declarator after a definition, if there is one. -/
def declareAwaited (name : String) (s : OpenScope) : OpenScope :=
  match s.context.typeAlias with
  | some node =>
    let type := s.context.run.closeUp.toType
    let node := (node.withName name).withChildren (type :: node.children)
    let (s, path) := s.commit node
    s.update ({ · with claim := claimOn path })
  | none => s.update ({ · with claim := none })

/-- Ends the first declarator after the definition of a record or an enumeration. It names the type
if that has no name, and declares the name waiting for it if there is one. -/
def declareDefined (name : String) (s : OpenScope) : OpenScope :=
  let aliased := s.context.typeAlias.isSome
  let s := s.declareAwaited name
  let (s, record) := s.nameAside name s.context.record
  let s := s.update ({ · with record })
  let (s, enumeration) := s.nameAside name s.context.enumeration
  let s := s.update ({ · with enumeration })
  s.update fun c =>
    let related := claimOnPlace c.record ++ claimOnPlace c.enumeration
    { c with
      run := [], typeAlias := none, record := none, enumeration := none
      claim := if aliased then c.claim.map (· ++ related) else none }

/-- Ends a declarator at a comma or semicolon that follows its last word directly. -/
def endDeclarator (word : String) (terminator : Char) (s : OpenScope) : OpenScope :=
  let c := s.context
  let first := c.run.texts.headD ""
  if c.typeAlias.isSome || c.record.isSome then s.declareDefined word
  else if first == "typedef" then s.declareAlias word (c.run.drop 1)
  else if c.parens == 0 then
    if isLeftOut s.node.kind first then s.update .dropRun
    else (s.update (·.pushWord word)).declareVariable terminator
  else s.update (·.pushWord word)

/-! ## Words -/

/-- Records a constant of the enumeration being read. -/
def declareConstant (word : String) (s : OpenScope) : OpenScope :=
  let node := (Node.ofName .constant word).describeIf s.context.comment
  let s := s.update .takeComment
  match s.context.enumeration with
  | some (.inScope e) =>
    match s.commitTo [e] node with
    | (s, some path) => s.update ({ · with claim := some [.constant (path.getLastD 0)] })
    | (s, none) => s
  | some (.aside home) =>
    match s.commitAside home node with
    | (s, some i, home) =>
      s.update ({ · with enumeration := some (.aside home), claim := some [.constant i] })
    | (s, none, _) => s
  | none => s

/-- A word of a declaration, with the character that ends it. -/
def declarationWord (word : String) (terminator : Char) (s : OpenScope) : OpenScope :=
  if s.context.run.isEmpty && s.node.kind.isRecord && isAccess (withoutColons word) then
    s.update ({ · with access := some (withoutColons word) })
  else
    let s := s.update .startRun
    let c := s.context
    let words := c.run.texts
    if c.header.isNone && terminator == '(' && !words.contains "=" && words.head? != some "typedef"
    then s.startFunction word
    else if c.inArguments && (terminator == ')' || terminator == ',') then
      if word == "void" && c.run.isEmpty then s.update .dropRun
      else s.update fun c => (c.pushWord word).addArgument
    else if !c.run.isEmpty && c.header.isNone && (terminator == ';' || terminator == ',') then
      s.endDeclarator word terminator
    else s.update (·.pushWord word)

/-- A word of the source. Inside of braces only the constants of an enumeration count. -/
def word (word : String) (terminator : Char) (s : OpenScope) : OpenScope :=
  let c := s.context
  if c.braces == 0 then s.declarationWord word terminator
  else if c.enumeration.isSome then
    if !c.inValue && !word.toList.head?.any isDigit then s.declareConstant word else s
  else s.update .dropRun

/-! ## Semicolons -/

/-- Whether a run ended by a semicolon declares a variable whose last word is not its name: one with
an initial value, or a pointer to a function. -/
def declaresVariable (scope : Kind) (c : Context) : Bool :=
  let words := c.run.texts
  c.braces == 0 && c.parens == 0 &&
    ((words.drop 2).contains "=" || c.run.isFunctionPointer) &&
    !words.contains "operator" && !words.head?.any (isLeftOut scope)

/-- Records the function whose header has been read. Without a type before its name it is one only
in a record. -/
def endHeader (s : OpenScope) : OpenScope :=
  match s.context.header with
  | some h => if h.typed || s.node.kind.isRecord then s.commitHeader h else s.update .dropHeader
  | none => s

/-- Declares what the run names that a semicolon ends. -/
def endRun (s : OpenScope) : OpenScope :=
  if s.context.run.texts.head? == some "typedef" then s.finishAlias
  else if declaresVariable s.node.kind s.context then s.declareVariable ';'
  else s

def semicolon (s : OpenScope) : OpenScope :=
  let s := s.endHeader.endRun
  s.update fun c =>
    let c := { c.dropRun with record := none, base := [] }
    if c.braces == 0 then { c with typeAlias := none, enumeration := none } else c

end OpenScope

end HeaderDocs.Scan
