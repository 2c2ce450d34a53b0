import HeaderDocs.Proofs.Scan.References

/-!
# Reading with nothing taken for granted

The scanner uses the first character of a word, the first or last fragment of a run, a child that it
takes out or stands another one before, and the type of a variable without asking whether they are
there. The operations of this module do what those of the scanner do, step by step, but ask first,
and fail with the `Fault` that says what was missing. Where an operation of the scanner uses nothing
of the kind, it is used here as it is.

`scan` also stops where the program would: at a closing brace that ends a body, in a scope that is
not inside of another one. It answers with what it has not read.
-/
namespace HeaderDocs.Scan

open HeaderDocs.Text

/-- What an operation has used without its being there. -/
inductive Fault where
  /-- The first character of an empty text. -/
  | character
  /-- A fragment that the run does not have. -/
  | fragment
  /-- What the keyword of a record defines, for another word. -/
  | keyword
  /-- A node that is not where its owner has it, or a position that the owner does not have. -/
  | child
  /-- The type of a node without one. -/
  | type
deriving DecidableEq, Repr

/-- The result of an operation that may use what is not there. -/
abbrev Attempt := Except Fault

def Context.claimed? (scope : Node) (c : Context) : Claim → Option Node
  | .recorded path => scope.get? path
  | .argument => c.header.bind (·.node.children.getLast?)
  | .constant i => (c.enumeration.bind (·.node? scope)).bind (·.children[i]?)

namespace Checked

def require {α : Type} (fault : Fault) : Option α → Attempt α
  | some a => .ok a
  | none => .error fault

/-! ## Runs -/

def firstCharacter (text : String) : Attempt Char := require .character text.toList.head?

def firstFragment (run : Run) : Attempt Fragment := require .fragment run.head?

def lastFragment (run : Run) : Attempt Fragment := require .fragment run.getLast?

/-- Appends a word, for which the first character of the last fragment is looked at. -/
def pushWord (word : String) (run : Run) : Attempt Run :=
  if run.isEmpty then return run.pushWord word
  else do
    let last ← lastFragment run
    let _ ← firstCharacter last.text
    return run.pushWord word

def isFunctionPointer (run : Run) : Attempt Bool := do
  let _ ← lastFragment run
  return run.isFunctionPointer

/-- The run with nothing before its first fragment. -/
def closeUp (run : Run) : Attempt Run := do
  let _ ← firstFragment run
  return run.closeUp

/-! ## Nodes -/

def nodeAt (path : Path) (n : Node) : Attempt Node := require .child (n.get? path)

/-- Describes a node, whose old description is taken out of it. -/
def describe (raw : String) (n : Node) : Attempt Node :=
  match n.children.findIdx? (Node.isKind .description) with
  | some i => do
    let _ ← nodeAt [i] n
    return n.describe raw
  | none => return n.describe raw

def describeIf (raw? : Option String) (n : Node) : Attempt Node :=
  match raw? with
  | some raw => describe raw n
  | none => return n

def applyInsertion (ins : Node.Insertion) (children : List Node) : Attempt (List Node) := do
  let rest ← match ins.replaced with
    | some i => do
      let _ ← require .child children[i]?
      pure (children.eraseIdx i)
    | none => pure children
  if ins.position ≤ rest.length then return rest.insertIdx ins.position ins.node
  else throw .child

/-! ## Scopes -/

def removeAt (path : Path) (s : OpenScope) : Attempt OpenScope := do
  let _ ← nodeAt path s.node
  return s.removeAt path

/-- Puts a node into the one that `home` leads to, at a position of its list of children. -/
def insertAt (home : Path) (i : Nat) (new : Node) (s : OpenScope) : Attempt OpenScope := do
  let owner ← nodeAt home s.node
  if i ≤ owner.children.length then return s.insertAt (home ++ [i]) new
  else throw .child

def describeScope (raw : String) (s : OpenScope) : Attempt OpenScope := do
  let _ ← describe raw s.node
  return s.describe raw

/-! ### Recording -/

def commitTo (home : Path) (node : Node) (s : OpenScope) : Attempt (OpenScope × Option Path) := do
  let owner ← nodeAt home s.node
  let name := node.name.getD ""
  if node.isPrivate then return (s.note (.skippedPrivate node.kind name), none)
  else
    match owner.insertion? node with
    | none => return (s, none)
    | some ins => do
      let s ← match ins.replaced with
        | some i => removeAt (home ++ [i]) s
        | none => pure s
      let s ← insertAt home ins.position ins.node s
      return (s.noteRecorded home node.kind name, some (home ++ [ins.position]))

def commit (node : Node) (s : OpenScope) : Attempt (OpenScope × Option Path) := commitTo [] node s

def commitNamed (node : Node) (s : OpenScope) : Attempt (OpenScope × Option Path) :=
  if node.name.getD "" == "" then return (s, none) else commit node s

def commitAside (home node : Node) (s : OpenScope) : Attempt (OpenScope × Option Nat × Node) :=
  let name := node.name.getD ""
  if node.isPrivate then return (s.note (.skippedPrivate node.kind name), none, home)
  else
    match home.insertion? node with
    | none => return (s, none, home)
    | some ins => do
      let children ← applyInsertion ins home.children
      return (s.note (.recorded node.kind name), some ins.position, home.withChildren children)

/-- Records a node, which a comment on its line describes. -/
def commitClaimed (node : Node) (s : OpenScope) : Attempt OpenScope := do
  let (s, path) ← commit node s
  return s.update ({ · with claim := OpenScope.claimOn path })

def commitHeader (h : Header) (s : OpenScope) : Attempt OpenScope := do
  let (s, path) ← match h.home with
    | none => commit h.node s
    | some (.inScope i) => commitTo [i] h.node s
    | some (.aside home) => do
      let (s, _) ← commitAside home h.node s
      pure (s, none)
  let argument := path.map (· ++ [h.node.children.length - 1])
  return s.update fun c => (c.settleArgument argument).dropHeader.dropRun

/-! ### Claims -/

def describeClaim (raw : String) (s : OpenScope) (claim : Claim) : Attempt OpenScope := do
  let node ← require .child (s.context.claimed? s.node claim)
  let _ ← describe raw node
  return s.describeClaim raw claim

def withdrawClaim (s : OpenScope) (claim : Claim) : Attempt OpenScope := do
  let _ ← require .child (s.context.claimed? s.node claim)
  return s.withdrawClaim claim

def withdrawFirst : Nat → OpenScope → Attempt OpenScope
  | 0, s => return s
  | count + 1, s =>
    match s.context.claim with
    | some (claim :: claims) => do
      let s ← withdrawClaim (s.update ({ · with claim := some claims })) claim
      withdrawFirst count s
    | _ => return s

def describeClaims (raw : String) : List Claim → OpenScope → Attempt OpenScope
  | [], s => return s
  | claim :: claims, s => do
    let s ← describeClaim raw s claim
    describeClaims raw claims s

def settleClaims (raw : String) (claims : List Claim) (s : OpenScope) : Attempt OpenScope := do
  let s ←
    if Comment.isPrivate raw then withdrawFirst claims.length s else describeClaims raw claims s
  return s.update ({ · with claim := none, joinable := false })

def takeComment (text : String) (line : Bool) (s : OpenScope) : Attempt OpenScope :=
  let c := s.context
  if text.isEmpty then return s
  else
    match c.claim with
    | some claims => settleClaims text claims s
    | none =>
      if c.braces == 0 && s.node.kind.isRecord && s.node.descriptionText.isEmpty then do
        let s ← describeScope text s
        return if Comment.isPrivate text then { s with attached := false } else s
      else return s.takeComment text line

/-! ### Declarations -/

def startFunction (word : String) (s : OpenScope) : Attempt OpenScope :=
  let run := s.context.run
  if run.isEmpty || run.texts.head?.any (isLeftOut s.node.kind) then return s.startFunction word
  else do
    let last ← lastFragment run
    let _ ← if last.text == "void" then pure last else firstFragment run
    return s.startFunction word

/-- The words of a type that the declarators of a list share. -/
def sharedWords (node : Node) : Attempt Run := do
  let type ← require .type (node.child? .typeExpr)
  return (type.children.map fun w => (⟨w.content, w.spaced⟩ : Fragment)).takeWhile (·.isWord)

def declareVariable (terminator : Char) (s : OpenScope) : Attempt OpenScope :=
  match Declarator.ofRun? s.context.run with
  | none => return s.update .dropRun
  | some d => do
    let c := s.context
    let base ← if terminator == ',' then sharedWords (d.toNode .var) else pure []
    let node ← describeIf c.comment ((d.toNode .var).withScope c.access)
    commitClaimed node (s.update fun c => { c.dropRun.takeComment with base })

def declareAlias (name : String) (type : Run) (s : OpenScope) : Attempt OpenScope := do
  let named : Node := { (Node.ofName .typeAlias name) with children := [type.closeUp.toType] }
  let node ← describeIf s.context.comment named
  commitClaimed node (s.update fun c => { c.takeComment with run := [] })

/-- Ends a declaration that names a type. Unless the name is the first fragment, that goes with
it. -/
def finishAlias (s : OpenScope) : Attempt OpenScope := do
  let run := s.context.run
  let _ ← firstFragment run
  let _ ← lastFragment run
  let i := OpenScope.aliasIndex run
  let name ← require .fragment run[i]?
  declareAlias name.text ((run.eraseIdx i).drop (if i == 0 then 0 else 1)) s

def nameAside (name : String) (place : Option Place) (s : OpenScope) :
    Attempt (OpenScope × Option Place) :=
  match place with
  | some (.aside node) =>
    if node.name.getD "" == "" then do
      let (s, path) ← commit (node.withName name) s
      return (s, some (OpenScope.placeOf (node.withName name) path))
    else return (s, place)
  | _ => return (s, place)

def declareAwaited (name : String) (s : OpenScope) : Attempt OpenScope :=
  match s.context.typeAlias with
  | some node => do
    let type ← closeUp s.context.run
    commitClaimed ((node.withName name).withChildren (type.toType :: node.children)) s
  | none => return s.update ({ · with claim := none })

def declareDefined (name : String) (s : OpenScope) : Attempt OpenScope := do
  let aliased := s.context.typeAlias.isSome
  let s ← declareAwaited name s
  let (s, record) ← nameAside name s.context.record s
  let s := s.update ({ · with record })
  let (s, enumeration) ← nameAside name s.context.enumeration s
  let s := s.update ({ · with enumeration })
  return s.update fun c =>
    { c with
      run := [], typeAlias := none, record := none, enumeration := none
      claim :=
        if aliased then
          c.claim.map
            (· ++ (OpenScope.claimOnPlace c.record ++ OpenScope.claimOnPlace c.enumeration))
        else none }

/-- Appends a word to the declaration that is being read. -/
def collect (word : String) (s : OpenScope) : Attempt OpenScope := do
  let _ ← pushWord word s.context.startRun.run
  return s.update (·.pushWord word)

def endDeclarator (word : String) (terminator : Char) (s : OpenScope) : Attempt OpenScope := do
  let c := s.context
  let first ← firstFragment c.run
  if c.typeAlias.isSome || c.record.isSome then declareDefined word s
  else if first.text == "typedef" then declareAlias word (c.run.drop 1) s
  else if c.parens == 0 then
    if isLeftOut s.node.kind first.text then return s.update .dropRun
    else do
      let s ← collect word s
      declareVariable terminator s
  else collect word s

def declareConstant (word : String) (s : OpenScope) : Attempt OpenScope := do
  let node ← describeIf s.context.comment (Node.ofName .constant word)
  let s := s.update .takeComment
  match s.context.enumeration with
  | some (.inScope e) => do
    let (s, path) ← commitTo [e] node s
    match path with
    | some path => return s.update ({ · with claim := some [.constant (path.getLastD 0)] })
    | none => return s
  | some (.aside home) => do
    let (s, i, home) ← commitAside home node s
    match i with
    | some i =>
      return s.update ({ · with enumeration := some (.aside home), claim := some [.constant i] })
    | none => return s
  | none => return s

def declarationWord (word : String) (terminator : Char) (s : OpenScope) : Attempt OpenScope :=
  if s.context.run.isEmpty && s.node.kind.isRecord && isAccess (withoutColons word) then
    return s.update ({ · with access := some (withoutColons word) })
  else
    let s := s.update .startRun
    let c := s.context
    let words := c.run.texts
    if c.header.isNone && terminator == '(' && !words.contains "=" && words.head? != some "typedef"
    then startFunction word s
    else if c.inArguments && (terminator == ')' || terminator == ',') then
      if word == "void" && c.run.isEmpty then return s.update .dropRun
      else do
        let s ← collect word s
        return s.update .addArgument
    else if !c.run.isEmpty && c.header.isNone && (terminator == ';' || terminator == ',') then
      endDeclarator word terminator s
    else collect word s

def word (text : String) (terminator : Char) (s : OpenScope) : Attempt OpenScope :=
  let c := s.context
  if c.braces == 0 then declarationWord text terminator s
  else if c.enumeration.isSome then
    if c.inValue then return s
    else do
      let first ← firstCharacter text
      if isDigit first then return s else declareConstant text s
  else return s.update .dropRun

def endHeader (s : OpenScope) : Attempt OpenScope :=
  match s.context.header with
  | some h =>
    if h.typed || s.node.kind.isRecord then commitHeader h s else return s.update .dropHeader
  | none => return s

def declaresVariable (scope : Kind) (c : Context) : Attempt Bool :=
  let words := c.run.texts
  if c.braces == 0 && c.parens == 0 then do
    let declared ← if (words.drop 2).contains "=" then pure true else isFunctionPointer c.run
    return declared && !words.contains "operator" && !words.head?.any (isLeftOut scope)
  else return false

def endRun (s : OpenScope) : Attempt OpenScope :=
  if s.context.run.isEmpty then return s
  else if s.context.run.texts.head? == some "typedef" then finishAlias s
  else do
    let declares ← declaresVariable s.node.kind s.context
    if declares then declareVariable ';' s else return s

def semicolon (s : OpenScope) : Attempt OpenScope := do
  let s ← endHeader s
  let s ← endRun s
  return s.update fun c =>
    let c := { c.dropRun with record := none, base := [] }
    if c.braces == 0 then { c with typeAlias := none, enumeration := none } else c

/-! ## Opening and closing scopes -/

def updateScope (f : OpenScope → Attempt OpenScope) (s : State) : Attempt State := do
  let scope ← f s.scope
  return { s with scope }

def putBack (inner outer : OpenScope) : Attempt OpenScope :=
  match inner.origin with
  | .source => throw .child
  | .record => do
    let place ← require .child outer.context.record
    let _ ← require .child (place.node? outer.node)
    return State.putBack inner outer
  | .nameSpace (some i) => do
    let _ ← nodeAt [i] outer.node
    return State.putBack inner outer
  | .nameSpace none => return State.putBack inner outer

def unwind : OpenScope → List OpenScope → Attempt OpenScope
  | scope, [] => return scope
  | scope, outer :: enclosing => do
    let scope ← putBack scope outer
    unwind scope enclosing

/-- Ends the innermost block whose declarations are recorded, if it is inside of another one. In the
scope of the source a brace ends nothing. The second part of the answer is whether no scope is left
to read on in. -/
def pop (s : State) : Attempt (State × Bool) :=
  match s.scope.suspended with
  | context :: suspended => return ({ s with scope := { s.scope with context, suspended } }, false)
  | [] =>
    if s.scope.origin = .source then return (s, false)
    else
      match s.enclosing with
      | outer :: enclosing => do
        let scope ← putBack s.scope outer
        return ({ s with scope, enclosing }, false)
      | [] => return (s, true)

/-- Takes the keyword and the name of a definition from the run, after `typedef` if that stands
first. -/
def definition (c : Context) : Attempt (Bool × Run × Fragment) := do
  let first ← firstFragment c.run
  let aliased := first.text == "typedef"
  let run := if aliased then c.run.drop 1 else c.run
  let keyword ← firstFragment run
  return (aliased, run, keyword)

/-- The scope when the words of a definition have been taken. -/
def beginDefinition (aliased : Bool) (run : Run) (scope : OpenScope) : Attempt OpenScope := do
  let comment := scope.context.comment
  let typeAlias ←
    if aliased then do
      let node ← describeIf comment { kind := .typeAlias }
      pure (some node)
    else pure none
  let waiting ← if aliased then closeUp run else pure []
  return scope.update fun c =>
    { (if aliased then { c with run := waiting } else c.dropRun).takeComment with typeAlias }

def openRecord (s : State) : Attempt State := do
  let (aliased, run, keyword) ← definition s.scope.context
  let kind ← require .keyword (State.recordKind? keyword.text)
  let attrs : Attributes := {
    name := (run.texts[1]?).map withoutColons
    base := if aliased then none else State.baseOf? (run.texts.drop 2) }
  let node ← describe (s.scope.context.comment.getD "") { kind, attrs }
  let scope ← beginDefinition aliased run s.scope
  let (scope, path) ← commitNamed node scope
  let place := OpenScope.placeOf node path
  let node ← require .child (place.node? scope.node)
  let scope := scope.update ({ · with record := some place, claim := none })
  return { s with scope }.push node .record

def openNameSpace (name : String) (s : State) : Attempt State := do
  let comment := s.scope.context.comment
  let scope := s.scope.update fun c => { c.takeComment.dropRun with claim := none }
  match scope.node.children.findIdx? (Node.isNamed .nameSpace (some name)) with
  | some i => do
    let node ← nodeAt [i] scope.node
    return { s with scope }.push node (.nameSpace (some i))
  | none => do
    let node ← describe (comment.getD "") (Node.ofName .nameSpace name)
    let (scope, path) ← commit node scope
    return { s with scope }.push node (.nameSpace (path.bind (·.head?)))

def openEnumeration (scope : OpenScope) : Attempt OpenScope := do
  let (aliased, run, _) ← definition scope.context
  let node ← describe (scope.context.comment.getD "")
    { kind := .enumType, attrs := { name := run.texts[1]? } }
  let scope ← beginDefinition aliased run scope
  let (scope, path) ← commitNamed node scope
  return scope.update
    ({ · with enumeration := some (OpenScope.placeOf node path), inValue := false })

def openBlock (f : OpenScope → Attempt OpenScope) (s : State) : Attempt State :=
  updateScope (fun scope => do
    let scope ← f scope
    return scope.update fun c => { c with braces := c.braces + 1, claim := none }) s

def isRecordWord (word : String) : Bool := (State.recordKind? word).isSome

def openBrace (s : State) : Attempt State :=
  let c := s.scope.context
  let words := c.run.texts
  let head := words.headD ""
  let second := (words[1]?).getD ""
  match c.header with
  | some h => openBlock (commitHeader h) s
  | none =>
    if isRecordWord head || (head == "typedef" && isRecordWord second) then openRecord s
    else if head == "namespace" && second != "" then openNameSpace second s
    else if 1 < words.length && (head == "enum" || (head == "typedef" && second == "enum")) then
      openBlock openEnumeration s
    else if head == "extern" then return s.openLinkage
    else return s.openBlock (·.update .dropRun)

def closeBrace (s : State) : Attempt (State × Bool) :=
  if 0 < s.scope.context.braces then return (s.update (·.update .afterBlock), false)
  else pop (s.update (·.update .afterBody))

/-! ## Characters -/

def andReadOn (x : Attempt State) : Attempt (State × Bool) := do
  let s ← x
  return (s, false)

def mark (c : Char) (s : State) : Attempt (State × Bool) :=
  match c with
  | '\x7b' => andReadOn (openBrace s)
  | '\x7d' => closeBrace s
  | ';' => andReadOn (updateScope semicolon s)
  | c => return (s.mark c, false)

def plain (c : Char) (s : State) : Attempt (State × Bool) :=
  if c == '\n' || isSpace c || c == '/' then return (s.plain c, false)
  else mark c (s.update (·.update ({ · with joinable := false })))

def endComment (text : List Char) (line : Bool) (s : State) : Attempt State :=
  updateScope (takeComment (String.ofList text) line) (s.enter .plain)

def endBlockComment (text : List Char) (s : State) : Attempt State :=
  endComment (trimEnd (dropEndWhile (· == '*') (trimEnd text.reverse))) false s

def blockComment (text : List Char) (lineStart : Bool) (c : Char) (s : State) : Attempt State :=
  if (lineStart && c == '*') || c == '\n' || (lineStart && isSpace c) then
    return s.blockComment text lineStart c
  else if c == '/' && text.head? == some '*' then endBlockComment (text.drop 1) s
  else return s.enter (.blockComment (c :: text) false)

def endLineComment (text : List Char) (s : State) : Attempt State := do
  let s ← endComment (trim (text.reverse.dropWhile fun c => c == '/' || c == '!')) true s
  return s.update (·.update .endLine)

/-- Reads one character. The second part of the answer is whether it ends the source. -/
def step (s : State) (c : Char) : Attempt (State × Bool) :=
  match s.mode with
  | .plain => plain c s
  | .slash =>
    if c == '*' || c == '/' then return (s.step c, false)
    else
      plain c
        ((s.enter .plain).update (·.update fun c => { c with joinable := false }.pushMark "/"))
  | .blockComment text lineStart => andReadOn (blockComment text lineStart c s)
  | .blockStar text =>
    if c == '/' then andReadOn (endBlockComment text s) else andReadOn (blockComment text true c s)
  | .lineComment text =>
    if c == '\n' then andReadOn (endLineComment text s) else return (s.step c, false)
  | .word text =>
    if State.isWordPart s.scope.context.parens c then return (s.step c, false)
    else do
      let s ← updateScope (word (String.ofList text.reverse) c) (s.enter .plain)
      plain c s
  | _ => return (s.step c, false)

/-- Reads a text up to its end, or to the character that ends the source. The answer has the rest of
the text. -/
def read (s : State) : List Char → Attempt (State × List Char)
  | [] => return (s, [])
  | c :: text => do
    let (s, ended) ← step s c
    if ended then return (s, text) else read s text

/-- Reads a source into a tree. The answer has the tree, what there is to report, and the part of the
source that has not been read. -/
def scan (source : String) (tree : Node) : Attempt ((Node × List Event) × List Char) := do
  let (s, rest) ← read (State.start tree) source.toList
  let scope ← unwind s.scope s.enclosing
  return ((scope.node, scope.events), rest)

end Checked

end HeaderDocs.Scan
