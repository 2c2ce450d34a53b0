import HeaderDocs.Scan.Context
import HeaderDocs.Tree.Insert

/-!
# Scopes being filled

An `OpenScope` is a node whose body is being read, with the contexts of the blocks that are open in
it: the innermost one, and those suspended by linkage blocks, which declare into the same scope.

Nodes are recorded by `commit`, which refuses those that hide themselves or have no name to record,
and are given a trailing comment or taken out again through the claims of the context.
-/
namespace HeaderDocs.Scan

/-- Something to report about a declaration. -/
inductive Event where
  | recorded (kind : Kind) (name : String)
  | skippedPrivate (kind : Kind) (name : String)
deriving DecidableEq, Repr

/-- Where a scope goes when its body has been read. -/
inductive Origin where
  /-- The source itself. -/
  | source
  /-- The record of the context that opened the scope. -/
  | record
  /-- A namespace, by its position in the enclosing scope if it has been recorded. -/
  | nameSpace (index : Option Nat)
deriving DecidableEq, Repr

structure OpenScope where
  node : Node
  origin : Origin
  /-- Whether the node is still to be put back: a hidden record is not. -/
  attached : Bool := true
  context : Context
  suspended : List Context := []
  /-- What has been recorded directly in the node since its body began, in order; that it was taken
  out again does not matter. -/
  declared : List (Kind × String) := []
  events : List Event := []

namespace OpenScope

/-- The scope of a node whose body begins. -/
def begin (node : Node) (origin : Origin) : OpenScope :=
  { node, origin, context := .ofScope node }

/-- Changes the innermost context. -/
def update (f : Context → Context) (s : OpenScope) : OpenScope := { s with context := f s.context }

def note (event : Event) (s : OpenScope) : OpenScope := { s with events := s.events ++ [event] }

/-- Keeps account of a node that was recorded in the one that `home` leads to. -/
def noteRecorded (home : Path) (kind : Kind) (name : String) (s : OpenScope) : OpenScope :=
  let s := s.note (.recorded kind name)
  if home.isEmpty then { s with declared := s.declared ++ [(kind, name)] } else s

/-! ## Changing the scope -/

/-- Applies a function to every context of the scope. -/
def mapContexts (f : Context → Context) (s : OpenScope) : OpenScope :=
  { s with context := f s.context, suspended := s.suspended.map f }

/-- Puts a node into the scope so that the path leads to it. -/
def insertAt (path : Path) (new : Node) (s : OpenScope) : OpenScope :=
  let s := s.mapContexts (.afterInsert path)
  { s with node := s.node.insertAt new path }

/-- Takes the node out that the path leads to. -/
def removeAt (path : Path) (s : OpenScope) : OpenScope :=
  match s.node.get? path with
  | some removed =>
    let s := s.mapContexts (.afterRemove path removed)
    { s with node := s.node.removeAt path }
  | none => s

def modifyAt (f : Node → Node) (path : Path) (s : OpenScope) : OpenScope :=
  { s with node := s.node.modifyAt f path }

/-- Describes the scope itself, whose description becomes its last child. -/
def describe (raw : String) (s : OpenScope) : OpenScope :=
  let described := s.node.describe raw
  let s := match s.node.children.findIdx? (Node.isKind .description) with
    | some i => s.removeAt [i]
    | none => s
  { s with node := described }

/-! ## Recording -/

/-- Records a node below the scope, in the node that `home` leads to. The answer is the path to the
recorded node, if it was recorded. -/
def commitTo (home : Path) (node : Node) (s : OpenScope) : OpenScope × Option Path :=
  let name := node.name.getD ""
  if node.isPrivate then (s.note (.skippedPrivate node.kind name), none)
  else
    match (s.node.get? home).bind (·.insertion? node) with
    | none => (s, none)
    | some ins =>
      let s := match ins.replaced with
        | some i => s.removeAt (home ++ [i])
        | none => s
      let path := home ++ [ins.position]
      ((s.insertAt path ins.node).noteRecorded home node.kind name, some path)

def commit (node : Node) (s : OpenScope) : OpenScope × Option Path := s.commitTo [] node

def commitNamed (node : Node) (s : OpenScope) : OpenScope × Option Path :=
  if node.name.getD "" == "" then (s, none) else s.commit node

/-- Records a node in one that is kept aside, which is the last one in the answer. -/
def commitAside (home node : Node) (s : OpenScope) : OpenScope × Option Nat × Node :=
  let name := node.name.getD ""
  if node.isPrivate then (s.note (.skippedPrivate node.kind name), none, home)
  else
    match home.insertion? node with
    | none => (s, none, home)
    | some ins =>
      (s.note (.recorded node.kind name), some ins.position,
        home.withChildren (ins.apply home.children))

def placeOf (node : Node) : Option Path → Place
  | some [i] => .inScope i
  | _ => .aside node

/-- The claim on a node that was to be recorded. A comment on its line is used up even if it was
not. -/
def claimOn (path : Option Path) : Option (List Claim) := some (path.toList.map .recorded)

/-- The claim on a node that may be kept aside, where no comment reaches it. -/
def claimOnPlace : Option Place → List Claim
  | some (.inScope i) => [.recorded [i]]
  | _ => []

/-- Records the function whose header has been read, and forgets the header. Until the line ends its
last argument can still be described. -/
def commitHeader (h : Header) (s : OpenScope) : OpenScope :=
  let recorded : OpenScope × Option Path := match h.home with
    | none => s.commit h.node
    | some (.inScope i) => s.commitTo [i] h.node
    | some (.aside home) => ((s.commitAside home h.node).1, none)
  let argument := recorded.2.map (· ++ [h.node.children.length - 1])
  recorded.1.update fun c => (c.settleArgument argument).dropHeader.dropRun

/-! ## Claims -/

def describeClaim (raw : String) (s : OpenScope) : Claim → OpenScope
  | .recorded path => s.modifyAt (·.describe raw) path
  | .argument =>
    s.update fun c => { c with header := c.header.map fun h =>
      { h with node := h.node.modifyAt (·.describe raw) [h.node.children.length - 1] } }
  | .constant i =>
    match s.context.enumeration with
    | some (.inScope e) => s.modifyAt (·.describe raw) [e, i]
    | some (.aside node) =>
      s.update ({ · with enumeration := some (.aside (node.modifyAt (·.describe raw) [i])) })
    | none => s

/-- Takes a claimed node out again. -/
def withdrawClaim (s : OpenScope) : Claim → OpenScope
  | .recorded path => s.removeAt path
  | .argument =>
    s.update fun c => { c with header := c.header.map fun h =>
      { h with node := h.node.removeAt [h.node.children.length - 1] } }
  | .constant i =>
    match s.context.enumeration with
    | some (.inScope e) => s.removeAt [e, i]
    | some (.aside node) =>
      s.update ({ · with enumeration := some (.aside (node.removeAt [i])) })
    | none => s

/-- Takes the first `count` claimed nodes out. The claims that are left follow the changes. -/
def withdrawFirst : Nat → OpenScope → OpenScope
  | 0, s => s
  | count + 1, s =>
    match s.context.claim with
    | some (claim :: claims) =>
      withdrawFirst count ((s.update ({ · with claim := some claims })).withdrawClaim claim)
    | _ => s

/-- Gives a comment to the claimed nodes: a private one takes them out, any other describes them. -/
def settleClaims (raw : String) (claims : List Claim) (s : OpenScope) : OpenScope :=
  let s :=
    if Comment.isPrivate raw then withdrawFirst claims.length s
    else claims.foldl (describeClaim raw) s
  s.update ({ · with claim := none, joinable := false })

/-! ## Comments -/

/-- Takes a comment that has been read. It goes to the first that there is of these: a declaration
that ended on the same line; the record whose body begins; the return value that is being declared;
the next declaration. -/
def takeComment (text : String) (line : Bool) (s : OpenScope) : OpenScope :=
  let c := s.context
  if text.isEmpty then s
  else
    match c.claim with
    | some claims => s.settleClaims text claims
    | none =>
      if c.braces == 0 && s.node.kind.isRecord && s.node.descriptionText.isEmpty then
        let s := s.describe text
        if Comment.isPrivate text then { s with attached := false } else s
      else if !c.run.isEmpty && c.header.isNone && !c.inEnumeration then
        s.update ({ · with runComment := some text })
      else
        let joined := match c.comment with
          | some before => if line && c.joinable then before ++ "\n" ++ text else text
          | none => text
        s.update ({ · with comment := some joined, joinable := line })

end OpenScope

end HeaderDocs.Scan
