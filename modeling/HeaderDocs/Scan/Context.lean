import HeaderDocs.Scan.Declarator
import HeaderDocs.Tree.Description
import HeaderDocs.Tree.Path

/-!
# What is known about the declarations being read

A `Context` is kept for every block of braces whose declarations are recorded. It holds the run of
fragments read so far, comments that wait for their declaration, the function whose header is being
read, and references to nodes that later text can still name or describe.

References are of two kinds. A `Place` is a node that may be given a name or further children: it is
a child of the scope being filled, or kept aside. A `Claim` is a node that a comment on the same
line describes.

Nodes move when their scope changes, so every change of the scope is followed by `afterInsert` or
`afterRemove` on the context.
-/
namespace HeaderDocs.Scan

/-! ## References -/

/-- Where a node is that the declarations still refer to. -/
inductive Place where
  /-- A child of the scope, by position. -/
  | inScope (index : Nat)
  /-- Not in the tree: without a name as yet, refused, or taken out again. -/
  | aside (node : Node)

namespace Place

def node? (scope : Node) : Place → Option Node
  | inScope i => scope.children[i]?
  | aside node => some node

def afterInsert (path : Path) : Place → Place
  | inScope i =>
    match Path.afterInsert path [i] with
    | [j] => inScope j
    | _ => inScope i
  | aside node => aside node

/-- A node that is taken out of the tree is kept aside. -/
def afterRemove (path : Path) (removed : Node) : Place → Place
  | inScope i =>
    match Path.afterRemove? path [i] with
    | some [j] => inScope j
    | some _ => inScope i
    | none => aside removed
  | aside node => aside node

end Place

/-- A node that a comment on the same line describes. -/
inductive Claim where
  /-- A node below the scope. -/
  | recorded (path : Path)
  /-- The last argument of the function whose header is being read. -/
  | argument
  /-- A constant of the enumeration being read, by position. -/
  | constant (index : Nat)
deriving DecidableEq, Repr

namespace Claim

def afterInsert (path : Path) : Claim → Claim
  | recorded place => recorded (Path.afterInsert path place)
  | claim => claim

/-- A claim on a node that is taken out lapses. -/
def afterRemove? (path : Path) : Claim → Option Claim
  | recorded place => (Path.afterRemove? path place).map recorded
  | claim => some claim

end Claim

/-! ## Contexts -/

/-- A function header whose end has not been read. -/
structure Header where
  node : Node
  /-- Whether anything stood before the name. -/
  typed : Bool
  /-- Whether the argument list is still open. -/
  argumentsOpen : Bool := true
  /-- The class or structure that the name is qualified with, if it is known. -/
  home : Option Place := none

structure Context where
  /-- The access that members declared now have. -/
  access : Option String := none
  /-- Blocks of braces that are open in this context and whose declarations are not recorded. -/
  braces : Nat := 0
  parens : Nat := 0
  /-- The declaration being read. -/
  run : Run := []
  /-- A comment inside of the run. -/
  runComment : Option String := none
  /-- The words that the declarators of a list share. -/
  base : Run := []
  /-- A comment that waits for its declaration. -/
  comment : Option String := none
  /-- Whether a line comment continues the waiting one. -/
  joinable : Bool := false
  /-- What a comment on this line describes, if a declaration ended on it. -/
  claim : Option (List Claim) := none
  header : Option Header := none
  /-- The class, structure or union that was defined last in the declaration being read. -/
  record : Option Place := none
  /-- The name being declared for the type that is being defined. -/
  typeAlias : Option Node := none
  enumeration : Option Place := none
  /-- Whether the value of a constant is being read. -/
  inValue : Bool := false

namespace Context

/-- The context of a new block in a scope. Members of a class are private at first. -/
def ofScope (scope : Node) : Context :=
  { access := if scope.kind == .classType then some "private" else none }

/-! ### Keeping references right -/

def afterInsert (path : Path) (c : Context) : Context :=
  { c with
    claim := c.claim.map (·.map (Claim.afterInsert path))
    header := c.header.map fun h => { h with home := h.home.map (Place.afterInsert path) }
    record := c.record.map (Place.afterInsert path)
    enumeration := c.enumeration.map (Place.afterInsert path) }

def afterRemove (path : Path) (removed : Node) (c : Context) : Context :=
  { c with
    claim := c.claim.map (·.filterMap (Claim.afterRemove? path))
    header := c.header.map fun h => { h with home := h.home.map (Place.afterRemove path removed) }
    record := c.record.map (Place.afterRemove path removed)
    enumeration := c.enumeration.map (Place.afterRemove path removed) }

/-! ### The run -/

/-- Starts a run, with the shared words of a list of declarators if one is being read. -/
def startRun (c : Context) : Context :=
  if c.run.isEmpty then { c with run := c.base, base := [] } else c

def dropRun (c : Context) : Context := { c with run := [], runComment := none }

def pushWord (c : Context) (word : String) : Context :=
  let c := c.startRun
  { c with run := c.run.pushWord word }

/-- Appends a mark. Marks do not start a run of their own. -/
def pushMark (c : Context) (mark : String) : Context :=
  let c := c.startRun
  if c.run.isEmpty then c else { c with run := c.run.pushMark mark }

/-- Appends a fragment to a run that has started. -/
def pushIfStarted (c : Context) (text : String) (spaced : Bool) : Context :=
  if c.run.isEmpty then c else { c with run := c.run.push text spaced }

/-- Appends a fragment to a run that has started, or whose shared words are known. -/
def pushFragment (c : Context) (text : String) (spaced : Bool) : Context :=
  c.startRun.pushIfStarted text spaced

/-! ### Comments -/

def takeComment (c : Context) : Context := { c with comment := none, joinable := false }

/-- What ends with a line: a comment on the next one describes nothing of this one. -/
def endLine (c : Context) : Context := { c with claim := none }

/-! ### Function headers -/

/-- Forgets the function header, and the comments inside of it. -/
def dropHeader (c : Context) : Context :=
  { c with
    header := none
    comment := none
    runComment := none
    claim := c.claim.map (·.filter (· != .argument)) }

/-- Turns a claim on the last argument of the header into one on the place where it was recorded, if
it was. -/
def settleArgument (path : Option Path) (c : Context) : Context :=
  let settle : Claim → Option Claim
    | .argument => path.map .recorded
    | claim => some claim
  { c with claim := c.claim.map (·.filterMap settle) }

/-- Ends an argument of the function whose header is being read. -/
def addArgument (c : Context) : Context :=
  match c.header with
  | none => c
  | some h =>
    match Declarator.ofRun? c.run with
    | some d =>
      { c.dropRun with
        header := some { h with node := h.node.push (d.toNode .argument) }
        claim := some [.argument] }
    | none => { c.dropRun with claim := none }

/-- Whether an argument of a function header ends at a comma or parenthesis read now. -/
def inArguments (c : Context) : Bool :=
  match c.header with
  | some h => h.argumentsOpen && c.parens == 1
  | none => false

/-- Ends an argument at a mark. A single word is no argument. -/
def endArgument (c : Context) : Context :=
  if 1 < c.run.length then c.addArgument else c.dropRun

def openParen (c : Context) : Context :=
  let c := c.pushMark "("
  { c with parens := c.parens + 1 }

def closeParen (c : Context) : Context :=
  let c :=
    if c.inArguments then
      let c := c.endArgument
      { c with header := c.header.map ({ · with argumentsOpen := false }) }
    else if 0 < c.parens then c.pushIfStarted ")" false
    else c
  { c with parens := c.parens - 1 }

/-! ### Enumerations -/

/-- Whether the constants of an enumeration are being read. -/
def inEnumeration (c : Context) : Bool := c.enumeration.isSome && 0 < c.braces

def comma (c : Context) : Context :=
  if c.inEnumeration then { c with inValue := false }
  else if c.inArguments then c.endArgument
  else c.pushIfStarted "," false

def equals (c : Context) : Context :=
  if c.inEnumeration then { c with inValue := true } else c.pushMark "="

end Context

end HeaderDocs.Scan
