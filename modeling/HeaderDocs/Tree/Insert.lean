import HeaderDocs.Tree.Node

/-!
# Ordered insertion

Scopes keep their named children in ascending order of name, and hold at most one child of a kind
and name. `insertion?` works out what inserting a node changes, and `insert?` carries it out.

* `insert?_eq_none_iff`: exactly the nodes without a public name are refused.
-/
namespace HeaderDocs.Node

/-- Whether a name may be recorded: it is not empty and has no leading underscore. -/
def isRecordable (name : String) : Bool :=
  match name.toList with
  | [] => false
  | c :: _ => c != '_'

/-- Whether a child sorts after a name. Children without a name sort nowhere. -/
def sortsAfter (name : String) (child : Node) : Bool :=
  match child.name with
  | some other => decide (name < other)
  | none => false

/-- What inserting a node changes in a list of children: which of them it replaces, and where it
comes to stand once that one is gone. -/
structure Insertion where
  replaced : Option Nat
  position : Nat
  node : Node

def hasScope (n : Node) : Bool := n.scope.isSome && n.scope != some ""

/-- How a node is inserted into a scope. It replaces the first child of its kind and name, from
which it takes the access if it has none, and stands before the first child whose name is
greater. -/
def insertion? (scope node : Node) : Option Insertion :=
  match node.name with
  | none => none
  | some name =>
    if isRecordable name then
      let replaced := scope.children.findIdx? (isNamed node.kind (some name))
      let old := replaced.bind (scope.children[·]?)
      let rest := match replaced with
        | some i => scope.children.eraseIdx i
        | none => scope.children
      let node := match old with
        | some old => if old.hasScope && !node.hasScope then node.withScope old.scope else node
        | none => node
      some { replaced, position := rest.findIdx (sortsAfter name), node }
    else none

def Insertion.apply (ins : Insertion) (children : List Node) : List Node :=
  let rest := match ins.replaced with
    | some i => children.eraseIdx i
    | none => children
  rest.insertIdx ins.position ins.node

/-- Inserts a node into a scope in order of name. -/
def insert? (scope node : Node) : Option Node :=
  (scope.insertion? node).map fun ins => scope.withChildren (ins.apply scope.children)

theorem insert?_eq_none_iff (scope node : Node) :
    scope.insert? node = none ↔ ∀ name, node.name = some name → isRecordable name = false := by
  unfold insert? insertion?
  cases h : node.name with
  | none => simp
  | some name => cases hr : isRecordable name <;> simp [hr]

end HeaderDocs.Node
