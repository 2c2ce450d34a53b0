import HeaderDocs.Tree.Insert
import HeaderDocs.Tree.Path

/-!
# Moving nodes

A node is in one list of children at most, so adding a node that is already in the tree takes it out
of its old place first. All paths are meant in the tree as it is before the move.

A node may be added before a certain child of its new owner. If that is no child of it, nothing is
added, but the node has been taken out of its old place by then. A node that is moved below itself
is lost with all that is below it.
-/
namespace HeaderDocs.Node

/-- Where a node that is added comes from. -/
inductive Source where
  | new (node : Node)
  | moved (path : Path)

/-- The outcome of a move: the tree, and whether the node could be added. -/
structure Moved where
  tree : Node
  done : Bool

/-- The position of a child of the node at `owner`, if the path leads to one. -/
def positionIn (owner path : Path) : Option Nat :=
  if path.dropLast == owner && !path.isEmpty then path.getLast? else none

/-- Adds a child at a position. -/
def pushAt (tree child : Node) (owner : Path) : Option Nat → Node
  | some i => tree.insertAt child (owner ++ [i])
  | none => tree.modifyAt (·.push child) owner

/-- Adds a node to the one at `owner`, before the child at the path `before` or after all others. -/
def add (tree : Node) (source : Source) (owner : Path) (before : Option Path) : Moved :=
  match source with
  | .new child =>
    match before with
    | none => ⟨tree.pushAt child owner none, true⟩
    | some path =>
      match positionIn owner path with
      | some i => ⟨tree.pushAt child owner (some i), true⟩
      | none => ⟨tree, false⟩
  | .moved from_ =>
    match tree.get? from_ with
    | none => ⟨tree, false⟩
    | some child =>
      let rest := tree.removeAt from_
      let follow (path : Path) := Path.afterRemove? from_ path
      match before with
      | none => ⟨((follow owner).map fun owner => rest.pushAt child owner none).getD rest, true⟩
      | some path =>
        if path == from_ || (positionIn owner path).isNone then ⟨rest, false⟩
        else
          match follow owner, follow path with
          | some owner, some path => ⟨rest.pushAt child owner (positionIn owner path), true⟩
          | _, _ => ⟨rest, true⟩

/-- Adds a node to the one at `owner`, before all its other children. -/
def addFirst (tree : Node) (source : Source) (owner : Path) : Moved :=
  let hasChildren := (tree.get? owner).any (!·.children.isEmpty)
  tree.add source owner (if hasChildren then some (owner ++ [0]) else none)

/-- Inserts a node of the tree into the scope at `owner` in order of name. A node that is in that
scope already stays where it is. -/
def reinsert (tree : Node) (owner from_ : Path) : Moved :=
  if (positionIn owner from_).isSome then ⟨tree, true⟩
  else
    match tree.get? from_, tree.get? owner with
    | some child, some scope =>
      match scope.insertion? child with
      | none => ⟨tree, false⟩
      | some ins =>
        let old := ins.replaced.map fun i => owner ++ [i]
        let tree := (old.map tree.removeAt).getD tree
        let from_ := match old with
          | some old => Path.afterRemove? old from_
          | none => some from_
        let tree' := (from_.map tree.removeAt).getD tree
        let owner := match from_ with
          | some from_ => Path.afterRemove? from_ owner
          | none => some owner
        match owner with
        | some owner => ⟨tree'.insertAt ins.node (owner ++ [ins.position]), true⟩
        | none => ⟨tree', true⟩
    | _, _ => ⟨tree, false⟩

end HeaderDocs.Node
