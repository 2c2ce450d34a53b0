import HeaderDocs.Tree.Node

/-!
# Places in a tree

A path leads from a node to one below it by positions in the lists of children. Inserting or
removing a node moves others, and `Path.afterInsert` and `Path.afterRemove?` say where a path leads
then.

* `get?_insertAt_afterInsert`: a path adjusted to an insertion leads to the same node as before.
-/
namespace HeaderDocs

/-- Positions in the lists of children, from the outside in. -/
abbrev Path := List Nat

namespace Path

/-- Where a path leads after a node was inserted at `place`. -/
def afterInsert : (place path : Path) → Path
  | [], path => path
  | _ :: _, [] => []
  | [i], j :: path => (if i ≤ j then j + 1 else j) :: path
  | i :: k :: place, j :: path => if i = j then j :: afterInsert (k :: place) path else j :: path

/-- Where a path leads after the node at `place` was removed. No path leads into the removed
subtree. -/
def afterRemove? : (place path : Path) → Option Path
  | [], _ => none
  | _ :: _, [] => some []
  | [i], j :: path =>
    if i = j then none else some ((if i < j then j - 1 else j) :: path)
  | i :: k :: place, j :: path =>
    if i = j then (afterRemove? (k :: place) path).map (j :: ·) else some (j :: path)

end Path

namespace Node

def get? (n : Node) : Path → Option Node
  | [] => some n
  | i :: path =>
    match n.children[i]? with
    | some c => c.get? path
    | none => none

/-- Changes the node a path leads to. -/
def modifyAt (n : Node) (f : Node → Node) : Path → Node
  | [] => f n
  | i :: path => { n with children := n.children.modify i fun c => c.modifyAt f path }

/-- Takes the node out that a path leads to. The root itself cannot be taken out. -/
def removeAt (n : Node) : Path → Node
  | [] => n
  | [i] => { n with children := n.children.eraseIdx i }
  | i :: j :: path => { n with children := n.children.modify i fun c => c.removeAt (j :: path) }

/-- Puts a node in so that the path leads to it. -/
def insertAt (n : Node) (new : Node) : Path → Node
  | [] => n
  | [i] => { n with children := n.children.insertIdx i new }
  | i :: j :: path => { n with children := n.children.modify i fun c => c.insertAt new (j :: path) }

/-! ## Lemmas -/

@[simp] theorem get?_nil (n : Node) : n.get? [] = some n := rfl

/-- A path adjusted to the insertion of a child leads to the same node as before. -/
theorem get?_insertAt_afterInsert (new n m : Node) (i j : Nat) (path : Path)
    (h : n.get? (j :: path) = some m) :
    (n.insertAt new [i]).get? (Path.afterInsert [i] (j :: path)) = some m := by
  simp only [get?] at h
  simp only [insertAt, Path.afterInsert, get?]
  by_cases hij : i ≤ j
  · simp only [hij, if_true]
    rw [List.getElem?_insertIdx_of_gt (by omega), Nat.add_sub_cancel]
    exact h
  · simp only [hij, if_false]
    rw [List.getElem?_insertIdx_of_lt (by omega)]
    exact h

end Node

end HeaderDocs
