import HeaderDocs.Tree.Path

/-!
# What holds of every node of a tree

`Everywhere P n` says that `P` holds of `n` and of all nodes below it. Many properties of a node
look only at its own kind and at the kinds and names of its children (`IsLocal`). Such a property
is kept everywhere when a node deep in the tree is changed, as long as that node keeps its own kind
and name.

* `everywhere_iff`: the property of the node and of its children, one level at a time.
* `Everywhere.modifyAt`: changing the node that a path leads to.
-/
namespace HeaderDocs.Node

variable {P : Node → Prop}

/-! ## Walking, one level at a time -/

theorem mem_walkAll_iff {m : Node} {ns : List Node} : m ∈ walkAll ns ↔ ∃ n ∈ ns, m ∈ n.walk := by
  induction ns with
  | nil => simp [walkAll]
  | cons n ns ih => simp [walkAll, ih]

theorem mem_walk_iff {m n : Node} : m ∈ n.walk ↔ m = n ∨ ∃ c ∈ n.children, m ∈ c.walk := by
  cases n
  simp only [walk, List.mem_cons, mem_walkAll_iff]

theorem self_mem_walk (n : Node) : n ∈ n.walk := mem_walk_iff.mpr (.inl rfl)

/-- What holds of a node if it holds of its children, holds of every node. -/
theorem childInduction {motive : Node → Prop} (h : ∀ n, (∀ c ∈ n.children, motive c) → motive n)
    (n : Node) : motive n :=
  h n fun c _ => childInduction h c
termination_by n
decreasing_by
  have := List.sizeOf_lt_of_mem ‹c ∈ n.children›
  cases n
  simp only [Node.mk.sizeOf_spec] at *
  omega

/-! ## Properties of every node -/

/-- The property holds of a node and of all nodes below it. -/
def Everywhere (P : Node → Prop) (n : Node) : Prop := ∀ m ∈ n.walk, P m

theorem everywhere_iff {n : Node} : n.Everywhere P ↔ P n ∧ ∀ c ∈ n.children, c.Everywhere P := by
  constructor
  · intro h
    refine ⟨h n n.self_mem_walk, fun c hc m hm => h m ?_⟩
    exact mem_walk_iff.mpr (.inr ⟨c, hc, hm⟩)
  · rintro ⟨hn, hcs⟩ m hm
    rcases mem_walk_iff.mp hm with rfl | ⟨c, hc, hm⟩
    · exact hn
    · exact hcs c hc m hm

namespace Everywhere

variable {n : Node}

theorem self (h : n.Everywhere P) : P n := (everywhere_iff.mp h).1

theorem child (h : n.Everywhere P) {c : Node} (hc : c ∈ n.children) : c.Everywhere P :=
  (everywhere_iff.mp h).2 c hc

/-- What holds of every node of a tree holds of every node below one of its nodes. -/
theorem of_mem_walk (h : n.Everywhere P) {m : Node} (hm : m ∈ n.walk) : m.Everywhere P := by
  induction n using childInduction with
  | h n ih =>
    rcases mem_walk_iff.mp hm with rfl | ⟨c, hc, hm⟩
    · exact h
    · exact ih c hc (h.child hc) hm

theorem get? (h : n.Everywhere P) {path : Path} {m : Node} (hm : n.get? path = some m) :
    m.Everywhere P := by
  induction path generalizing n with
  | nil => cases hm; exact h
  | cons i path ih =>
    simp only [Node.get?] at hm
    split at hm
    · rename_i c hc
      exact ih (h.child (List.mem_of_getElem? hc)) hm
    · cases hm

end Everywhere

/-! ## Local properties -/

/-- The kind and the name of a node. -/
def key (n : Node) : Kind × Option String := (n.kind, n.name)

theorem kind_eq_of_key {m n : Node} (h : m.key = n.key) : m.kind = n.kind := congrArg Prod.fst h

theorem name_eq_of_key {m n : Node} (h : m.key = n.key) : m.name = n.name := congrArg Prod.snd h

/-- A property that only the kind of a node and the kinds and names of its children decide. -/
def IsLocal (P : Node → Prop) : Prop :=
  ∀ m n : Node, m.kind = n.kind → m.children.map key = n.children.map key → P m → P n

/-! ### What changes no kind and no name -/

/-- Changing a node below a path changes no kind and no name above it. -/
theorem key_modifyAt {f : Node → Node} (hf : ∀ m, (f m).key = m.key) (n : Node) (path : Path) :
    (n.modifyAt f path).key = n.key := by
  cases path with
  | nil => exact hf n
  | cons i path => rfl

theorem key_insertAt (n new : Node) (path : Path) : (n.insertAt new path).key = n.key := by
  match path with
  | [] => rfl
  | [_] => rfl
  | _ :: _ :: _ => rfl

theorem key_removeAt (n : Node) (path : Path) : (n.removeAt path).key = n.key := by
  match path with
  | [] => rfl
  | [_] => rfl
  | _ :: _ :: _ => rfl

theorem scope_insertAt (n new : Node) (path : Path) : (n.insertAt new path).scope = n.scope := by
  match path with
  | [] => rfl
  | [_] => rfl
  | _ :: _ :: _ => rfl

theorem scope_removeAt (n : Node) (path : Path) : (n.removeAt path).scope = n.scope := by
  match path with
  | [] => rfl
  | [_] => rfl
  | _ :: _ :: _ => rfl

theorem map_modify_eq {α β : Type} {g : α → β} {f : α → α} {i : Nat} {cs : List α}
    (h : ∀ c, cs[i]? = some c → g (f c) = g c) : (cs.modify i f).map g = cs.map g := by
  apply List.ext_getElem?
  intro j
  simp only [List.getElem?_map, List.getElem?_modify]
  by_cases hij : i = j
  · subst hij
    cases hc : cs[i]? with
    | none => rfl
    | some c => simp [h c hc]
  · simp [hij]

variable {n : Node} {f : Node → Node} {path : Path}

/-- A property that the kind of a node and what its children look like decide is kept everywhere by a
change of the node that a path leads to, if that node looks the same. -/
theorem Everywhere.modifyAt_of_look {α : Type} {look : Node → α}
    (hlook : ∀ (n : Node) (cs : List Node), look (n.withChildren cs) = look n)
    (hP : ∀ m n : Node, m.kind = n.kind → m.children.map look = n.children.map look → P m → P n)
    (h : n.Everywhere P)
    (hf : ∀ m, n.get? path = some m → (f m).Everywhere P ∧ look (f m) = look m) :
    (n.modifyAt f path).Everywhere P ∧ look (n.modifyAt f path) = look n := by
  induction path generalizing n with
  | nil => exact hf n rfl
  | cons i path ih =>
    refine ⟨?_, hlook n _⟩
    have hchild : ∀ c, n.children[i]? = some c →
        (c.modifyAt f path).Everywhere P ∧ look (c.modifyAt f path) = look c := by
      intro c hc
      refine ih (h.child (List.mem_of_getElem? hc)) fun m hm => hf m ?_
      simp only [Node.get?, hc, hm]
    rw [everywhere_iff]
    constructor
    · exact hP n _ rfl (map_modify_eq (g := look) fun c hc => (hchild c hc).2).symm h.self
    · intro c hc
      obtain ⟨j, hj⟩ := List.mem_iff_getElem?.mp hc
      simp only [Node.modifyAt, List.getElem?_modify, Option.map_eq_map,
        Option.map_eq_some_iff] at hj
      obtain ⟨d, hd, rfl⟩ := hj
      split
      · rename_i hij
        subst hij
        exact (hchild d hd).1
      · exact h.child (List.mem_of_getElem? hd)

/-- A local property is kept everywhere by a change of the node that a path leads to. -/
theorem Everywhere.modifyAt (hP : IsLocal P) (h : n.Everywhere P)
    (hf : ∀ m, n.get? path = some m → (f m).Everywhere P ∧ (f m).key = m.key) :
    (n.modifyAt f path).Everywhere P ∧ (n.modifyAt f path).key = n.key :=
  h.modifyAt_of_look (fun _ _ => rfl) hP hf

/-! ## Paths and changes -/

theorem get?_append (n : Node) (path rest : Path) :
    n.get? (path ++ rest) = (n.get? path).bind (·.get? rest) := by
  induction path generalizing n with
  | nil => rfl
  | cons i path ih =>
    simp only [List.cons_append, Node.get?]
    cases n.children[i]? with
    | none => rfl
    | some c => exact ih c

theorem get?_modifyAt (n : Node) (f : Node → Node) (path : Path) :
    (n.modifyAt f path).get? path = (n.get? path).map f := by
  induction path generalizing n with
  | nil => rfl
  | cons i path ih =>
    simp only [Node.modifyAt, Node.get?, List.getElem?_modify, if_true]
    cases n.children[i]? with
    | none => rfl
    | some c => exact ih c

theorem modifyAt_modifyAt (n : Node) (f g : Node → Node) (path : Path) :
    (n.modifyAt f path).modifyAt g path = n.modifyAt (fun m => g (f m)) path := by
  induction path generalizing n with
  | nil => rfl
  | cons i path ih => simp only [Node.modifyAt, List.modify_modify_eq, Function.comp_def, ih]

theorem withChildren_self (n : Node) : n.withChildren n.children = n := by
  cases n
  rfl

/-- Where a path leads nowhere there is nothing to take out. -/
theorem removeAt_of_get?_none {n : Node} {path : Path} (h : n.get? path = none) :
    n.removeAt path = n := by
  induction path generalizing n with
  | nil => rfl
  | cons i path ih =>
    simp only [Node.get?] at h
    cases path with
    | nil =>
      split at h
      · cases h
      · rename_i hi
        rw [Node.removeAt, List.eraseIdx_of_length_le (List.getElem?_eq_none_iff.mp hi)]
        exact n.withChildren_self
    | cons j path =>
      have : n.children.modify i (fun c => c.removeAt (j :: path)) = n.children := by
        apply List.ext_getElem?
        intro k
        rw [List.getElem?_modify]
        by_cases hik : i = k
        · subst hik
          cases hc : n.children[i]? with
          | none => rfl
          | some c =>
            rw [hc] at h
            simp [ih h]
        · simp [hik]
      rw [Node.removeAt, this]
      exact n.withChildren_self

/-! ## Inserting and removing as changes of the node around -/

theorem insertAt_concat (n new : Node) (home : Path) (i : Nat) :
    n.insertAt new (home ++ [i]) =
      n.modifyAt (fun m => m.withChildren (m.children.insertIdx i new)) home := by
  induction home generalizing n with
  | nil => rfl
  | cons j home ih =>
    cases home with
    | nil => rfl
    | cons k home =>
      simp only [List.cons_append, Node.insertAt, Node.modifyAt] at ih ⊢
      simp only [ih]

theorem removeAt_concat (n : Node) (home : Path) (i : Nat) :
    n.removeAt (home ++ [i]) =
      n.modifyAt (fun m => m.withChildren (m.children.eraseIdx i)) home := by
  induction home generalizing n with
  | nil => rfl
  | cons j home ih =>
    cases home with
    | nil => rfl
    | cons k home =>
      simp only [List.cons_append, Node.removeAt, Node.modifyAt] at ih ⊢
      simp only [ih]

end HeaderDocs.Node
