import HeaderDocs.Proofs.Tree.Arrangement

/-!
# What the nodes of a tree are called

`Named N` says of a node that its name, if it has one, has the property `N`. Descriptions, written
types and pieces of text have no name, so only the nodes that declarations make matter.

* `everywhere_named_describe`: describing a node.
* `everywhere_named_modifyAt`, `everywhere_named_removeAt`: changing the node that a path leads to,
  and taking it out.
* `everywhere_named_insert`: inserting a node into a scope.
-/
namespace HeaderDocs.Node

variable {N : String → Prop} {n m : Node}

/-- The name of a node, if it has one, has the property. -/
def Named (N : String → Prop) (n : Node) : Prop := ∀ name, n.name = some name → N name

theorem named_of_none (h : n.name = none) : n.Named N := by
  intro name hname
  rw [h] at hname
  cases hname

theorem named_of_some {name : String} (h : n.name = some name) (hN : N name) : n.Named N := by
  intro other hother
  cases h.symm.trans hother
  exact hN

theorem Named.of_key (h : n.Named N) (hk : m.key = n.key) : m.Named N := fun name hname =>
  h name (name_eq_of_key hk ▸ hname)

theorem everywhere_named_leaf (h : n.Named N) (hc : n.children = []) : n.Everywhere (Named N) := by
  refine everywhere_iff.mpr ⟨h, fun c hmem => ?_⟩
  rw [hc] at hmem
  cases hmem

/-- A node whose children are some of those of another, and others with names that are right. -/
theorem everywhere_named_of_mem (h : n.Everywhere (Named N)) (hm : m.Named N)
    (hc : ∀ c ∈ m.children, c ∈ n.children ∨ c.Everywhere (Named N)) : m.Everywhere (Named N) :=
  everywhere_iff.mpr ⟨hm, fun c hmem => (hc c hmem).elim h.child id⟩

/-! ## Describing -/

theorem everywhere_named_descriptionOf (text : String) :
    (descriptionOf text).Everywhere (Named N) := by
  refine everywhere_iff.mpr ⟨named_of_none rfl, fun c hc => ?_⟩
  unfold descriptionOf at hc
  dsimp only at hc
  split at hc
  · cases hc
  · rw [List.mem_singleton.mp hc]
    exact everywhere_named_leaf (named_of_none rfl) rfl

theorem everywhere_named_describe (h : n.Everywhere (Named N)) (raw : String) :
    (n.describe raw).Everywhere (Named N) := by
  refine everywhere_named_of_mem h (h.self.of_key (key_describe n raw)) fun c hc => ?_
  rw [children_describe, List.mem_append, List.mem_singleton] at hc
  rcases hc with hc | rfl
  · exact .inl (List.eraseP_sublist.subset hc)
  · exact .inr (everywhere_named_descriptionOf _)

theorem everywhere_named_describeIf (h : n.Everywhere (Named N)) (raw? : Option String) :
    (n.describeIf raw?).Everywhere (Named N) := by
  unfold Node.describeIf
  split
  · exact everywhere_named_describe h _
  · exact h

/-! ## Changes -/

theorem everywhere_named_modifyAt {f : Node → Node}
    (hf : ∀ m : Node, m.Everywhere (Named N) → (f m).Everywhere (Named N))
    (h : n.Everywhere (Named N)) (path : Path) : (n.modifyAt f path).Everywhere (Named N) := by
  induction path generalizing n with
  | nil => exact hf n h
  | cons i path ih =>
    refine everywhere_named_of_mem h h.self fun c hc => ?_
    obtain ⟨j, hj⟩ := List.mem_iff_getElem?.mp hc
    simp only [Node.modifyAt, List.getElem?_modify, Option.map_eq_map, Option.map_eq_some_iff] at hj
    obtain ⟨d, hd, rfl⟩ := hj
    have hmem := List.mem_of_getElem? hd
    split
    · exact .inr (ih (h.child hmem))
    · exact .inl hmem

theorem everywhere_named_removeAt (h : n.Everywhere (Named N)) (path : Path) :
    (n.removeAt path).Everywhere (Named N) := by
  rcases List.eq_nil_or_concat path with rfl | ⟨home, i, rfl⟩
  · exact h
  · rw [List.concat_eq_append, removeAt_concat]
    refine everywhere_named_modifyAt (fun m hm => ?_) h home
    exact everywhere_named_of_mem hm hm.self fun c hc =>
      .inl ((List.eraseIdx_sublist _ _).subset hc)

/-- The node that is inserted for another one has its name and its children. -/
theorem everywhere_named_insertion {scope node : Node} {ins : Insertion}
    (hn : node.Everywhere (Named N)) (hins : scope.insertion? node = some ins) :
    ins.node.Everywhere (Named N) := by
  obtain ⟨hkey, hcs⟩ := Insertion.node_eq hins
  exact everywhere_named_of_mem hn (hn.self.of_key hkey) fun c hc => .inl (hcs ▸ hc)

theorem everywhere_named_insert {ins : Insertion} (h : n.Everywhere (Named N))
    (hins : ins.node.Everywhere (Named N)) :
    (n.withChildren (ins.apply n.children)).Everywhere (Named N) := by
  refine everywhere_named_of_mem h h.self fun c hc => ?_
  rcases List.eq_or_mem_of_mem_insertIdx hc with rfl | hc
  · exact .inr hins
  · left
    split at hc
    · exact (List.eraseIdx_sublist _ _).subset hc
    · exact hc

end HeaderDocs.Node
