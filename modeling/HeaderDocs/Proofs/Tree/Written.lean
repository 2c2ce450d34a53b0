import HeaderDocs.Proofs.Tree.Arrangement

/-!
# What types and descriptions are made of

A written type is made of words and marks, a description of prose. `Written P Q` says so of a node, where
the words have the property `P` and the prose has the property `Q`; pieces of text hold nothing. Types,
descriptions and pieces may have been described themselves, and a node of any other kind may hold
anything.

* `everywhere_written_describeAt`, `everywhere_written_removeAt`: describing the node that a path leads
  to, and taking it out.
* `everywhere_written_insert`: inserting a node into a scope.
-/
namespace HeaderDocs.Node

/-- The text is made of characters with the property. -/
def Made (R : Char → Prop) (text : String) : Prop := ∀ c ∈ text.toList, R c

theorem made_ofList {R : Char → Prop} {cs : List Char} (h : ∀ c ∈ cs, R c) :
    Made R (String.ofList cs) := by
  intro c hc
  rw [String.toList_ofList] at hc
  exact h c hc

variable {P Q : String → Prop} {n m : Node}

/-- Whether a node of the kind may hold the child. -/
def MayHold (P Q : String → Prop) (kind : Kind) (c : Node) : Prop :=
  match kind with
  | .typeExpr => c.kind = .word ∧ P c.content ∨ c.kind = .description
  | .description => c.kind = .prose ∧ Q c.content ∨ c.kind = .description
  | .word | .prose => c.kind = .description
  | _ => True

/-- Types hold words with the property `P`, and descriptions prose with the property `Q`. -/
def Written (P Q : String → Prop) (n : Node) : Prop := ∀ c ∈ n.children, MayHold P Q n.kind c

theorem mayHold_description (kind : Kind) {c : Node} (h : c.kind = .description) :
    MayHold P Q kind c := by
  cases kind <;> first | exact .inr h | exact h | trivial

theorem mayHold_scope {kind : Kind} (h : kind.isScope = true) (c : Node) : MayHold P Q kind c := by
  cases kind <;> trivial

/-- All that a node looks like to the node that holds it. -/
def look (n : Node) : Kind × String := (n.kind, n.content)

theorem MayHold.of_look {kind : Kind} {c d : Node} (h : MayHold P Q kind c) (he : d.look = c.look) :
    MayHold P Q kind d := by
  obtain ⟨hk, hc⟩ := Prod.mk.inj he
  unfold MayHold at h ⊢
  rw [hk, hc]
  exact h

theorem written_of_look (m n : Node) (hk : m.kind = n.kind)
    (hcs : m.children.map look = n.children.map look) (h : m.Written P Q) : n.Written P Q := by
  intro d hd
  obtain ⟨c, hc, he⟩ := List.mem_map.mp (hcs ▸ List.mem_map_of_mem hd : d.look ∈ m.children.map look)
  exact hk ▸ (h c hc).of_look he.symm

/-- A node whose children are some of those of another, and others that it may hold. -/
theorem everywhere_written_of_mem (h : n.Everywhere (Written P Q)) (hk : m.kind = n.kind)
    (hm : ∀ c ∈ m.children,
      c ∈ n.children ∨ MayHold P Q n.kind c ∧ c.Everywhere (Written P Q)) :
    m.Everywhere (Written P Q) := by
  refine everywhere_iff.mpr ⟨fun c hc => ?_, fun c hc => ?_⟩
  · rw [hk]
    exact (hm c hc).elim (h.self c) And.left
  · exact (hm c hc).elim h.child And.right

/-- Only the kind and the children of a node matter. -/
theorem everywhere_written_congr (h : n.Everywhere (Written P Q)) (hk : m.kind = n.kind)
    (hc : m.children = n.children) : m.Everywhere (Written P Q) :=
  everywhere_written_of_mem h hk fun _ hm => .inl (hc ▸ hm)

/-! ## Nodes that are made -/

theorem everywhere_written_leaf (h : n.children = []) : n.Everywhere (Written P Q) := by
  refine everywhere_iff.mpr ⟨fun c hc => ?_, fun c hc => ?_⟩ <;>
  · rw [h] at hc
    cases hc

theorem everywhere_written_descriptionOf {text : String} (h : Q text) :
    (descriptionOf text).Everywhere (Written P Q) := by
  have hmem : ∀ c ∈ (descriptionOf text).children, c = prose text := by
    unfold descriptionOf
    dsimp only
    split
    · exact nofun
    · exact fun c hc => List.mem_singleton.mp hc
  refine everywhere_iff.mpr ⟨fun c hc => ?_, fun c hc => ?_⟩
  · rw [hmem c hc]
    exact .inl ⟨rfl, h⟩
  · rw [hmem c hc]
    exact everywhere_written_leaf rfl

/-! ## Changes -/

theorem look_describe (n : Node) (raw : String) : (n.describe raw).look = n.look := by
  unfold Node.describe
  dsimp only
  split <;> rfl

theorem everywhere_written_describe (h : n.Everywhere (Written P Q)) {raw : String}
    (hraw : Q (Comment.normalize raw).text) : (n.describe raw).Everywhere (Written P Q) := by
  refine everywhere_written_of_mem h (kind_describe n raw) fun c hc => ?_
  rw [children_describe, List.mem_append, List.mem_singleton] at hc
  rcases hc with hc | rfl
  · exact .inl (List.eraseP_sublist.subset hc)
  · exact .inr ⟨mayHold_description _ rfl, everywhere_written_descriptionOf hraw⟩

/-- A change of the node that a path leads to, which looks the same afterwards. -/
theorem everywhere_written_modifyAt {f : Node → Node} {path : Path}
    (h : n.Everywhere (Written P Q))
    (hf : ∀ m, n.get? path = some m → (f m).Everywhere (Written P Q) ∧ (f m).look = m.look) :
    (n.modifyAt f path).Everywhere (Written P Q) :=
  (h.modifyAt_of_look (fun _ _ => rfl) written_of_look hf).1

theorem everywhere_written_describeAt (h : n.Everywhere (Written P Q)) {raw : String}
    (hraw : Q (Comment.normalize raw).text) (path : Path) :
    (n.modifyAt (·.describe raw) path).Everywhere (Written P Q) :=
  everywhere_written_modifyAt h fun m hm =>
    ⟨everywhere_written_describe (h.get? hm) hraw, look_describe m raw⟩

theorem everywhere_written_removeAt (h : n.Everywhere (Written P Q)) (path : Path) :
    (n.removeAt path).Everywhere (Written P Q) := by
  rcases List.eq_nil_or_concat path with rfl | ⟨home, i, rfl⟩
  · exact h
  · rw [List.concat_eq_append, removeAt_concat]
    refine everywhere_written_modifyAt h fun m hm => ⟨?_, rfl⟩
    exact everywhere_written_of_mem (h.get? hm) rfl fun c hc =>
      .inl ((List.eraseIdx_sublist _ _).subset hc)

theorem everywhere_written_insert {scope node : Node} {ins : Insertion}
    (h : scope.Everywhere (Written P Q)) (hs : scope.kind.isScope = true)
    (hn : node.Everywhere (Written P Q)) (hins : scope.insertion? node = some ins) :
    (scope.withChildren (ins.apply scope.children)).Everywhere (Written P Q) := by
  obtain ⟨hkey, hcs⟩ := Insertion.node_eq hins
  refine everywhere_written_of_mem h rfl fun c hc => ?_
  rcases List.eq_or_mem_of_mem_insertIdx hc with rfl | hc
  · exact .inr ⟨mayHold_scope hs _, everywhere_written_congr hn (kind_eq_of_key hkey) hcs⟩
  · left
    split at hc
    · exact (List.eraseIdx_sublist _ _).subset hc
    · exact hc

/-- Putting another node in the place of a child of a scope. -/
theorem everywhere_written_replace {scope node : Node} (h : scope.Everywhere (Written P Q))
    (hs : scope.kind.isScope = true) (hn : node.Everywhere (Written P Q)) (i : Nat) :
    (scope.modifyAt (fun _ => node) [i]).Everywhere (Written P Q) := by
  refine everywhere_written_of_mem (n := scope) h rfl fun c hc => ?_
  obtain ⟨j, hj⟩ := List.mem_iff_getElem?.mp hc
  simp only [Node.modifyAt, List.getElem?_modify, Option.map_eq_map, Option.map_eq_some_iff] at hj
  obtain ⟨d, hd, rfl⟩ := hj
  split
  · exact .inr ⟨mayHold_scope hs _, hn⟩
  · exact .inl (List.mem_of_getElem? hd)

end HeaderDocs.Node
