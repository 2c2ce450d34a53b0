import HeaderDocs.Proofs.Tree.Arrangement

/-!
# Descriptions that comments have given

Functions, scopes and return values are given a description when they are declared, which is empty
where there is no comment. Nodes of some other kinds are described by comments only
(`Kind.isCommented`). `Commented Q` says of a node that its descriptions are what is left of comments
with the property `Q`, or empty if the kind of the node allows for that.

* `everywhere_commented_modifyAt`: a change of the node that a path leads to, which reads as before.
* `everywhere_commented_removeAt`: taking out a node that is no piece of the text of a description.
* `everywhere_commented_insert`: inserting a node into a scope.
-/
namespace HeaderDocs

/-- Kinds of nodes that have a description only if a comment has given them one. -/
def Kind.isCommented : Kind → Bool
  | .constant | .typeAlias | .var | .argument => true
  | _ => false

theorem Kind.not_isCommented_of_isScope {kind : Kind} (h : kind.isScope = true) :
    kind.isCommented = false := by
  cases kind <;> first | rfl | cases h

namespace Node

/-- A text is what is left of a comment with the property, or there was no comment. -/
def Explained (Q : String → Prop) (kind : Kind) (text : String) : Prop :=
  (kind.isCommented = false ∧ text = "") ∨ ∃ raw, Q raw ∧ text = (Comment.normalize raw).text

/-- The descriptions of a node come from comments with the property. -/
def Commented (Q : String → Prop) (n : Node) : Prop :=
  ∀ d ∈ n.children, d.kind = .description → Explained Q n.kind d.text

variable {Q : String → Prop} {n m : Node}

/-- A node is changed, and the text around it and the text of a description stay the same. -/
structure ReadsAs (before after : Node) : Prop where
  kind : after.kind = before.kind
  content : after.content = before.content
  spaced : after.spaced = before.spaced
  text : before.kind = .description → after.text = before.text

theorem ReadsAs.refl (n : Node) : n.ReadsAs n := ⟨rfl, rfl, rfl, fun _ => rfl⟩

/-- What a node adds to the text of the node that holds it. -/
def piece (n : Node) : Kind × String × Bool := (n.kind, n.content, n.spaced)

theorem ReadsAs.piece_eq (h : n.ReadsAs m) : m.piece = n.piece := by
  simp only [piece, h.kind, h.content, h.spaced]

/-- The text of a list of nodes is decided by what each of them adds. -/
theorem joinText_eq_of_pieces {before after : List Node} (h : after.map piece = before.map piece) :
    joinText after = joinText before := by
  have hrest : ∀ {xs ys : List Node}, ys.map piece = xs.map piece →
      ys.foldr joinText.separated "" = xs.foldr joinText.separated "" := by
    intro xs ys hxs
    induction xs generalizing ys with
    | nil =>
      obtain rfl := List.map_eq_nil_iff.mp hxs
      rfl
    | cons x xs ih =>
      obtain ⟨y, ys, rfl, hy, hys⟩ := List.map_eq_cons_iff.mp hxs
      simp only [piece, Prod.mk.injEq] at hy
      simp only [List.foldr_cons, joinText.separated, hy, ih hys]
  cases before with
  | nil =>
    obtain rfl := List.map_eq_nil_iff.mp h
    rfl
  | cons x xs =>
    obtain ⟨y, ys, rfl, hy, hys⟩ := List.map_eq_cons_iff.mp h
    simp only [piece, Prod.mk.injEq] at hy
    rw [joinText, joinText, hrest hys, hy.2.1]

theorem map_piece_filter (cs : List Node) :
    (cs.filter (·.kind.isText)).map piece = (cs.map piece).filter (·.1.isText) := by
  rw [List.filter_map]
  rfl

/-- The text of a node is decided by what its children add to it. -/
theorem text_eq_of_pieces (h : m.children.map piece = n.children.map piece) : m.text = n.text := by
  refine joinText_eq_of_pieces ?_
  rw [map_piece_filter, map_piece_filter, h]

theorem filter_eraseIdx {q : Node → Bool} {cs : List Node} {i : Nat}
    (h : ∀ c, cs[i]? = some c → q c = false) : (cs.eraseIdx i).filter q = cs.filter q := by
  induction cs generalizing i with
  | nil => rfl
  | cons c cs ih =>
    cases i with
    | zero => rw [List.eraseIdx_cons_zero, List.filter_cons_of_neg (by simp [h c rfl])]
    | succ i =>
      have hrest : (cs.eraseIdx i).filter q = cs.filter q := ih fun d hd => h d (by simpa using hd)
      rw [List.eraseIdx_cons_succ, List.filter_cons, List.filter_cons, hrest]

/-! ## Nodes that are made -/

theorem everywhere_commented_undescribed (hd : ∀ c ∈ n.children, c.kind ≠ .description)
    (hc : ∀ c ∈ n.children, c.Everywhere (Commented Q)) : n.Everywhere (Commented Q) :=
  everywhere_iff.mpr ⟨fun d hmem hkind => absurd hkind (hd d hmem), hc⟩

/-- The children of a node may be dropped, and others added that do not describe it. -/
theorem everywhere_commented_of_mem (h : n.Everywhere (Commented Q)) (hk : m.kind = n.kind)
    (hc : ∀ c ∈ m.children, c ∈ n.children ∨
      c.kind ≠ .description ∧ c.Everywhere (Commented Q)) : m.Everywhere (Commented Q) := by
  refine everywhere_iff.mpr ⟨fun d hd hkind => ?_, fun c hmem => ?_⟩
  · rw [hk]
    rcases hc d hd with hd | ⟨hne, -⟩
    · exact h.self d hd hkind
    · exact absurd hkind hne
  · exact (hc c hmem).elim h.child And.right

/-- Only the kind and the children of a node matter. -/
theorem everywhere_commented_congr (h : n.Everywhere (Commented Q)) (hk : m.kind = n.kind)
    (hc : m.children = n.children) : m.Everywhere (Commented Q) :=
  everywhere_commented_of_mem h hk fun _ hmem => .inl (hc ▸ hmem)

theorem everywhere_commented_leaf (h : n.children = []) : n.Everywhere (Commented Q) :=
  everywhere_commented_undescribed (by simp [h]) (by simp [h])

theorem everywhere_commented_descriptionOf (text : String) :
    (descriptionOf text).Everywhere (Commented Q) := by
  have hprose : ∀ c ∈ (descriptionOf text).children, c = prose text := by
    intro c hc
    unfold descriptionOf at hc
    dsimp only at hc
    split at hc
    · cases hc
    · exact List.mem_singleton.mp hc
  refine everywhere_commented_undescribed (fun c hc => ?_) fun c hc => ?_ <;> rw [hprose c hc]
  · exact nofun
  · exact everywhere_commented_leaf rfl

/-! ## Descriptions -/

theorem readsAs_describe (n : Node) (raw : String) : n.ReadsAs (n.describe raw) := by
  have hsame : (n.describe raw).content = n.content ∧ (n.describe raw).spaced = n.spaced := by
    unfold Node.describe
    dsimp only
    split <;> exact ⟨rfl, rfl⟩
  refine ⟨kind_describe n raw, hsame.1, hsame.2, fun _ => ?_⟩
  -- a description is no piece of the text
  have hpieces : (n.describe raw).children.filter (·.kind.isText) =
      n.children.filter (·.kind.isText) := by
    have hnew : [descriptionOf (Comment.normalize raw).text].filter (·.kind.isText) = [] := rfl
    rw [children_describe, List.filter_append, hnew, List.append_nil, List.eraseP_eq_eraseIdx]
    split
    · rfl
    · rename_i i hi
      obtain ⟨hlt, hdescription, -⟩ := List.findIdx?_eq_some_iff_getElem.mp hi
      refine filter_eraseIdx fun c hc => ?_
      rw [List.getElem?_eq_getElem hlt, Option.some.injEq] at hc
      have hkind : c.kind = .description := by simpa [isKind, hc] using hdescription
      rw [hkind]
      rfl
  rw [Node.text, Node.text, hpieces]

theorem everywhere_commented_describe (h : n.Everywhere (Commented Q)) {raw : String}
    (hraw : Explained Q n.kind (Comment.normalize raw).text) :
    (n.describe raw).Everywhere (Commented Q) := by
  refine everywhere_iff.mpr ⟨fun d hd hkind => ?_, fun c hc => ?_⟩
  · rw [kind_describe]
    rw [children_describe, List.mem_append, List.mem_singleton] at hd
    rcases hd with hd | rfl
    · exact h.self d (List.eraseP_sublist.subset hd) hkind
    · rw [text_descriptionOf]
      exact hraw
  · rw [children_describe, List.mem_append, List.mem_singleton] at hc
    rcases hc with hc | rfl
    · exact h.child (List.eraseP_sublist.subset hc)
    · exact everywhere_commented_descriptionOf _

theorem explained_of_comment {kind : Kind} {raw : String} (h : Q raw) :
    Explained Q kind (Comment.normalize raw).text :=
  .inr ⟨raw, h, rfl⟩

theorem everywhere_commented_describeWith (h : n.Everywhere (Commented Q))
    (hk : n.kind.isCommented = false) {comment : Option String}
    (hcomment : ∀ raw, comment = some raw → Q raw) :
    (n.describe (comment.getD "")).Everywhere (Commented Q) := by
  refine everywhere_commented_describe h ?_
  cases comment with
  | none => exact .inl ⟨hk, congrArg Comment.Normal.text Comment.normalize_empty⟩
  | some raw => exact explained_of_comment (hcomment raw rfl)

theorem everywhere_commented_describeIf (h : n.Everywhere (Commented Q)) {comment : Option String}
    (hcomment : ∀ raw, comment = some raw → Q raw) :
    (n.describeIf comment).Everywhere (Commented Q) := by
  cases comment with
  | none => exact h
  | some raw => exact everywhere_commented_describe h (explained_of_comment (hcomment raw rfl))

/-! ## Changes -/

/-- A change of the node that a path leads to, which reads as before. -/
theorem everywhere_commented_modifyAt {f : Node → Node} {path : Path}
    (h : n.Everywhere (Commented Q))
    (hf : ∀ m, n.get? path = some m → (f m).Everywhere (Commented Q) ∧ m.ReadsAs (f m)) :
    (n.modifyAt f path).Everywhere (Commented Q) ∧ n.ReadsAs (n.modifyAt f path) := by
  induction path generalizing n with
  | nil => exact hf n rfl
  | cons i path ih =>
    have hchild : ∀ c, n.children[i]? = some c →
        (c.modifyAt f path).Everywhere (Commented Q) ∧ c.ReadsAs (c.modifyAt f path) := by
      intro c hc
      refine ih (h.child (List.mem_of_getElem? hc)) fun m hm => hf m ?_
      simp only [Node.get?, hc, hm]
    -- every child is one of before, or reads as one of before
    have hchildren : ∀ d ∈ (n.modifyAt f (i :: path)).children, ∃ c ∈ n.children,
        d.Everywhere (Commented Q) ∧ c.ReadsAs d := by
      intro d hd
      obtain ⟨j, hj⟩ := List.mem_iff_getElem?.mp hd
      simp only [Node.modifyAt, List.getElem?_modify, Option.map_eq_map,
        Option.map_eq_some_iff] at hj
      obtain ⟨c, hc, rfl⟩ := hj
      have hmem := List.mem_of_getElem? hc
      split
      · rename_i hij
        exact ⟨c, hmem, hchild c (hij ▸ hc)⟩
      · exact ⟨c, hmem, h.child hmem, .refl c⟩
    refine ⟨everywhere_iff.mpr ⟨fun d hd hkind => ?_, fun d hd => ?_⟩, rfl, rfl, rfl, fun _ => ?_⟩
    · obtain ⟨c, hc, -, hreads⟩ := hchildren d hd
      have hckind : c.kind = .description := hreads.kind.symm.trans hkind
      rw [hreads.text hckind]
      exact h.self c hc hckind
    · exact (hchildren d hd).choose_spec.2.1
    · exact text_eq_of_pieces (map_modify_eq fun c hc => (hchild c hc).2.piece_eq)

theorem everywhere_commented_describeAt (h : n.Everywhere (Commented Q)) {raw : String}
    (hraw : Q raw) (path : Path) :
    (n.modifyAt (·.describe raw) path).Everywhere (Commented Q) :=
  (everywhere_commented_modifyAt h fun m hm =>
    ⟨everywhere_commented_describe (h.get? hm) (explained_of_comment hraw), readsAs_describe m raw⟩).1

/-- Taking out the node that a path leads to, unless it is a piece of the text of a description. -/
theorem everywhere_commented_removeAt (h : n.Everywhere (Commented Q)) (home : Path) {i : Nat}
    (hp : ∀ m, n.get? home = some m → m.kind = .description →
      ∀ p, m.children[i]? = some p → p.kind.isText = false) :
    (n.removeAt (home ++ [i])).Everywhere (Commented Q) := by
  rw [removeAt_concat]
  refine (everywhere_commented_modifyAt h fun m hm => ?_).1
  have hsub : (m.children.eraseIdx i).Sublist m.children := List.eraseIdx_sublist _ _
  refine ⟨everywhere_commented_of_mem (h.get? hm) rfl fun c hc => .inl (hsub.subset hc),
    rfl, rfl, rfl, fun hkind => ?_⟩
  · have hpieces : (m.children.eraseIdx i).filter (·.kind.isText) =
        m.children.filter (·.kind.isText) := filter_eraseIdx (hp m hm hkind)
    exact congrArg joinText hpieces

theorem everywhere_commented_insert {scope node : Node} {ins : Insertion}
    (h : scope.Everywhere (Commented Q)) (hn : node.Everywhere (Commented Q))
    (hk : node.kind ≠ .description) (hins : scope.insertion? node = some ins) :
    (scope.withChildren (ins.apply scope.children)).Everywhere (Commented Q) := by
  obtain ⟨hkey, hcs⟩ := Insertion.node_eq hins
  have hkind : ins.node.kind = node.kind := kind_eq_of_key hkey
  refine everywhere_commented_of_mem h rfl fun c hc => ?_
  rcases List.eq_or_mem_of_mem_insertIdx hc with rfl | hc
  · exact .inr ⟨hkind ▸ hk, everywhere_commented_congr hn hkind hcs⟩
  · split at hc
    · exact .inl ((List.eraseIdx_sublist _ _).subset hc)
    · exact .inl hc

/-- Putting a node that is no description in the place of a child. -/
theorem everywhere_commented_replace {scope node : Node} (h : scope.Everywhere (Commented Q))
    (hn : node.Everywhere (Commented Q)) (hk : node.kind ≠ .description) (i : Nat) :
    (scope.modifyAt (fun _ => node) [i]).Everywhere (Commented Q) := by
  refine everywhere_commented_of_mem h rfl fun c hc => ?_
  obtain ⟨j, hj⟩ := List.mem_iff_getElem?.mp hc
  simp only [Node.modifyAt, List.getElem?_modify, Option.map_eq_map, Option.map_eq_some_iff] at hj
  obtain ⟨d, hd, rfl⟩ := hj
  split
  · exact .inr ⟨hk, hn⟩
  · exact .inl (List.mem_of_getElem? hd)

end Node

end HeaderDocs
