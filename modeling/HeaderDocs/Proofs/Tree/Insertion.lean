import HeaderDocs.Proofs.Tree.Arrangement
import HeaderDocs.Proofs.Tree.Paths
import HeaderDocs.Tree.Move

/-!
# What an insertion changes

A node that is inserted into a scope takes the place of its namesake, if there is one, and comes after all
children whose names are not greater. Children without a name can stand anywhere, and no child moves past
another one. A node that was elsewhere in the tree is taken out there first.

* `Ordered`, `Inserted`: the children of a scope, before and after.
* `exists_inserted`: one insertion, in terms of the children.
* `reinsert_eq`: a node that moves is taken out, and inserted into what is left.
* `insert_keepsOrder`: nodes that are new and nodes that move.
-/
namespace HeaderDocs.Node

/-! ## Children in order -/

/-- The named children are in ascending order of name, and no two have the same kind and name. -/
structure Ordered (cs : List Node) : Prop where
  sorted : (cs.filterMap (·.name)).Pairwise (· ≤ ·)
  unique : (cs.filterMap label?).Nodup

/-- What became of the children of a scope when a node was inserted under a name: the children before
it, the node, and the children after it. -/
structure Inserted (children : List Node) (node : Node) (name : String) (before : List Node)
    (new : Node) (after : List Node) : Prop where
  /-- The namesake is gone. All others are unchanged, and in their order. -/
  others : before ++ after = children.filter fun c => c.label? != some (node.kind, name)
  /-- Nothing but the access of the node can be another one. -/
  new_eq : new = node.withScope (node.accessAfter (children.find? (isNamed node.kind (some name))))
  le_name : ∀ c ∈ before, ∀ other, c.name = some other → other ≤ name
  name_lt : ∀ c ∈ after, ∀ other, c.name = some other → name < other
  ordered : Ordered (before ++ new :: after)

theorem Ordered.sublist {cs ds : List Node} (h : Ordered cs) (hs : ds.Sublist cs) : Ordered ds where
  sorted := h.sorted.sublist (hs.filterMap _)
  unique := h.unique.sublist (hs.filterMap _)

theorem Ordered.of_map_key {cs ds : List Node} (h : Ordered cs) (he : cs.map key = ds.map key) :
    Ordered ds where
  sorted := by
    rw [filterMap_name_eq, ← he, ← filterMap_name_eq]
    exact h.sorted
  unique := by
    rw [filterMap_label?_eq, ← he, ← filterMap_label?_eq]
    exact h.unique

/-! ## One insertion -/

variable {scope scope' node : Node} {name : String} {cs : List Node}

/-- Where no two children have the same kind and name, the namesake is the only one that goes. -/
theorem eraseP_eq_filter (h : (cs.filterMap label?).Nodup) (k : Kind) (name : String) :
    cs.eraseP (isNamed k (some name)) = cs.filter fun c => c.label? != some (k, name) := by
  induction cs with
  | nil => rfl
  | cons c cs ih =>
    have hcs : (cs.filterMap label?).Nodup :=
      h.sublist ((List.sublist_cons_self c cs).filterMap _)
    by_cases hc : c.label? = some (k, name)
    · have hothers : ∀ d ∈ cs, (d.label? != some (k, name)) = true := by
        intro d hd
        rw [List.filterMap_cons_some hc, List.nodup_cons] at h
        exact bne_iff_ne.mpr fun hl => h.1 (List.mem_filterMap.mpr ⟨d, hd, hl⟩)
      rw [List.eraseP_cons_of_pos (isNamed_iff_label?.mpr hc), List.filter_cons_of_neg (by simp [hc]),
        List.filter_eq_self.mpr hothers]
    · rw [List.eraseP_cons_of_neg (mt isNamed_iff_label?.mp hc),
        List.filter_cons_of_pos (by simpa using hc), ih hcs]

theorem le_of_mem_takeWhile {c : Node} (hc : c ∈ cs.takeWhile (!sortsAfter name ·)) {other : String}
    (hother : c.name = some other) : other ≤ name := by
  have hnot : sortsAfter name c = false := by
    simpa using List.all_eq_true.mp List.all_takeWhile c hc
  exact String.not_lt.mp fun hlt => Bool.false_ne_true (hnot.symm.trans ((sortsAfter_iff hother).mpr hlt))

/-- Behind a name that is greater all are. -/
theorem lt_of_mem_dropWhile (h : (cs.filterMap (·.name)).Pairwise (· ≤ ·)) {c : Node}
    (hc : c ∈ cs.dropWhile (!sortsAfter name ·)) {other : String} (hother : c.name = some other) :
    name < other := by
  induction cs with
  | nil => cases hc
  | cons d cs ih =>
    have hcs : (cs.filterMap (·.name)).Pairwise (· ≤ ·) :=
      h.sublist ((List.sublist_cons_self d cs).filterMap _)
    cases hd : sortsAfter name d with
    | false =>
      rw [List.dropWhile_cons_of_pos (by simp [hd])] at hc
      exact ih hcs hc
    | true =>
      rw [List.dropWhile_cons_of_neg (by simp [hd])] at hc
      cases hfirst : d.name with
      | none =>
        rw [sortsAfter_of_unnamed hfirst] at hd
        cases hd
      | some first =>
        have hlt : name < first := (sortsAfter_iff hfirst).mp hd
        rcases List.mem_cons.mp hc with rfl | hc
        · exact Option.some.inj (hfirst.symm.trans hother) ▸ hlt
        · rw [List.filterMap_cons_some hfirst, List.pairwise_cons] at h
          exact Std.lt_of_lt_of_le hlt (h.1 other (List.mem_filterMap.mpr ⟨c, hc, hother⟩))

/-- A node of a kind and name that no child has. -/
theorem Ordered.insert (h : Ordered cs) (hname : node.name = some name)
    (hnew : (node.kind, name) ∉ cs.filterMap label?) :
    Ordered (cs.takeWhile (!sortsAfter name ·) ++ node :: cs.dropWhile (!sortsAfter name ·)) where
  sorted := by
    rw [List.filterMap_append, List.filterMap_cons_some hname]
    exact sorted_insert name h.sorted
  unique := by
    have hlabel : node.label? = some (node.kind, name) := by rw [label?, hname, Option.map_some]
    rw [(List.perm_middle.filterMap label?).nodup_iff, List.takeWhile_append_dropWhile,
      List.filterMap_cons_some hlabel, List.nodup_cons]
    exact ⟨hnew, h.unique⟩

/-- One insertion, in terms of the children of the scope. -/
theorem exists_inserted (h : Ordered scope.children) (hname : node.name = some name)
    (hrec : isRecordable name = true) :
    ∃ ins before after, scope.insertion? node = some ins ∧
      ins.apply scope.children = before ++ ins.node :: after ∧
      Inserted scope.children node name before ins.node after := by
  have hothers := eraseP_eq_filter h.unique node.kind name
  have happly : ∀ new : Node, Insertion.apply
      { replaced := scope.children.findIdx? (isNamed node.kind (some name))
        position := (scope.children.eraseP (isNamed node.kind (some name))).findIdx (sortsAfter name)
        node := new } scope.children =
      (scope.children.eraseP (isNamed node.kind (some name))).insertIdx
        ((scope.children.eraseP (isNamed node.kind (some name))).findIdx (sortsAfter name)) new := by
    intro new
    rw [List.eraseP_eq_eraseIdx]
    unfold Insertion.apply
    cases scope.children.findIdx? (isNamed node.kind (some name)) <;> rfl
  have hnew : (node.kind, name) ∉
      (scope.children.eraseP (isNamed node.kind (some name))).filterMap label? := by
    rw [hothers]
    intro hmem
    obtain ⟨c, hc, hl⟩ := List.mem_filterMap.mp hmem
    exact bne_iff_ne.mp (List.mem_filter.mp hc).2 hl
  have hrest := h.sublist (List.eraseP_sublist (p := isNamed node.kind (some name)))
  refine ⟨_, _, _, insertion?_eq scope hname hrec, (happly _).trans (insertIdx_findIdx ..), ?_, rfl,
    fun c hc _ => le_of_mem_takeWhile hc, fun c hc _ => lt_of_mem_dropWhile hrest.sorted hc,
    hrest.insert hname hnew⟩
  rw [List.takeWhile_append_dropWhile, hothers]

/-! ## What an insertion looks at -/

/-- What an insertion looks at in a child of the scope. -/
def face (n : Node) : Kind × Option String × Option String := (n.kind, n.name, n.scope)

theorem face_removeAt (n : Node) (path : Path) : (n.removeAt path).face = n.face := by
  match path with
  | [] => rfl
  | [_] => rfl
  | _ :: _ :: _ => rfl

theorem map_key_of_face {cs ds : List Node} (h : cs.map face = ds.map face) :
    cs.map key = ds.map key := by
  have hkeys := congrArg (List.map fun f => (f.1, f.2.1)) h
  rwa [List.map_map, List.map_map] at hkeys

theorem accessAfter_congr {old old' : Option Node} (h : old.map (·.scope) = old'.map (·.scope)) :
    node.accessAfter old = node.accessAfter old' := by
  cases old with
  | none => rw [Option.map_eq_none_iff.mp h.symm]
  | some old =>
    obtain ⟨other, rfl, hscope⟩ := Option.map_eq_some_iff.mp h.symm
    have hscope : other.scope = old.scope := hscope
    have hset : other.hasScope = old.hasScope := by rw [hasScope, hasScope, hscope]
    simp only [accessAfter, hset, hscope]

theorem insertion?_congr (h : scope'.children.map face = scope.children.map face) (node : Node) :
    scope'.insertion? node = scope.insertion? node := by
  by_cases hnone : ∀ name, node.name = some name → isRecordable name = false
  · rw [insertion?_eq_none scope hnone, insertion?_eq_none scope' hnone]
  · push Not at hnone
    obtain ⟨name, hname, hrec⟩ := hnone
    have hnamed : isNamed node.kind (some name) =
        (fun f : Kind × Option String × Option String => f.1 == node.kind && f.2.1 == some name) ∘
          face := rfl
    have hsorts : sortsAfter name = (fun f : Kind × Option String × Option String =>
        f.2.1.any fun other => decide (name < other)) ∘ face := by
      funext c
      simp only [sortsAfter, Function.comp_apply, face]
      cases c.name <;> rfl
    have hfound : (scope'.children.find? (isNamed node.kind (some name))).map (·.scope) =
        (scope.children.find? (isNamed node.kind (some name))).map (·.scope) := by
      have hfaces := congrArg (fun fs => (List.find? (fun f : Kind × Option String × Option String =>
        f.1 == node.kind && f.2.1 == some name) fs).map (·.2.2)) h
      simp only [List.find?_map, Option.map_map] at hfaces
      exact hfaces
    have hposition : (scope'.children.eraseP (isNamed node.kind (some name))).findIdx (sortsAfter name) =
        (scope.children.eraseP (isNamed node.kind (some name))).findIdx (sortsAfter name) := by
      rw [hnamed, hsorts, ← List.findIdx_map, ← List.findIdx_map, ← List.eraseP_map, ← List.eraseP_map, h]
    have hreplaced : scope'.children.findIdx? (isNamed node.kind (some name)) =
        scope.children.findIdx? (isNamed node.kind (some name)) := by
      rw [hnamed, ← List.findIdx?_map, ← List.findIdx?_map, h]
    rw [insertion?_eq scope hname (by simpa using hrec), insertion?_eq scope' hname (by simpa using hrec),
      hposition, hreplaced, accessAfter_congr hfound]

/-- What a node below the children of a scope is taken out of looks the same. -/
theorem map_face_removeAt {path : Path} (h : path.length ≠ 1) (n : Node) :
    (n.removeAt path).children.map face = n.children.map face := by
  match path with
  | [] => rfl
  | [_] => exact absurd rfl h
  | i :: j :: path =>
    exact map_modify_eq (f := fun c => c.removeAt (j :: path)) fun c _ => face_removeAt c _

/-! ## Nodes that move -/

variable {tree child : Node} {owner from_ : Path}

/-- A node of the tree is inserted into a scope: it is taken out, and then the scope is changed as by an
insertion, wherever it is then. -/
theorem reinsert_eq {ins : Insertion} (hchild : tree.get? from_ = some child)
    (hscope : tree.get? owner = some scope) (haround : ¬ from_ <+: owner) (howned : from_.dropLast ≠ owner)
    (hins : scope.insertion? child = some ins) :
    ∃ owner', Path.afterRemove? from_ owner = some owner' ∧
      tree.reinsert owner from_ = ⟨(tree.removeAt from_).modifyAt
        (fun m => m.withChildren (ins.apply m.children)) owner', true⟩ := by
  have hne : from_ ≠ [] := fun he => haround (he ▸ List.nil_prefix)
  obtain ⟨owner', howner⟩ : ∃ owner', Path.afterRemove? from_ owner = some owner' :=
    Option.ne_none_iff_exists'.mp (mt (Path.afterRemove?_eq_none_iff hne).mp haround)
  refine ⟨owner', howner, ?_⟩
  have hposition : positionIn owner from_ = none := if_neg (by simp [howned])
  unfold reinsert
  rw [hposition]
  simp only [Option.isSome_none, Bool.false_eq_true, if_false, hchild, hscope, hins]
  cases hreplaced : ins.replaced with
  | none =>
    simp only [Option.map_none, Option.getD_none, Option.map_some, Option.getD_some, howner]
    rw [insertAt_of_replaced_none hreplaced]
  | some i =>
    have hold : owner ++ [i] ≠ [] := List.append_ne_nil_of_right_ne_nil _ (List.cons_ne_nil _ _)
    have hboth : tree.removeBoth (owner ++ [i]) from_ = (tree.removeAt from_).removeAt (owner' ++ [i]) := by
      rw [removeBoth_comm tree hold hne,
        removeBoth_of_some (Path.afterRemove?_concat howner howned i)]
    simp only [Option.map_some, Option.getD_some]
    cases hfrom : Path.afterRemove? (owner ++ [i]) from_ with
    | none =>
      -- the node is below its namesake, and goes with it
      have hprefix := (List.prefix_append owner [i]).trans
        ((Path.afterRemove?_eq_none_iff hold).mp hfrom)
      have hsame : owner = owner' := Option.some.inj
        ((Path.afterRemove?_of_prefix hprefix fun he => haround (he ▸ List.prefix_rfl)).symm.trans howner)
      rw [removeBoth_of_none hfrom, ← hsame] at hboth
      simp only [Option.map_none, Option.getD_none]
      rw [hboth, insertAt_removeAt hreplaced, hsame]
    | some from' =>
      have hfollowed := (Path.afterRemove?_followed hfrom howned).trans howner
      rw [removeBoth_of_some hfrom] at hboth
      simp only [Option.map_some, Option.getD_some, hfollowed]
      rw [hboth, insertAt_removeAt hreplaced]

/-- Inserting into a scope whose named children are in order.

A new node is refused if its name is not recorded. Otherwise it takes the place of its namesake, and the
children of the scope are in order again (`Inserted`).

So it is with a node from elsewhere in the tree that is neither around the scope nor a child of it. If it
is refused, the tree stays as it is. Otherwise it is taken out, and inserted into what is left of the
scope: that is the whole scope unless the node was below one of its children. Nothing else changes. -/
theorem insert_keepsOrder (tree : Node) (owner : Path) (scope : Node) (hscope : tree.get? owner = some scope)
    (hordered : Ordered scope.children) :
    (∀ node : Node,
      ((∀ name, node.name = some name → isRecordable name = false) → scope.insert? node = none) ∧
      ∀ name, node.name = some name → isRecordable name = true →
        ∃ before new after, Inserted scope.children node name before new after ∧
          scope.insert? node = some (scope.withChildren (before ++ new :: after))) ∧
    ∀ (from_ : Path) (node : Node), tree.get? from_ = some node → ¬ from_ <+: owner →
      positionIn owner from_ = none →
      ((∀ name, node.name = some name → isRecordable name = false) →
        tree.reinsert owner from_ = ⟨tree, false⟩) ∧
      ∀ name, node.name = some name → isRecordable name = true →
        ∃ owner' left before new after, Path.afterRemove? from_ owner = some owner' ∧
          (tree.removeAt from_).get? owner' = some left ∧
          left = (if owner <+: from_ then scope.removeAt (from_.drop owner.length) else scope) ∧
          Inserted left.children node name before new after ∧
          tree.reinsert owner from_ = ⟨(tree.removeAt from_).modifyAt
            (·.withChildren (before ++ new :: after)) owner', true⟩ := by
  constructor
  · intro node
    constructor
    · intro hnone
      rw [insert?, insertion?_eq_none scope hnone, Option.map_none]
    · intro name hname hrec
      obtain ⟨ins, before, after, hins, happly, hinserted⟩ := exists_inserted hordered hname hrec
      refine ⟨before, ins.node, after, hinserted, ?_⟩
      rw [insert?, hins, Option.map_some, happly]
  · intro from_ node hnode haround hposition
    have hne : from_ ≠ [] := fun he => haround (he ▸ List.nil_prefix)
    have howned : from_.dropLast ≠ owner := by
      intro he
      rw [positionIn, he, if_pos (by simpa using hne), List.getLast?_eq_none_iff] at hposition
      exact hne hposition
    constructor
    · intro hnone
      unfold reinsert
      rw [hposition]
      simp only [Option.isSome_none, Bool.false_eq_true, if_false, hnode, hscope,
        insertion?_eq_none scope hnone]
    · intro name hname hrec
      obtain ⟨ins, hins⟩ : ∃ ins, scope.insertion? node = some ins := ⟨_, insertion?_eq scope hname hrec⟩
      obtain ⟨owner', howner, hmoved⟩ := reinsert_eq hnode hscope haround howned hins
      have hleft := get?_removeAt (n := tree) howner
      rw [hscope, Option.map_some] at hleft
      generalize hlost : (if owner <+: from_ then scope.removeAt (from_.drop owner.length) else scope) =
        left at hleft
      have hfaces : left.children.map face = scope.children.map face := by
        rw [← hlost]
        split
        · rename_i hbelow
          refine map_face_removeAt ?_ scope
          obtain ⟨below, rfl⟩ := hbelow
          rw [List.drop_left]
          intro hone
          obtain ⟨i, rfl⟩ := List.length_eq_one_iff.mp hone
          exact howned List.dropLast_concat
        · rfl
      obtain ⟨ins', before, after, hins', happly, hinserted⟩ :=
        exists_inserted (hordered.of_map_key (map_key_of_face hfaces.symm)) hname hrec
      obtain rfl : ins = ins' := Option.some.inj
        (hins.symm.trans ((insertion?_congr hfaces node).symm.trans hins'))
      refine ⟨owner', left, before, ins.node, after, howner, hleft, rfl, hinserted, ?_⟩
      rw [hmoved]
      refine congrArg (Moved.mk · true) (modifyAt_congr fun m hm => ?_)
      obtain rfl : left = m := Option.some.inj (hleft.symm.trans hm)
      rw [happly]

def openFunction : Node := ofName .function "run"

/-- A structure with the function, and a class with a private namesake of it. -/
def twoRecords : Node :=
  empty.withChildren
    [(ofName .structType "A").withChildren [openFunction],
      (ofName .classType "B").withChildren
        [descriptionOf "", openFunction.withScope (some "private"), ofName .var "size"]]

/-- The function moves to the class. -/
theorem insert_keepsOrder_twoRecords :
    ∃ left before new after, (twoRecords.removeAt [0, 0]).get? [1] = some left ∧
      Inserted left.children openFunction "run" before new after ∧
      twoRecords.reinsert [1] [0, 0] = ⟨(twoRecords.removeAt [0, 0]).modifyAt
        (·.withChildren (before ++ new :: after)) [1], true⟩ := by
  obtain ⟨owner', left, before, new, after, howner, hleft, -, hinserted, hmoved⟩ :=
    (insert_keepsOrder twoRecords [1] _ rfl ⟨by decide, by decide⟩).2 [0, 0] openFunction rfl (by decide)
      (by decide) |>.2 "run" rfl (by decide)
  obtain rfl : [1] = owner' := Option.some.inj howner
  exact ⟨left, before, new, after, hleft, hinserted, hmoved⟩

end HeaderDocs.Node
