import HeaderDocs.Proofs.Tree.Paths
import HeaderDocs.Tree.Move
import Mathlib.Logic.Function.Basic
import Mathlib.Order.Monotone.Basic

/-!
# Nodes that move to the front

A node that becomes the first child of another one is taken out of its place, and put in before the children
of its new owner. Every node is found again then (`Path.afterMove`): none is lost and none is in two places,
and all but the one that moves keep their owner and their order.

There is one exception. A node that is the first child of its new owner already is taken out and not put in
again.

* `Path.afterMove_afterMove`: a move back is followed back.
* `MovedFirst`: the tree before a move to the front, and after it.
* `addFirst_keepsNodes`: nodes that are new and nodes that move.
-/
namespace HeaderDocs

/-! ## Following a move -/

namespace Path

variable {place path after there here : Path}

theorem afterRemove?_afterInsert (h : place ≠ []) (path : Path) :
    afterRemove? place (afterInsert place path) = some path := by
  fun_induction afterInsert place path with
  | case1 path => exact absurd rfl h
  | case2 i place => exact afterRemove?_nil (List.cons_ne_nil i place)
  | case3 i j path =>
    simp only [afterRemove?]
    grind
  | case4 i k place path ih => simp [afterRemove?, ih]
  | case5 i k place j path hij => simp [afterRemove?, hij]

theorem afterInsert_of_afterRemove? (h : afterRemove? place path = some after) :
    afterInsert place after = path := by
  fun_induction afterRemove? place path generalizing after with
  | case1 path => cases h
  | case2 i place =>
    cases h
    cases place <;> rfl
  | case3 => cases h
  | case4 i j path hij =>
    cases h
    simp only [afterInsert]
    grind
  | case5 i k place path ih =>
    obtain ⟨rest, hrest, rfl⟩ := Option.map_eq_some_iff.mp h
    simp [afterInsert, ih hrest]
  | case6 i k place j path hij =>
    cases h
    simp [afterInsert, hij]

/-- Where a path leads after the node at `there` was taken out and put in again. The place `here` is
meant in the tree without it. -/
def afterMove (there here path : Path) : Path :=
  match afterRemove? there path with
  | some rest => afterInsert here rest
  | none => here ++ path.drop there.length

theorem afterMove_of_some (h : afterRemove? there path = some after) (here : Path) :
    afterMove there here path = afterInsert here after := by
  rw [afterMove, h]

theorem afterMove_append (h : there ≠ []) (here rest : Path) :
    afterMove there here (there ++ rest) = here ++ rest := by
  have hgone : afterRemove? there (there ++ rest) = none :=
    (afterRemove?_eq_none_iff h).mpr (List.prefix_append there rest)
  rw [afterMove, hgone, List.drop_left]

theorem afterMove_afterMove (hthere : there ≠ []) (hhere : here ≠ []) (path : Path) :
    afterMove here there (afterMove there here path) = path := by
  cases h : afterRemove? there path with
  | none =>
    obtain ⟨rest, rfl⟩ := (afterRemove?_eq_none_iff hthere).mp h
    rw [afterMove_append hthere, afterMove_append hhere]
  | some after =>
    rw [afterMove_of_some h, afterMove_of_some (afterRemove?_afterInsert hhere after),
      afterInsert_of_afterRemove? h]

theorem bijective_afterMove (hthere : there ≠ []) (hhere : here ≠ []) :
    Function.Bijective (afterMove there here) :=
  Function.bijective_iff_has_inverse.mpr ⟨afterMove here there,
    afterMove_afterMove hthere hhere, afterMove_afterMove hhere hthere⟩

/-! ### Siblings -/

/-- The node around a place stays where it is. -/
theorem afterRemove?_home (home : Path) (k : Nat) : afterRemove? (home ++ [k]) home = some home :=
  afterRemove?_of_prefix (List.prefix_append home [k]) (by simp)

theorem afterInsert_home (home : Path) (k : Nat) : afterInsert (home ++ [k]) home = home :=
  afterInsert_of_afterRemove? (afterRemove?_home home k)

theorem afterRemove?_sibling (path : Path) {k i : Nat} (h : k ≠ i) :
    afterRemove? (path ++ [k]) (path ++ [i]) = some (path ++ [if k < i then i - 1 else i]) := by
  induction path with
  | nil => simp [afterRemove?, h]
  | cons j path ih =>
    obtain ⟨l, rest, hrest⟩ : ∃ l rest, path ++ [k] = l :: rest :=
      List.exists_cons_of_ne_nil (List.append_ne_nil_of_right_ne_nil _ (List.cons_ne_nil _ _))
    rw [hrest] at ih
    simp [afterRemove?, hrest, ih]

/-- The siblings of what is taken out move up, and all others stay. -/
theorem exists_position_afterRemove? (h : afterRemove? place path = some after) :
    ∃ position : Nat → Nat,
      (∀ i, path ++ [i] ≠ place → afterRemove? place (path ++ [i]) = some (after ++ [position i])) ∧
      ∀ i j, i < j → path ++ [i] ≠ place → path ++ [j] ≠ place → position i < position j := by
  obtain rfl | ⟨home, k, rfl⟩ := List.eq_nil_or_concat' place
  · cases h
  · by_cases hhome : home = path
    · subst hhome
      obtain rfl : home = after := Option.some.inj ((afterRemove?_home home k).symm.trans h)
      refine ⟨fun i => if k < i then i - 1 else i, fun i hi => ?_, fun i j hij hi hj => ?_⟩
      · exact afterRemove?_sibling home fun he => hi (by rw [he])
      · have hik : i ≠ k := fun he => hi (by rw [he])
        have hjk : j ≠ k := fun he => hj (by rw [he])
        grind
    · have hplace : (home ++ [k]).dropLast ≠ path := by rwa [List.dropLast_concat]
      exact ⟨id, fun i _ => afterRemove?_concat h hplace i, fun i j hij _ _ => hij⟩

/-- The first child of a node stays its first child unless it is taken out. -/
theorem afterRemove?_first {owner owner' : Path} (howner : afterRemove? place owner = some owner')
    (hfirst : place ≠ owner ++ [0]) : afterRemove? place (owner ++ [0]) = some (owner' ++ [0]) := by
  obtain rfl | ⟨home, k, rfl⟩ := List.eq_nil_or_concat' place
  · cases howner
  · by_cases hhome : home = owner
    · subst hhome
      obtain rfl : home = owner' := Option.some.inj ((afterRemove?_home home k).symm.trans howner)
      rw [afterRemove?_sibling home fun he => hfirst (by rw [he])]
      simp
    · exact afterRemove?_concat howner (by rwa [List.dropLast_concat]) 0

/-- The siblings of what is put in make room for it, and all others stay. -/
theorem exists_position_afterInsert (h : place ≠ []) (path : Path) :
    ∃ position : Nat → Nat,
      (∀ i, afterInsert place (path ++ [i]) = afterInsert place path ++ [position i]) ∧
      StrictMono position := by
  obtain rfl | ⟨home, k, rfl⟩ := List.eq_nil_or_concat' place
  · exact absurd rfl h
  · by_cases hhome : home = path
    · subst hhome
      refine ⟨fun i => if k ≤ i then i + 1 else i, fun i => ?_, fun i j hij => ?_⟩
      · rw [afterInsert_home]
        refine afterInsert_of_afterRemove? ?_
        rw [afterRemove?_sibling home (by grind)]
        grind
      · grind
    · have hback := afterRemove?_afterInsert h path
      have hplace : (home ++ [k]).dropLast ≠ afterInsert (home ++ [k]) path := by
        rw [List.dropLast_concat]
        intro he
        rw [← he, afterRemove?_home] at hback
        exact hhome (Option.some.inj hback)
      exact ⟨id, fun i => afterInsert_of_afterRemove? (afterRemove?_concat hback hplace i), strictMono_id⟩

/-- All nodes but the one that moves keep their owner, and their order below it. -/
theorem exists_position_afterMove (hthere : there ≠ []) (hhere : here ≠ []) (path : Path) :
    ∃ position : Nat → Nat,
      (∀ i, path ++ [i] ≠ there →
        afterMove there here (path ++ [i]) = afterMove there here path ++ [position i]) ∧
      ∀ i j, i < j → path ++ [i] ≠ there → path ++ [j] ≠ there → position i < position j := by
  cases h : afterRemove? there path with
  | none =>
    obtain ⟨rest, rfl⟩ := (afterRemove?_eq_none_iff hthere).mp h
    refine ⟨id, fun i _ => ?_, fun i j hij _ _ => hij⟩
    rw [List.append_assoc, afterMove_append hthere, afterMove_append hthere, List.append_assoc]
    rfl
  | some after =>
    obtain ⟨taken, htaken, horder⟩ := exists_position_afterRemove? h
    obtain ⟨put, hput, hmono⟩ := exists_position_afterInsert hhere after
    refine ⟨fun i => put (taken i), fun i hi => ?_, fun i j hij hi hj => hmono (horder i j hij hi hj)⟩
    rw [afterMove_of_some (htaken i hi), afterMove_of_some h, hput]

end Path

namespace Node

variable {tree c p : Node} {owner from_ place path after : Path}

/-! ## Moving to the front -/

theorem get?_insertAt_append {home : Path} {m : Node} (hhome : tree.get? home = some m) (c : Node)
    (rest : Path) : (tree.insertAt c (home ++ [0])).get? (home ++ [0] ++ rest) = c.get? rest := by
  rw [insertAt_concat, List.append_assoc, get?_append, get?_modifyAt, hhome]
  rfl

/-- A node moved to the front of the children of another one, and nothing else changed. Paths are
followed from the tree before to the tree after. -/
structure MovedFirst (tree tree' : Node) (owner from_ : Path) (follow : Path → Path) : Prop where
  /-- No node is lost, and none is in two places. -/
  bijective : Function.Bijective follow
  /-- Every node is what it was. -/
  bare_get? : ∀ path, (tree'.get? (follow path)).map bare = (tree.get? path).map bare
  /-- The node that moves is the first child of its new owner, with all that is below it. -/
  first : follow from_ = follow owner ++ [0] ∧ tree'.get? (follow from_) = tree.get? from_
  /-- All other nodes have the owner they had, and are in the order they were in. -/
  siblings : ∀ path, ∃ position : Nat → Nat,
    (∀ i, path ++ [i] ≠ from_ → follow (path ++ [i]) = follow path ++ [position i]) ∧
    ∀ i j, i < j → path ++ [i] ≠ from_ → path ++ [j] ≠ from_ → position i < position j

theorem movedFirst_insertAt {owner' : Path} (hp : tree.get? owner = some p) (hc : tree.get? from_ = some c)
    (hne : from_ ≠ []) (howner : Path.afterRemove? from_ owner = some owner') :
    MovedFirst tree ((tree.removeAt from_).insertAt c (owner' ++ [0])) owner from_
      (Path.afterMove from_ (owner' ++ [0])) := by
  have hplace : owner' ++ [0] ≠ [] := by simp
  obtain ⟨left, hleft⟩ : ∃ left, (tree.removeAt from_).get? owner' = some left :=
    ⟨_, by rw [get?_removeAt howner, hp, Option.map_some]⟩
  have hbelow : ∀ rest, ((tree.removeAt from_).insertAt c (owner' ++ [0])).get?
      (Path.afterMove from_ (owner' ++ [0]) (from_ ++ rest)) = tree.get? (from_ ++ rest) := by
    intro rest
    rw [Path.afterMove_append hne, get?_insertAt_append hleft, get?_append, hc, Option.bind_some]
  have hself := hbelow []
  rw [List.append_nil] at hself
  refine ⟨Path.bijective_afterMove hne hplace, fun path => ?_, ⟨?_, hself⟩,
    Path.exists_position_afterMove hne hplace⟩
  · cases h : Path.afterRemove? from_ path with
    | none =>
      obtain ⟨rest, rfl⟩ := (Path.afterRemove?_eq_none_iff hne).mp h
      rw [hbelow]
    | some after =>
      rw [Path.afterMove_of_some h, map_bare_get?_insertAt, map_bare_get?_removeAt tree h]
  · have hfrom := Path.afterMove_append hne (owner' ++ [0]) []
    rw [List.append_nil, List.append_nil] at hfrom
    rw [hfrom, Path.afterMove_of_some howner, Path.afterInsert_home]

/-! ## Nodes that are new and nodes that move -/

theorem positionIn_concat (owner : Path) (i : Nat) : positionIn owner (owner ++ [i]) = some i := by
  simp [positionIn]

theorem children_removeAt_of_nil {n : Node} (h : n.children = []) (path : Path) :
    (n.removeAt path).children = [] := by
  match path with
  | [] => exact h
  | [_] => simp [removeAt, h]
  | _ :: _ :: _ => simp [removeAt, h]

/-- Where there are no children, the last place is the first one. -/
theorem modifyAt_push_of_nil {home : Path} {m : Node} (hhome : tree.get? home = some m)
    (hm : m.children = []) (c : Node) :
    tree.modifyAt (·.push c) home = tree.insertAt c (home ++ [0]) := by
  rw [insertAt_concat]
  refine modifyAt_congr fun n hn => ?_
  obtain rfl : m = n := Option.some.inj (hhome.symm.trans hn)
  simp [push, withChildren, hm]

theorem addFirst_new (hp : tree.get? owner = some p) (c : Node) :
    tree.addFirst (.new c) owner = ⟨tree.insertAt c (owner ++ [0]), true⟩ := by
  unfold addFirst
  cases hchildren : p.children with
  | nil => simp [hp, hchildren, add, pushAt, modifyAt_push_of_nil hp hchildren]
  | cons d ds => simp [hp, hchildren, add, positionIn_concat, pushAt]

/-- A node that is no first child of its new owner yet is taken out, and put in before all children. -/
theorem addFirst_moved {owner' : Path} (hp : tree.get? owner = some p) (hc : tree.get? from_ = some c)
    (howner : Path.afterRemove? from_ owner = some owner') (hfirst : from_ ≠ owner ++ [0]) :
    tree.addFirst (.moved from_) owner = ⟨(tree.removeAt from_).insertAt c (owner' ++ [0]), true⟩ := by
  unfold addFirst
  cases hchildren : p.children with
  | nil =>
    obtain ⟨left, hleft, hnone⟩ : ∃ left, (tree.removeAt from_).get? owner' = some left ∧
        left.children = [] := by
      refine ⟨_, by rw [get?_removeAt howner, hp, Option.map_some], ?_⟩
      split
      · exact children_removeAt_of_nil hchildren _
      · exact hchildren
    simp [hp, hchildren, add, hc, howner, pushAt, modifyAt_push_of_nil hleft hnone]
  | cons d ds =>
    have hbefore := Path.afterRemove?_first howner hfirst
    simp [hp, hchildren, add, hc, howner, hbefore, positionIn_concat, Ne.symm hfirst, pushAt]

/-- The first child of a node is taken out, and not put in again. -/
theorem addFirst_first (hp : tree.get? owner = some p) (hc : tree.get? (owner ++ [0]) = some c) :
    tree.addFirst (.moved (owner ++ [0])) owner = ⟨tree.removeAt (owner ++ [0]), false⟩ := by
  have hchildren : p.children ≠ [] := by
    intro hnone
    rw [get?_append, hp] at hc
    simp [get?, hnone] at hc
  unfold addFirst
  simp [hp, hchildren, add, hc]

/-- Making a node the first child of another one, which is neither that node nor below it.

A new node comes before all children. So does a node from anywhere in the tree, and then every node is
found again (`MovedFirst`), unless it is the first child already. That one is taken out with all that is
below it, and cannot be put in again.

The trees of a forest can be taken for the children of one node around them. -/
theorem addFirst_keepsNodes (tree : Node) (owner : Path) (p : Node) (hp : tree.get? owner = some p) :
    (∀ c : Node, tree.addFirst (.new c) owner =
      ⟨tree.modifyAt (fun m => m.withChildren (c :: m.children)) owner, true⟩) ∧
    ∀ (from_ : Path) (c : Node), tree.get? from_ = some c → ¬ from_ <+: owner →
      (from_ ≠ owner ++ [0] → ∃ tree' follow, tree.addFirst (.moved from_) owner = ⟨tree', true⟩ ∧
        MovedFirst tree tree' owner from_ follow) ∧
      (from_ = owner ++ [0] →
        tree.addFirst (.moved from_) owner = ⟨tree.removeAt from_, false⟩) := by
  constructor
  · intro c
    rw [addFirst_new hp, insertAt_concat]
    rfl
  · intro from_ c hc haround
    have hne : from_ ≠ [] := fun he => haround (he ▸ List.nil_prefix)
    constructor
    · intro hfirst
      obtain ⟨owner', howner⟩ : ∃ owner', Path.afterRemove? from_ owner = some owner' :=
        Option.ne_none_iff_exists'.mp (mt (Path.afterRemove?_eq_none_iff hne).mp haround)
      exact ⟨_, _, addFirst_moved hp hc howner hfirst, movedFirst_insertAt hp hc hne howner⟩
    · rintro rfl
      exact addFirst_first hp hc

/-- A class with two members, and one without. -/
def twoClasses : Node :=
  empty.withChildren
    [(ofName .classType "A").withChildren [ofName .var "x", ofName .var "y"], ofName .classType "B"]

/-- The second member of a class becomes its first one. -/
theorem addFirst_keepsNodes_secondMember :
    ∃ tree' follow, twoClasses.addFirst (.moved [0, 1]) [0] = ⟨tree', true⟩ ∧
      MovedFirst twoClasses tree' [0] [0, 1] follow ∧
      (tree'.get? [0]).map (·.children.map (·.name)) = some [some "y", some "x"] := by
  obtain ⟨tree', follow, hmoved, hfirst⟩ :=
    ((addFirst_keepsNodes twoClasses [0] _ rfl).2 [0, 1] _ rfl (by decide)).1 (by decide)
  obtain rfl : (twoClasses.addFirst (.moved [0, 1]) [0]).tree = tree' := congrArg Moved.tree hmoved
  exact ⟨_, follow, hmoved, hfirst, rfl⟩

/-- The first member of a class is lost when it is to become its first one. -/
theorem not_addFirst_keepsNodes_firstMember :
    twoClasses.get? [0, 0] = some (ofName .var "x") ∧ ¬ [0, 0] <+: [0] ∧
      (twoClasses.addFirst (.moved [0, 0]) [0]).done = false ∧
      (twoClasses.addFirst (.moved [0, 0]) [0]).tree.walk.map (·.name) =
        [none, some "A", some "y", some "B"] :=
  ⟨rfl, by decide, rfl, by decide⟩

end Node

end HeaderDocs
