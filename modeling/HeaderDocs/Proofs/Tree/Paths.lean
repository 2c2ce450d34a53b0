import HeaderDocs.Proofs.Tree.Everywhere
import Mathlib.Data.List.Infix

/-!
# Paths when nodes are taken out or put in

When a node is taken out of a tree, the path to any node that is not below it can be followed, and leads
to the node as it was, less the one taken out. Two nodes can be taken out in either order.

* `Path.afterRemove?_eq_none_iff`: which paths cannot be followed.
* `get?_removeAt`: where a path leads that is followed.
* `map_bare_get?_insertAt`, `map_bare_get?_removeAt`: what stays of the node that it leads to.
* `removeBoth_comm`: two nodes are taken out.
-/
namespace HeaderDocs

/-! ## Following a path -/

namespace Path

variable {place path after : Path}

/-- Only what is taken out cannot be found again. -/
theorem afterRemove?_eq_none_iff (h : place ≠ []) : afterRemove? place path = none ↔ place <+: path := by
  induction place generalizing path with
  | nil => exact absurd rfl h
  | cons i place ih =>
    cases path with
    | nil => cases place <;> simp [afterRemove?]
    | cons j path =>
      cases place with
      | nil => simp [afterRemove?, List.cons_prefix_cons]
      | cons k place =>
        rw [List.cons_prefix_cons, ← ih (List.cons_ne_nil _ _)]
        by_cases hij : i = j <;> simp [afterRemove?, hij]

theorem afterRemove?_nil (h : place ≠ []) : afterRemove? place [] = some [] := by
  match place, h with
  | [_], _ => rfl
  | _ :: _ :: _, _ => rfl

theorem afterRemove?_ne_nil (h : path ≠ []) (ha : afterRemove? place path = some after) :
    after ≠ [] := by
  unfold afterRemove? at ha
  split at ha
  · cases ha
  · exact absurd rfl h
  · split at ha
    · cases ha
    · cases ha
      exact List.cons_ne_nil _ _
  · split at ha
    · obtain ⟨_, -, rfl⟩ := Option.map_eq_some_iff.mp ha
      exact List.cons_ne_nil _ _
    · cases ha
      exact List.cons_ne_nil _ _

/-- What stands around a node stays in its place. -/
theorem afterRemove?_of_prefix (h : path <+: place) (hne : path ≠ place) :
    afterRemove? place path = some path := by
  induction path generalizing place with
  | nil => exact afterRemove?_nil fun he => hne he.symm
  | cons j path ih =>
    obtain ⟨rest, rfl⟩ := h
    cases hrest : path ++ rest with
    | nil =>
      obtain ⟨rfl, rfl⟩ := List.append_eq_nil_iff.mp hrest
      exact absurd rfl hne
    | cons k place =>
      have hbelow := ih (List.prefix_append path rest) fun he => hne (congrArg (j :: ·) he)
      rw [hrest] at hbelow
      simp [afterRemove?, hrest, hbelow]

/-- Unless a sibling is taken out, the children of a node stay where they are in it. -/
theorem afterRemove?_concat (h : afterRemove? place path = some after) (hne : place.dropLast ≠ path)
    (i : Nat) : afterRemove? place (path ++ [i]) = some (after ++ [i]) := by
  induction place generalizing path after with
  | nil => cases h
  | cons k place ih =>
    cases place with
    | nil =>
      cases path with
      | nil => exact absurd rfl hne
      | cons j path =>
        simp only [afterRemove?] at h ⊢
        split at h
        · cases h
        · rename_i hkj
          cases h
          exact if_neg hkj
    | cons l place =>
      cases path with
      | nil =>
        cases h
        by_cases hki : k = i <;> simp [afterRemove?, hki]
      | cons j path =>
        simp only [afterRemove?] at h ⊢
        split at h
        · rename_i hkj
          obtain ⟨rest, hrest, rfl⟩ := Option.map_eq_some_iff.mp h
          have hbelow := ih hrest fun he => hne (by rw [← he, hkj]; rfl)
          rw [List.cons_append, afterRemove?, if_pos hkj, hbelow]
          rfl
        · rename_i hkj
          cases h
          exact if_neg hkj

/-- The place around a node is the same whether a child of that place has been taken out or not. -/
theorem afterRemove?_followed {i : Nat} (h : afterRemove? (path ++ [i]) place = some after)
    (hne : place.dropLast ≠ path) : afterRemove? after path = afterRemove? place path := by
  induction path generalizing place after with
  | nil =>
    match place, hne with
    | [], _ =>
      cases h
      rfl
    | [_], hne => exact absurd rfl hne
    | j :: k :: rest, _ =>
      simp only [List.nil_append, afterRemove?] at h
      split at h
      · cases h
      · cases h
        rfl
  | cons o path ih =>
    obtain ⟨k, rest, hrest⟩ : ∃ k rest, path ++ [i] = k :: rest :=
      List.exists_cons_of_ne_nil (List.append_ne_nil_of_right_ne_nil _ (List.cons_ne_nil _ _))
    cases place with
    | nil =>
      rw [List.cons_append, hrest] at h
      cases h
      rfl
    | cons j place =>
      rw [List.cons_append, hrest] at h
      simp only [afterRemove?] at h
      split at h
      · rename_i hoj
        subst hoj
        obtain ⟨below, hbelow, rfl⟩ := Option.map_eq_some_iff.mp h
        rw [← hrest] at hbelow
        cases place with
        | nil =>
          obtain rfl : [] = below := by
            rw [hrest] at hbelow
            rw [afterRemove?_nil (List.cons_ne_nil _ _)] at hbelow
            exact Option.some.inj hbelow
          rfl
        | cons l place =>
          have hsame := ih hbelow fun he => hne (by rw [← he]; rfl)
          cases below with
          | nil => exact absurd rfl (afterRemove?_ne_nil (List.cons_ne_nil _ _) hbelow)
          | cons m below => simp only [afterRemove?, if_true, hsame]
      · cases h
        rfl

end Path

namespace Node

variable {n : Node} {place path after : Path}

/-! ## What a path leads to -/

/-- Only what is done to the node that the path leads to matters. -/
theorem modifyAt_congr {n : Node} {f g : Node → Node} {path : Path}
    (h : ∀ m, n.get? path = some m → f m = g m) : n.modifyAt f path = n.modifyAt g path := by
  induction path generalizing n with
  | nil => exact h n rfl
  | cons i path ih =>
    unfold Node.modifyAt
    congr 1
    refine List.ext_getElem? fun j => ?_
    rw [List.getElem?_modify, List.getElem?_modify]
    split
    · rename_i hij
      subst hij
      cases hc : n.children[i]? with
      | none => rfl
      | some c =>
        refine congrArg some (ih fun m hm => h m ?_)
        simp only [Node.get?, hc, hm]
    · rfl

theorem modifyAt_self (n : Node) (path : Path) : n.modifyAt id path = n := by
  induction path generalizing n with
  | nil => rfl
  | cons i path ih =>
    have hid : (fun c : Node => c.modifyAt id path) = id := funext ih
    rw [Node.modifyAt, hid, List.modify_id]
    exact withChildren_self n

/-- A path that is followed leads to the same node, less the one that has been taken out. -/
theorem get?_removeAt (h : Path.afterRemove? place path = some after) :
    (n.removeAt place).get? after =
      (n.get? path).map fun m => if path <+: place then m.removeAt (place.drop path.length) else m := by
  induction place generalizing n path after with
  | nil => cases h
  | cons i place ih =>
    cases path with
    | nil =>
      rw [Path.afterRemove?_nil (List.cons_ne_nil _ _)] at h
      cases h
      simp
    | cons j path =>
      cases place with
      | nil =>
        simp only [Path.afterRemove?] at h
        split at h
        · cases h
        · rename_i hij
          cases h
          have hchild : (n.children.eraseIdx i)[if i < j then j - 1 else j]? = n.children[j]? := by
            rw [List.getElem?_eraseIdx]
            split
            · rw [if_neg (by omega), Nat.sub_add_cancel (by omega)]
            · rw [if_pos (by omega)]
          have hprefix : ¬ j :: path <+: [i] := fun hp => hij (List.cons_prefix_cons.mp hp).1.symm
          simp only [Node.removeAt, Node.get?, hchild, if_neg hprefix, Option.map_id']
      | cons k place =>
        simp only [Path.afterRemove?] at h
        split at h
        · rename_i hij
          obtain ⟨rest, hrest, rfl⟩ := Option.map_eq_some_iff.mp h
          subst hij
          simp only [Node.removeAt, Node.get?, List.getElem?_modify, if_true, List.cons_prefix_cons,
            true_and, List.length_cons, List.drop_succ_cons]
          cases n.children[i]? with
          | none => rfl
          | some c => exact ih hrest
        · rename_i hij
          cases h
          have hprefix : ¬ j :: path <+: i :: k :: place := fun hp =>
            hij (List.cons_prefix_cons.mp hp).1.symm
          simp only [Node.removeAt, Node.get?, List.getElem?_modify, hij, if_false, hprefix,
            Option.map_id']
          cases n.children[j]? <;> rfl

/-! ## Nodes without those below them -/

/-- A node without what is below it. -/
def bare (n : Node) : Node := n.withChildren []

/-- After an insertion a path leads to a node that is the same but for what is below it, or still to
none. -/
theorem map_bare_get?_insertAt (n new : Node) (place path : Path) :
    ((n.insertAt new place).get? (Path.afterInsert place path)).map bare = (n.get? path).map bare := by
  induction place generalizing n path with
  | nil => rfl
  | cons i place ih =>
    cases path with
    | nil => cases place <;> rfl
    | cons j path =>
      cases place with
      | nil =>
        have hchild : (n.children.insertIdx i new)[if i ≤ j then j + 1 else j]? = n.children[j]? := by
          split
          · rw [List.getElem?_insertIdx_of_gt (by omega), Nat.add_sub_cancel]
          · rw [List.getElem?_insertIdx_of_lt (by omega)]
        simp only [Node.insertAt, Path.afterInsert, Node.get?, hchild]
      | cons k place =>
        by_cases hij : i = j
        · subst hij
          simp only [Node.insertAt, Path.afterInsert, if_true, Node.get?, List.getElem?_modify]
          cases n.children[i]? with
          | none => rfl
          | some c => exact ih c path
        · simp only [Node.insertAt, Path.afterInsert, hij, if_false, Node.get?, List.getElem?_modify]
          cases n.children[j]? <;> rfl

theorem bare_removeAt (n : Node) (path : Path) : (n.removeAt path).bare = n.bare := by
  match path with
  | [] => rfl
  | [_] => rfl
  | _ :: _ :: _ => rfl

theorem map_bare_get?_removeAt (n : Node) (h : Path.afterRemove? place path = some after) :
    ((n.removeAt place).get? after).map bare = (n.get? path).map bare := by
  rw [get?_removeAt h, Option.map_map]
  refine Option.map_congr fun m _ => ?_
  rw [Function.comp_apply]
  split
  · exact bare_removeAt m _
  · rfl

/-! ## Taking two nodes out -/

/-- Takes the node out that a path leads to, and then what another path leads to, if that is still
there. -/
def removeBoth (n : Node) (place path : Path) : Node :=
  ((Path.afterRemove? place path).map (n.removeAt place).removeAt).getD (n.removeAt place)

theorem eraseIdx_comm {α : Type} (l : List α) {i j : Nat} (h : i < j) :
    (l.eraseIdx i).eraseIdx (j - 1) = (l.eraseIdx j).eraseIdx i := by
  refine List.ext_getElem? fun k => ?_
  simp only [List.getElem?_eraseIdx]
  -- both leave out the positions `i` and `j`
  grind

theorem removeAt_cons (n : Node) (i : Nat) (h : path ≠ []) :
    n.removeAt (i :: path) = n.withChildren (n.children.modify i (·.removeAt path)) := by
  obtain ⟨j, path, rfl⟩ := List.exists_cons_of_ne_nil h
  rfl

theorem removeBoth_of_none (h : Path.afterRemove? place path = none) :
    n.removeBoth place path = n.removeAt place := by
  rw [removeBoth, h]
  rfl

theorem removeBoth_of_some (h : Path.afterRemove? place path = some after) :
    n.removeBoth place path = (n.removeAt place).removeAt after := by
  rw [removeBoth, h]
  rfl

theorem removeBoth_cons (n : Node) (i : Nat) (hplace : place ≠ []) (hpath : path ≠ []) :
    n.removeBoth (i :: place) (i :: path) =
      n.withChildren (n.children.modify i (·.removeBoth place path)) := by
  have hfollow : Path.afterRemove? (i :: place) (i :: path) =
      (Path.afterRemove? place path).map (i :: ·) := by
    obtain ⟨k, place, rfl⟩ := List.exists_cons_of_ne_nil hplace
    exact if_pos rfl
  cases h : Path.afterRemove? place path with
  | none =>
    rw [removeBoth_of_none (by rw [hfollow, h]; rfl), removeAt_cons n i hplace]
    simp only [removeBoth_of_none h]
  | some after =>
    have hafter := Path.afterRemove?_ne_nil hpath h
    rw [removeBoth_of_some (by rw [hfollow, h]; rfl), removeAt_cons _ i hafter,
      removeAt_cons n i hplace]
    simp only [removeBoth_of_some h, withChildren, List.modify_modify_eq, Function.comp_def]

theorem removeBoth_cons_of_ne (n : Node) {i j : Nat} (h : i ≠ j) (hplace : place ≠ [])
    (hpath : path ≠ []) :
    n.removeBoth (i :: place) (j :: path) =
      n.withChildren ((n.children.modify i (·.removeAt place)).modify j (·.removeAt path)) := by
  have hfollow : Path.afterRemove? (i :: place) (j :: path) = some (j :: path) := by
    obtain ⟨k, place, rfl⟩ := List.exists_cons_of_ne_nil hplace
    exact if_neg h
  rw [removeBoth_of_some hfollow, removeAt_cons _ j hpath, removeAt_cons n i hplace]
  rfl

theorem removeBoth_child (n : Node) (i : Nat) (h : path ≠ []) :
    n.removeBoth [i] path = n.removeBoth path [i] := by
  obtain ⟨j, path, rfl⟩ := List.exists_cons_of_ne_nil h
  by_cases hij : i = j
  · subst hij
    rw [removeBoth_of_none (by simp [Path.afterRemove?])]
    cases path with
    | nil => rw [removeBoth_of_none (by simp [Path.afterRemove?])]
    | cons k path =>
      have hfollow : Path.afterRemove? (i :: k :: path) [i] = some [i] :=
        Path.afterRemove?_of_prefix ⟨k :: path, rfl⟩ (by simp)
      rw [removeBoth_of_some hfollow]
      exact congrArg n.withChildren (List.eraseIdx_modify_of_eq _ i n.children).symm
  · have hchild : Path.afterRemove? [i] (j :: path) = some ((if i < j then j - 1 else j) :: path) :=
      if_neg hij
    rw [removeBoth_of_some hchild]
    cases path with
    | nil =>
      have hother : Path.afterRemove? [j] [i] = some [if j < i then i - 1 else i] :=
        if_neg (Ne.symm hij)
      rw [removeBoth_of_some hother]
      refine congrArg n.withChildren ?_
      change (n.children.eraseIdx i).eraseIdx _ = (n.children.eraseIdx j).eraseIdx _
      rcases Nat.lt_or_gt_of_ne hij with hlt | hlt
      · rw [if_pos hlt, if_neg (Nat.lt_asymm hlt), eraseIdx_comm _ hlt]
      · rw [if_pos hlt, if_neg (Nat.lt_asymm hlt), eraseIdx_comm _ hlt]
    | cons k path =>
      have hother : Path.afterRemove? (j :: k :: path) [i] = some [i] := if_neg (Ne.symm hij)
      rw [removeBoth_of_some hother]
      refine congrArg n.withChildren ?_
      change (n.children.eraseIdx i).modify _ _ = (n.children.modify j _).eraseIdx i
      rcases Nat.lt_or_gt_of_ne hij with hlt | hlt
      · rw [if_pos hlt, List.eraseIdx_modify_of_lt _ j i _ hlt]
      · rw [if_neg (Nat.lt_asymm hlt), List.eraseIdx_modify_of_gt _ j i _ hlt]

/-- Two nodes can be taken out in either order. -/
theorem removeBoth_comm (n : Node) (hplace : place ≠ []) (hpath : path ≠ []) :
    n.removeBoth place path = n.removeBoth path place := by
  induction place generalizing n path with
  | nil => exact absurd rfl hplace
  | cons i place ih =>
    obtain ⟨j, path, rfl⟩ := List.exists_cons_of_ne_nil hpath
    by_cases hp : place = []
    · rw [hp]
      exact removeBoth_child n i hpath
    · by_cases hq : path = []
      · rw [hq]
        exact (removeBoth_child n j hplace).symm
      · by_cases hij : i = j
        · rw [hij, removeBoth_cons n j hp hq, removeBoth_cons n j hq hp]
          simp only [fun c => ih c hp hq]
        · rw [removeBoth_cons_of_ne n hij hp hq, removeBoth_cons_of_ne n (Ne.symm hij) hq hp,
            List.modify_modify_ne _ _ _ hij]

end Node

end HeaderDocs
