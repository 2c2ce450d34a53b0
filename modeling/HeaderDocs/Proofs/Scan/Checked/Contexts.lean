import HeaderDocs.Proofs.Scan.Checked

/-!
# What a context can rely on

No fragment of a run is empty, the places of a context lead to nodes, and there is a node for each
claim: `Context.Placed` and `Context.ClaimsFound`. Both hold for any tree, and follow the changes of
the scope as its references do.

* `Path.map_key_get?_insertAt`, `Path.map_key_get?_removeAt`: what a path leads to after a change.
* `Context.Placed.afterInsert`, `Context.ClaimsFound.afterInsert` and their companions.
-/
namespace HeaderDocs

open HeaderDocs.Node

/-! ## Paths -/

namespace Path

variable {n new : Node} {place path : Path}

/-- After an insertion a path leads to a node of the same kind and name, or still to none. -/
theorem map_key_get?_insertAt :
    ((n.insertAt new place).get? (Path.afterInsert place path)).map key =
      (n.get? path).map key := by
  have hbare := congrArg (Option.map key) (map_bare_get?_insertAt n new place path)
  rw [Option.map_map, Option.map_map] at hbare
  exact hbare

theorem map_key_get?_removeAt {after : Path} (ha : Path.afterRemove? place path = some after) :
    ((n.removeAt place).get? after).map key = (n.get? path).map key := by
  have hbare := congrArg (Option.map key) (map_bare_get?_removeAt n ha)
  rw [Option.map_map, Option.map_map] at hbare
  exact hbare

theorem isSome_get?_insertAt (h : (n.get? path).isSome = true) :
    ((n.insertAt new place).get? (Path.afterInsert place path)).isSome = true := by
  rw [← Option.isSome_map, map_key_get?_insertAt, Option.isSome_map]
  exact h

theorem isSome_get?_removeAt (h : (n.get? path).isSome = true) {after : Path}
    (ha : Path.afterRemove? place path = some after) :
    ((n.removeAt place).get? after).isSome = true := by
  rw [← Option.isSome_map, map_key_get?_removeAt ha, Option.isSome_map]
  exact h

theorem exists_afterInsert_singleton (place : Path) (i : Nat) :
    ∃ j, Path.afterInsert place [i] = [j] := by
  match place with
  | [] => exact ⟨i, rfl⟩
  | [k] => exact ⟨_, rfl⟩
  | k :: l :: rest =>
    unfold Path.afterInsert
    split <;> exact ⟨i, rfl⟩

theorem exists_afterRemove?_singleton {place : Path} {i : Nat} {after : Path}
    (h : Path.afterRemove? place [i] = some after) : ∃ j, after = [j] := by
  match place with
  | [] => cases h
  | [k] =>
    simp only [Path.afterRemove?] at h
    split at h
    · cases h
    · exact ⟨_, (Option.some.inj h).symm⟩
  | k :: l :: rest =>
    simp only [Path.afterRemove?] at h
    split at h
    · exact ⟨i, (Option.some.inj h).symm⟩
    · exact ⟨i, (Option.some.inj h).symm⟩

end Path

/-! ## Insertions -/

namespace Node.Insertion

variable {scope node : Node} {ins : Insertion}

theorem lt_of_replaced (h : scope.insertion? node = some ins) {i : Nat}
    (hi : ins.replaced = some i) : i < scope.children.length := by
  obtain ⟨name, -, -, hreplaced, -⟩ := insertion?_cases h
  exact (List.findIdx?_eq_some_iff_getElem.mp (hreplaced.symm.trans hi)).1

theorem length_le_apply (h : scope.insertion? node = some ins) :
    scope.children.length ≤ (ins.apply scope.children).length := by
  have hposition := position_le h
  rw [apply_eq, List.length_insertIdx, if_pos hposition]
  unfold rest
  split
  · rw [List.length_eraseIdx]
    split <;> omega
  · omega

end Node.Insertion

namespace Scan

/-! ## Runs -/

namespace Run

/-- No fragment is empty. -/
def Legible (run : Run) : Prop := ∀ f ∈ run, f.text ≠ ""

variable {run other : Run}

theorem legible_nil : Legible [] := nofun

theorem Legible.subset (h : run.Legible) (hs : other ⊆ run) : other.Legible :=
  fun f hf => h f (hs hf)

theorem Legible.push (h : run.Legible) {text : String} (htext : text ≠ "") (spaced : Bool) :
    (run.push text spaced).Legible := by
  intro f hf
  rcases List.mem_append.mp hf with hf | hf
  · exact h f hf
  · rwa [List.mem_singleton.mp hf]

theorem Legible.pushWord (h : run.Legible) {word : String} (hword : word ≠ "") :
    (run.pushWord word).Legible :=
  h.push hword _

theorem Legible.pushMark (h : run.Legible) {mark : String} (hmark : mark ≠ "") :
    (run.pushMark mark).Legible :=
  h.push hmark _

theorem Legible.closeUp (h : run.Legible) : run.closeUp.Legible := by
  cases run with
  | nil => exact legible_nil
  | cons f fs =>
    intro g hg
    rcases List.mem_cons.mp hg with rfl | hg
    · exact h f (List.mem_cons_self ..)
    · exact h g (List.mem_cons_of_mem _ hg)

theorem legible_takeWhile_isWord (run : Run) : Legible (run.takeWhile (·.isWord)) := by
  intro f hf htext
  have hword : f.isWord = true := List.all_eq_true.mp List.all_takeWhile f hf
  unfold Fragment.isWord at hword
  rw [htext] at hword
  cases hword

end Run

/-! ## Places -/

namespace Place

variable {scope scope' new removed : Node} {p : Place} {path : Path}

/-- A place leads to a node. -/
def Found (scope : Node) (p : Place) : Prop := (p.node? scope).isSome = true

theorem found_inScope {i : Nat} : (inScope i).Found scope ↔ i < scope.children.length := by
  simp [Found, node?]

theorem found_aside (node : Node) : (aside node).Found scope := rfl

theorem Found.mono (h : p.Found scope) (hle : scope.children.length ≤ scope'.children.length) :
    p.Found scope' := by
  cases p with
  | aside node => rfl
  | inScope i => exact found_inScope.mpr (Nat.lt_of_lt_of_le (found_inScope.mp h) hle)

theorem afterRemove_below (k : Nat) {rest : Path} (hrest : rest ≠ []) (removed : Node) (p : Place) :
    p.afterRemove (k :: rest) removed = p := by
  obtain ⟨l, rest, rfl⟩ := List.exists_cons_of_ne_nil hrest
  cases p with
  | aside node => rfl
  | inScope i =>
    unfold afterRemove Path.afterRemove?
    by_cases hki : k = i <;> simp [hki, Path.afterRemove?]

theorem afterInsert_below (k : Nat) {rest : Path} (hrest : rest ≠ []) (p : Place) :
    p.afterInsert (k :: rest) = p := by
  obtain ⟨l, rest, rfl⟩ := List.exists_cons_of_ne_nil hrest
  cases p with
  | aside node => rfl
  | inScope i =>
    unfold afterInsert Path.afterInsert
    by_cases hki : k = i <;> simp [hki, Path.afterInsert]

/-- After an insertion a place leads to a node with at least as many children. -/
theorem node?_afterInsert {n : Node} (hn : p.node? scope = some n) :
    ∃ n', (p.afterInsert path).node? (scope.insertAt new path) = some n' ∧
      n.children.length ≤ n'.children.length := by
  cases p with
  | aside node => exact ⟨n, hn, Nat.le_refl _⟩
  | inScope i =>
    simp only [node?] at hn
    cases path with
    | nil => exact ⟨n, hn, Nat.le_refl _⟩
    | cons k tail =>
      cases tail with
      | nil =>
        have hget : scope.get? [i] = some n := by simp [Node.get?, hn]
        have hafter := get?_insertAt_afterInsert new scope n k i [] hget
        refine ⟨n, ?_, Nat.le_refl _⟩
        simp only [Path.afterInsert, Node.get?] at hafter
        simp only [afterInsert, Path.afterInsert, node?]
        split at hafter
        · rename_i hc
          rw [hc]
          exact hafter
        · cases hafter
      | cons l rest =>
        rw [afterInsert_below k (List.cons_ne_nil l rest)]
        simp only [node?, Node.insertAt, List.getElem?_modify, hn]
        by_cases hki : k = i
        · refine ⟨n.insertAt new (l :: rest), by simp [hki], ?_⟩
          cases rest with
          | nil =>
            simp only [Node.insertAt, List.length_insertIdx]
            split <;> omega
          | cons => simp [Node.insertAt]
        · exact ⟨n, by simp [hki], Nat.le_refl _⟩

/-- After the removal of a child a place leads to the node it has led to. -/
theorem node?_afterRemove {n : Node} (hn : p.node? scope = some n) {k : Nat}
    (hr : scope.get? [k] = some removed) :
    (p.afterRemove [k] removed).node? (scope.removeAt [k]) = some n := by
  cases p with
  | aside node => exact hn
  | inScope i =>
    simp only [node?] at hn
    by_cases hki : k = i
    · subst hki
      simp only [Node.get?, hn, Option.some.injEq] at hr
      simp [afterRemove, Path.afterRemove?, node?, hr]
    · simp only [afterRemove, Path.afterRemove?, hki, if_false, node?, Node.removeAt,
        List.getElem?_eraseIdx]
      by_cases hlt : k < i
      · rw [if_pos hlt, if_neg (by omega), Nat.sub_add_cancel (by omega)]
        exact hn
      · rw [if_neg hlt, if_pos (by omega)]
        exact hn

theorem Found.afterInsert (h : p.Found scope) :
    (p.afterInsert path).Found (scope.insertAt new path) := by
  obtain ⟨n, hn⟩ := Option.isSome_iff_exists.mp h
  obtain ⟨n', hn', -⟩ := node?_afterInsert hn
  exact Option.isSome_iff_exists.mpr ⟨n', hn'⟩

theorem Found.afterRemove (h : p.Found scope) (hr : scope.get? path = some removed) :
    (p.afterRemove path removed).Found (scope.removeAt path) := by
  obtain ⟨n, hn⟩ := Option.isSome_iff_exists.mp h
  match path with
  | [] =>
    cases p with
    | aside node => rfl
    | inScope i => rfl
  | [k] => exact Option.isSome_iff_exists.mpr ⟨n, node?_afterRemove hn hr⟩
  | k :: l :: rest =>
    rw [afterRemove_below k (List.cons_ne_nil l rest)]
    exact h.mono (by simp [Node.removeAt])

end Place

/-! ## Claims -/

namespace Claim

def OnChild (claim : Claim) : Prop := ∃ i, claim = .recorded [i]

theorem OnChild.afterInsert {claim : Claim} (h : claim.OnChild) (path : Path) :
    (claim.afterInsert path).OnChild := by
  obtain ⟨i, rfl⟩ := h
  obtain ⟨j, hj⟩ := Path.exists_afterInsert_singleton path i
  exact ⟨j, congrArg recorded hj⟩

theorem OnChild.afterRemove? {claim after : Claim} (h : claim.OnChild) {path : Path}
    (ha : claim.afterRemove? path = some after) : after.OnChild := by
  obtain ⟨i, rfl⟩ := h
  obtain ⟨q, hq, rfl⟩ := Option.map_eq_some_iff.mp ha
  obtain ⟨j, rfl⟩ := Path.exists_afterRemove?_singleton hq
  exact ⟨j, rfl⟩

end Claim

/-! ## Contexts -/

namespace Context

/-- What a context relies on, its claims apart. -/
structure Placed (scope : Node) (c : Context) : Prop where
  run : c.run.Legible
  base : c.base.Legible
  home : ∀ h, c.header = some h → ∀ p, h.home = some p → p.Found scope
  record : ∀ p, c.record = some p → p.Found scope
  enumeration : ∀ p, c.enumeration = some p → p.Found scope

/-- The nodes that a comment on this line describes. -/
def claims (c : Context) : List Claim := c.claim.getD []

/-- No claimed node is below another one, and the constants of an enumeration are claimed inside of
its braces. -/
structure ClaimsApart (c : Context) : Prop where
  apart : c.claims.length ≤ 1 ∨ ∀ claim ∈ c.claims, claim.OnChild
  braces : ∀ i, .constant i ∈ c.claims → 0 < c.braces

structure ClaimsFound (scope : Node) (c : Context) : Prop extends c.ClaimsApart where
  found : ∀ claim ∈ c.claims, (c.claimed? scope claim).isSome = true

variable {scope scope' new removed : Node} {c d : Context} {path : Path}

theorem placed_ofScope (scope node : Node) : (Context.ofScope node).Placed scope :=
  ⟨Run.legible_nil, Run.legible_nil, nofun, nofun, nofun⟩

theorem claimsFound_nil (h : c.claims = []) : c.ClaimsFound scope := by
  refine ⟨⟨?_, ?_⟩, ?_⟩ <;> simp [h]

theorem mem_claims_afterDefinition {aliased : Bool} {claim : Claim}
    (h : claim ∈ (c.afterDefinition aliased).claims) :
    claim ∈ c.claims ∨ claim ∈ OpenScope.claimOnPlace c.record ∨
      claim ∈ OpenScope.claimOnPlace c.enumeration := by
  unfold claims afterDefinition at *
  cases aliased with
  | false => cases h
  | true =>
    cases hc : c.claim with
    | none => simp [hc] at h
    | some before => simpa [hc] using h

theorem Placed.mono (h : c.Placed scope) (hle : scope.children.length ≤ scope'.children.length) :
    c.Placed scope' where
  run := h.run
  base := h.base
  home := fun head hhead p hp => (h.home head hhead p hp).mono hle
  record := fun p hp => (h.record p hp).mono hle
  enumeration := fun p hp => (h.enumeration p hp).mono hle

/-- Claims on children of the scope do not depend on the rest of the context. -/
theorem claimsFound_onChild
    (h : ∀ claim ∈ c.claims, ∃ i, claim = .recorded [i] ∧ (scope.get? [i]).isSome = true) :
    c.ClaimsFound scope := by
  refine ⟨⟨.inr fun claim hclaim => ?_, fun i hi => ?_⟩, fun claim hclaim => ?_⟩
  · obtain ⟨i, he, -⟩ := h claim hclaim
    exact ⟨i, he⟩
  · obtain ⟨j, he, -⟩ := h _ hi
    cases he
  · obtain ⟨i, rfl, hi⟩ := h claim hclaim
    exact hi

theorem ClaimsFound.onChild (h : c.ClaimsFound scope)
    (hall : ∀ claim ∈ c.claims, claim.OnChild) (claim : Claim) (hclaim : claim ∈ c.claims) :
    ∃ i, claim = .recorded [i] ∧ (scope.get? [i]).isSome = true := by
  obtain ⟨i, rfl⟩ := hall claim hclaim
  exact ⟨i, rfl, h.found _ hclaim⟩

/-! ### Changes of the scope -/

theorem Placed.afterInsert (h : c.Placed scope) :
    (c.afterInsert path).Placed (scope.insertAt new path) where
  run := h.run
  base := h.base
  home := by
    intro head hhead p hp
    obtain ⟨head', hhead', rfl⟩ := Option.map_eq_some_iff.mp hhead
    obtain ⟨p', hp', rfl⟩ := Option.map_eq_some_iff.mp hp
    exact (h.home head' hhead' p' hp').afterInsert
  record := by
    intro p hp
    obtain ⟨p', hp', rfl⟩ := Option.map_eq_some_iff.mp hp
    exact (h.record p' hp').afterInsert
  enumeration := by
    intro p hp
    obtain ⟨p', hp', rfl⟩ := Option.map_eq_some_iff.mp hp
    exact (h.enumeration p' hp').afterInsert

theorem Placed.afterRemove (h : c.Placed scope) (hr : scope.get? path = some removed) :
    (c.afterRemove path removed).Placed (scope.removeAt path) where
  run := h.run
  base := h.base
  home := by
    intro head hhead p hp
    obtain ⟨head', hhead', rfl⟩ := Option.map_eq_some_iff.mp hhead
    obtain ⟨p', hp', rfl⟩ := Option.map_eq_some_iff.mp hp
    exact (h.home head' hhead' p' hp').afterRemove hr
  record := by
    intro p hp
    obtain ⟨p', hp', rfl⟩ := Option.map_eq_some_iff.mp hp
    exact (h.record p' hp').afterRemove hr
  enumeration := by
    intro p hp
    obtain ⟨p', hp', rfl⟩ := Option.map_eq_some_iff.mp hp
    exact (h.enumeration p' hp').afterRemove hr

theorem claims_afterInsert (path : Path) (c : Context) :
    (c.afterInsert path).claims = c.claims.map (Claim.afterInsert path) := by
  unfold claims Context.afterInsert
  cases c.claim <;> rfl

theorem claims_afterRemove (path : Path) (removed : Node) (c : Context) :
    (c.afterRemove path removed).claims = c.claims.filterMap (Claim.afterRemove? path) := by
  unfold claims Context.afterRemove
  cases c.claim <;> rfl

theorem isSome_claimed?_constant {i : Nat} :
    (c.claimed? scope (.constant i)).isSome = true ↔
      ∃ p n, c.enumeration = some p ∧ p.node? scope = some n ∧ i < n.children.length := by
  unfold claimed?
  cases c.enumeration with
  | none => simp
  | some p => cases h : p.node? scope <;> simp [h]

theorem isSome_claimed?_afterInsert {claim : Claim} (h : (c.claimed? scope claim).isSome = true) :
    ((c.afterInsert path).claimed? (scope.insertAt new path) (claim.afterInsert path)).isSome =
      true := by
  cases claim with
  | recorded q => exact Path.isSome_get?_insertAt h
  | argument =>
    unfold claimed? at h ⊢
    cases hc : c.header with
    | none => rw [hc] at h; cases h
    | some head => simpa [Claim.afterInsert, Context.afterInsert, hc] using h
  | constant i =>
    obtain ⟨p, n, hp, hn, hi⟩ := isSome_claimed?_constant.mp h
    obtain ⟨n', (hn' : (p.afterInsert path).node? (scope.insertAt new path) = some n'), hle⟩ :=
      Place.node?_afterInsert hn
    refine isSome_claimed?_constant.mpr ⟨_, n', ?_, hn', by omega⟩
    simp [Context.afterInsert, hp]

/-- Only a constant can be lost below its enumeration. -/
theorem isSome_claimed?_afterRemove {claim after : Claim}
    (h : (c.claimed? scope claim).isSome = true) (hr : scope.get? path = some removed)
    (ha : claim.afterRemove? path = some after)
    (hconstant : (∃ k, path = [k]) ∨ ∀ i, claim ≠ .constant i) :
    ((c.afterRemove path removed).claimed? (scope.removeAt path) after).isSome = true := by
  cases claim with
  | recorded q =>
    obtain ⟨q', hq', rfl⟩ := Option.map_eq_some_iff.mp ha
    exact Path.isSome_get?_removeAt h hq'
  | argument =>
    cases ha
    unfold claimed? at h ⊢
    cases hc : c.header with
    | none => rw [hc] at h; cases h
    | some head => simpa [Context.afterRemove, hc] using h
  | constant i =>
    cases ha
    obtain ⟨k, rfl⟩ := hconstant.resolve_right fun hne => hne i rfl
    obtain ⟨p, n, hp, hn, hi⟩ := isSome_claimed?_constant.mp h
    refine isSome_claimed?_constant.mpr ⟨_, n, ?_, Place.node?_afterRemove hn hr, hi⟩
    simp [Context.afterRemove, hp]

theorem ClaimsApart.afterInsert (h : c.ClaimsApart) (path : Path) :
    (c.afterInsert path).ClaimsApart := by
  refine ⟨?_, ?_⟩ <;> rw [claims_afterInsert]
  · rw [List.length_map]
    refine h.apart.imp_right fun hall claim hclaim => ?_
    obtain ⟨before, hbefore, rfl⟩ := List.mem_map.mp hclaim
    exact (hall before hbefore).afterInsert path
  · intro i hi
    obtain ⟨before, hbefore, he⟩ := List.mem_map.mp hi
    cases before <;> cases he
    exact h.braces i hbefore

theorem ClaimsApart.afterRemove (h : c.ClaimsApart) (path : Path) (removed : Node) :
    (c.afterRemove path removed).ClaimsApart := by
  refine ⟨?_, ?_⟩ <;> rw [claims_afterRemove]
  · refine h.apart.imp (Nat.le_trans (List.length_filterMap_le ..)) fun hall claim hclaim => ?_
    obtain ⟨before, hbefore, ha⟩ := List.mem_filterMap.mp hclaim
    exact (hall before hbefore).afterRemove? ha
  · intro i hi
    obtain ⟨before, hbefore, ha⟩ := List.mem_filterMap.mp hi
    cases before with
    | recorded q =>
      obtain ⟨_, -, he⟩ := Option.map_eq_some_iff.mp ha
      cases he
    | argument => cases ha
    | constant j =>
      cases ha
      exact h.braces i hbefore

theorem ClaimsFound.afterInsert (h : c.ClaimsFound scope) :
    (c.afterInsert path).ClaimsFound (scope.insertAt new path) := by
  refine ⟨h.toClaimsApart.afterInsert path, ?_⟩
  rw [claims_afterInsert]
  intro claim hclaim
  obtain ⟨before, hbefore, rfl⟩ := List.mem_map.mp hclaim
  exact isSome_claimed?_afterInsert (h.found before hbefore)

theorem ClaimsFound.afterRemove (h : c.ClaimsFound scope) (hr : scope.get? path = some removed)
    (hconstant : (∃ k, path = [k]) ∨ ∀ i, .constant i ∉ c.claims) :
    (c.afterRemove path removed).ClaimsFound (scope.removeAt path) := by
  refine ⟨h.toClaimsApart.afterRemove path removed, ?_⟩
  rw [claims_afterRemove]
  intro claim hclaim
  obtain ⟨before, hbefore, ha⟩ := List.mem_filterMap.mp hclaim
  exact isSome_claimed?_afterRemove (h.found before hbefore) hr ha
    (hconstant.imp_right fun hall i he => hall i (he ▸ hbefore))

/-- After a node below has been replaced a place leads to a node with at least as many children. -/
theorem Place.node?_replace {p : Place} {n : Node} (hn : p.node? scope = some n) {k : Nat}
    {rest : Path} {owner node : Node} (howner : scope.get? (k :: rest) = some owner)
    {ins : Insertion} (hins : owner.insertion? node = some ins) :
    ∃ n', p.node? (scope.modifyAt (fun m => m.withChildren (ins.apply m.children)) (k :: rest)) =
      some n' ∧ n.children.length ≤ n'.children.length := by
  cases p with
  | aside m => exact ⟨n, hn, Nat.le_refl _⟩
  | inScope i =>
    simp only [Place.node?] at hn
    simp only [Place.node?, Node.modifyAt, List.getElem?_modify, hn]
    by_cases hki : k = i
    · refine ⟨n.modifyAt (fun m => m.withChildren (ins.apply m.children)) rest, by simp [hki], ?_⟩
      cases rest with
      | nil =>
        obtain rfl : n = owner := by simpa [Node.get?, hki, hn] using howner
        exact Insertion.length_le_apply hins
      | cons => simp [Node.modifyAt]
    · exact ⟨n, by simp [hki], Nat.le_refl _⟩

/-- One node is taken out and another one put in: the enumeration of a claimed constant loses
nothing. -/
theorem ClaimsFound.replace (h : c.ClaimsFound scope) {home : Path} {owner node : Node}
    (howner : scope.get? home = some owner) {ins : Insertion}
    (hins : owner.insertion? node = some ins) {i : Nat} (hreplaced : ins.replaced = some i)
    (hr : scope.get? (home ++ [i]) = some removed) :
    ((c.afterRemove (home ++ [i]) removed).afterInsert (home ++ [ins.position])).ClaimsFound
      ((scope.removeAt (home ++ [i])).insertAt ins.node (home ++ [ins.position])) := by
  cases home with
  | nil => exact (h.afterRemove hr (.inl ⟨i, rfl⟩)).afterInsert
  | cons k rest =>
    refine ⟨(h.toClaimsApart.afterRemove _ removed).afterInsert _, ?_⟩
    rw [claims_afterInsert, claims_afterRemove]
    intro claim hclaim
    obtain ⟨after, hafter, rfl⟩ := List.mem_map.mp hclaim
    obtain ⟨before, hbefore, ha⟩ := List.mem_filterMap.mp hafter
    have hfound := h.found before hbefore
    cases before with
    | constant j =>
      cases ha
      obtain ⟨p, n, hp, hn, hj⟩ := isSome_claimed?_constant.mp hfound
      obtain ⟨n', hn', hle⟩ := Place.node?_replace hn howner hins
      rw [insertAt_removeAt hreplaced]
      refine isSome_claimed?_constant.mpr ⟨p, n', ?_, hn', by omega⟩
      have hplace : ((p.afterRemove (k :: (rest ++ [i])) removed).afterInsert
          (k :: (rest ++ [ins.position]))) = p := by
        rw [Place.afterRemove_below k (by simp), Place.afterInsert_below k (by simp)]
      simp [Context.afterInsert, Context.afterRemove, hp, hplace]
    | recorded q =>
      exact isSome_claimed?_afterInsert (isSome_claimed?_afterRemove hfound hr ha (.inr nofun))
    | argument =>
      exact isSome_claimed?_afterInsert (isSome_claimed?_afterRemove hfound hr ha (.inr nofun))

/-! ### Changes of the context -/

/-- What a context relies on. -/
structure Valid (scope : Node) (c : Context) : Prop extends c.Placed scope, c.ClaimsFound scope

/-- Only the run, the shared words and the places of a context matter. -/
theorem Placed.congr (h : c.Placed scope) (hrun : d.run.Legible) (hbase : d.base.Legible)
    (he : (d.header, d.record, d.enumeration) = (c.header, c.record, c.enumeration)) :
    d.Placed scope := by
  simp only [Prod.mk.injEq] at he
  obtain ⟨h1, h2, h3⟩ := he
  exact ⟨hrun, hbase, h1 ▸ h.home, h2 ▸ h.record, h3 ▸ h.enumeration⟩

/-- Only the claims, the header, the enumeration and the open braces of a context matter. -/
theorem ClaimsFound.congr (h : c.ClaimsFound scope)
    (he : (d.claim, d.header.map (·.node), d.enumeration, d.braces) =
      (c.claim, c.header.map (·.node), c.enumeration, c.braces)) : d.ClaimsFound scope := by
  simp only [Prod.mk.injEq] at he
  obtain ⟨h1, h2, h3, h4⟩ := he
  have hclaims : d.claims = c.claims := congrArg (Option.getD · []) h1
  have hargument : ∀ e : Context, e.header.bind (·.node.children.getLast?) =
      (e.header.map (·.node)).bind (·.children.getLast?) := fun e => by cases e.header <;> rfl
  have hclaimed : ∀ claim, d.claimed? scope claim = c.claimed? scope claim := by
    intro claim
    cases claim with
    | recorded path => rfl
    | argument => unfold claimed?; rw [hargument, hargument, h2]
    | constant i => unfold claimed?; rw [h3]
  refine ⟨⟨?_, ?_⟩, ?_⟩
  · rw [hclaims]
    exact h.apart
  · rw [hclaims, h4]
    exact h.braces
  · rw [hclaims]
    exact fun claim hclaim => hclaimed claim ▸ h.found claim hclaim

/-- What reading the words of a declaration leaves alone. -/
def kept (c : Context) :
    Option Header × Option Place × Option Place × Option (List Claim) × Nat :=
  (c.header, c.record, c.enumeration, c.claim, c.braces)

theorem Valid.congr (h : c.Valid scope) (hrun : d.run.Legible) (hbase : d.base.Legible)
    (he : d.kept = c.kept) : d.Valid scope := by
  simp only [kept, Prod.mk.injEq] at he
  obtain ⟨h1, h2, h3, h4, h5⟩ := he
  exact ⟨h.toPlaced.congr hrun hbase (by rw [h1, h2, h3]),
    h.toClaimsFound.congr (by rw [h1, h3, h4, h5])⟩

theorem Placed.valid (h : c.Placed scope) (hclaims : c.claims = []) : c.Valid scope :=
  ⟨h, claimsFound_nil hclaims⟩

theorem kept_startRun (c : Context) : c.startRun.kept = c.kept := by
  unfold startRun
  split <;> rfl

theorem Placed.legible_startRun (h : c.Placed scope) :
    c.startRun.run.Legible ∧ c.startRun.base.Legible := by
  unfold startRun
  split
  · exact ⟨h.base, Run.legible_nil⟩
  · exact ⟨h.run, h.base⟩

theorem Valid.startRun (h : c.Valid scope) : c.startRun.Valid scope :=
  h.congr h.legible_startRun.1 h.legible_startRun.2 (kept_startRun c)

theorem Valid.dropRun (h : c.Valid scope) : c.dropRun.Valid scope :=
  h.congr Run.legible_nil h.base rfl

theorem Valid.takeComment (h : c.Valid scope) : c.takeComment.Valid scope :=
  h.congr h.run h.base rfl

theorem Valid.pushWord (h : c.Valid scope) {word : String} (hword : word ≠ "") :
    (c.pushWord word).Valid scope :=
  h.congr (h.legible_startRun.1.pushWord hword) h.legible_startRun.2 (kept_startRun c)

theorem Valid.pushMark (h : c.Valid scope) {mark : String} (hmark : mark ≠ "") :
    (c.pushMark mark).Valid scope := by
  unfold Context.pushMark
  dsimp only
  split
  · exact h.startRun
  · exact h.congr (h.legible_startRun.1.pushMark hmark) h.legible_startRun.2 (kept_startRun c)

theorem Valid.pushIfStarted (h : c.Valid scope) {text : String} (htext : text ≠ "")
    (spaced : Bool) : (c.pushIfStarted text spaced).Valid scope := by
  unfold Context.pushIfStarted
  split
  · exact h
  · exact h.congr (h.run.push htext spaced) h.base rfl

theorem Valid.pushFragment (h : c.Valid scope) {text : String} (htext : text ≠ "")
    (spaced : Bool) : (c.pushFragment text spaced).Valid scope :=
  h.startRun.pushIfStarted htext spaced

theorem Valid.forgetClaim (h : c.Valid scope) : Valid scope { c with claim := none } :=
  Placed.valid (h.toPlaced.congr h.run h.base rfl) rfl

theorem Valid.dropHeader (h : c.Valid scope) : c.dropHeader.Valid scope := by
  have hclaims : c.dropHeader.claims = c.claims.filter (· != .argument) := by
    unfold claims Context.dropHeader
    cases c.claim <;> rfl
  refine ⟨⟨h.run, h.base, nofun, h.record, h.enumeration⟩, ⟨?_, ?_⟩, ?_⟩ <;> rw [hclaims]
  · exact h.apart.imp (Nat.le_trans (List.length_filter_le ..)) fun hall claim hclaim =>
      hall claim (List.mem_filter.mp hclaim).1
  · exact fun i hi => h.braces i (List.mem_filter.mp hi).1
  · intro claim hclaim
    obtain ⟨hbefore, hne⟩ := List.mem_filter.mp hclaim
    have hfound := h.found claim hbefore
    cases claim with
    | recorded path => exact hfound
    | argument => simp at hne
    | constant i => exact hfound

/-- A comment on this line describes what has been recorded, wherever that is. -/
theorem Placed.claimOn (h : c.Placed scope) {path : Option Path}
    (hpath : ∀ p, path = some p → (scope.get? p).isSome = true) :
    Valid scope { c with claim := OpenScope.claimOn path } := by
  refine ⟨h.congr h.run h.base rfl, ⟨.inl ?_, ?_⟩, ?_⟩
  · cases path <;> simp [claims, OpenScope.claimOn]
  · intro i hi
    cases path <;> simp [claims, OpenScope.claimOn] at hi
  · intro claim hclaim
    obtain ⟨p, hp, rfl⟩ := List.mem_map.mp hclaim
    exact hpath p (Option.mem_toList.mp hp)

/-- A claim on the last argument becomes one on where that has been recorded. -/
theorem Valid.settleArgument (h : c.Valid scope) {argument : Option Path}
    (hargument : .argument ∈ c.claims → ∀ path, argument = some path →
      (scope.get? path).isSome = true) : (c.settleArgument argument).Valid scope := by
  have hsettled : ∀ claim ∈ (c.settleArgument argument).claims,
      claim ∈ c.claims ∨
        .argument ∈ c.claims ∧ ∃ path, argument = some path ∧ claim = .recorded path := by
    intro claim hclaim
    unfold claims Context.settleArgument at hclaim
    cases hc : c.claim with
    | none => simp [hc] at hclaim
    | some before =>
      rw [hc] at hclaim
      obtain ⟨b, hb, he⟩ := List.mem_filterMap.mp hclaim
      have hmem : b ∈ c.claims := by simpa [claims, hc] using hb
      cases b with
      | recorded path => exact .inl (Option.some.inj he ▸ hmem)
      | constant i => exact .inl (Option.some.inj he ▸ hmem)
      | argument =>
        obtain ⟨path, hpath, rfl⟩ := Option.map_eq_some_iff.mp he
        exact .inr ⟨hmem, path, hpath, rfl⟩
  refine ⟨⟨h.run, h.base, h.home, h.record, h.enumeration⟩, ⟨?_, fun i hi => ?_⟩, ?_⟩
  · refine h.apart.imp (Nat.le_trans ?_) fun hall claim hclaim => ?_
    · unfold claims Context.settleArgument
      cases c.claim with
      | none => exact Nat.le_refl _
      | some before => exact List.length_filterMap_le ..
    · rcases hsettled claim hclaim with hbefore | ⟨hbefore, -⟩
      · exact hall claim hbefore
      · obtain ⟨i, hi⟩ := hall _ hbefore
        cases hi
  · rcases hsettled _ hi with hbefore | ⟨-, path, -, he⟩
    · exact h.braces i hbefore
    · cases he
  · intro claim hclaim
    rcases hsettled claim hclaim with hbefore | ⟨hbefore, path, hpath, rfl⟩
    · cases claim <;> exact h.found _ hbefore
    · exact hargument hbefore path hpath

theorem Valid.addArgument (h : c.Valid scope) : c.addArgument.Valid scope := by
  unfold Context.addArgument
  split
  · exact h
  · rename_i head hhead
    split
    · rename_i d _
      refine ⟨⟨Run.legible_nil, h.base, ?_, h.record, h.enumeration⟩,
        ⟨.inl (Nat.le_refl 1), fun i hi => ?_⟩, ?_⟩
      · rintro _ ⟨⟩
        exact h.home head hhead
      · cases List.mem_singleton.mp hi
      · intro claim hclaim
        rw [List.mem_singleton.mp hclaim]
        simp [claimed?]
    · exact Valid.forgetClaim h.dropRun

theorem Valid.endArgument (h : c.Valid scope) : c.endArgument.Valid scope := by
  unfold Context.endArgument
  split
  · exact h.addArgument
  · exact h.dropRun

theorem Valid.withParens (h : c.Valid scope) (parens : Nat) : Valid scope { c with parens } :=
  h.congr h.run h.base rfl

/-- Closing the arguments of a header leaves its node and its home. -/
theorem Valid.closeArguments (h : c.Valid scope) :
    Valid scope { c with header := c.header.map ({ · with argumentsOpen := false }) } := by
  refine ⟨⟨h.run, h.base, ?_, h.record, h.enumeration⟩, h.toClaimsFound.congr ?_⟩
  · intro head hhead
    obtain ⟨before, hbefore, rfl⟩ := Option.map_eq_some_iff.mp hhead
    exact h.home before hbefore
  · cases c.header <;> rfl

theorem Valid.openParen (h : c.Valid scope) : c.openParen.Valid scope :=
  (h.pushMark (by decide)).withParens _

theorem Valid.closeParen (h : c.Valid scope) : c.closeParen.Valid scope := by
  unfold Context.closeParen
  dsimp only
  refine Valid.withParens ?_ _
  split
  · exact h.endArgument.closeArguments
  · split
    · exact h.pushIfStarted (by decide) false
    · exact h

theorem Valid.comma (h : c.Valid scope) : c.comma.Valid scope := by
  unfold Context.comma
  split
  · exact h.congr h.run h.base rfl
  · split
    · exact h.endArgument
    · exact h.pushIfStarted (by decide) false

theorem Valid.equals (h : c.Valid scope) : c.equals.Valid scope := by
  unfold Context.equals
  split
  · exact h.congr h.run h.base rfl
  · exact h.pushMark (by decide)

theorem Valid.afterBody (h : c.Valid scope) : c.afterBody.Valid scope := by
  refine Placed.valid ⟨h.run, h.base, h.home, nofun, fun p hp => ?_⟩ rfl
  simp only [Context.afterBody] at hp
  split at hp
  · cases hp
  · exact h.enumeration p hp

theorem Valid.afterBlock (h : c.Valid scope) : c.afterBlock.Valid scope := by
  have hbody : Placed scope { c.afterBody with braces := c.braces - 1 } :=
    h.afterBody.toPlaced.congr h.run h.base rfl
  unfold Context.afterBlock
  dsimp only
  split
  · exact Placed.valid (hbody.congr h.run h.base rfl) rfl
  · exact Placed.valid hbody rfl

end Context

end Scan

end HeaderDocs
