import HeaderDocs.Proofs.Scan.Plain
import HeaderDocs.Proofs.Scan.Renaming
import HeaderDocs.Proofs.Scan.Scopes
import HeaderDocs.Proofs.Tree.Marked

/-!
# One source read into two trees

The same source is read into the empty documentation and into a tree `t` that holds declarations
already. The children of the second documentation are then a list with marked entries: the marked
ones are exactly the children of the first, and the others are those of `t` that no declaration has
replaced. `OpenScope.over` builds the second scope from the first, and `Overlays` says which lists
belong to it.

* `Overlays.commit`: recording a declaration in both.
* `Overlays.removeAt`, `Overlays.modifyAt`: taking out and changing what has been recorded.
-/
namespace HeaderDocs.Scan

open HeaderDocs.Node HeaderDocs.Marked

/-- Whether the kind and name of a node are among the given ones. -/
def isOneOf (labels : List (Kind × String)) (n : Node) : Bool := n.label?.any labels.contains

/-- How two children stand one after the other: ascending by name, and of two with the same name one
that is marked comes last. -/
def InOrder (a b : Bool × Node) : Prop :=
  ∀ m n, a.2.name = some m → b.2.name = some n → m < n ∨ m = n ∧ (a.1 = true → b.1 = true)

/-- The children of a scope of the source, marked among others. -/
structure Merged (z : List (Bool × Node)) (u : OpenScope) : Prop where
  root : u.node.kind = .root
  own : marked z = u.node.children
  named : ∀ c ∈ marked z, c.name ≠ none
  unique : ((entries z).filterMap label?).Nodup
  ordered : z.Pairwise InOrder
  /-- No child has an access that another could take over. -/
  unscoped : ∀ c ∈ entries z, c.name ≠ none → c.hasScope = false
  contexts : ∀ c ∈ u.context :: u.suspended, c.Plain

/-- The other children are those of the tree that have not been replaced. -/
structure Overlays (t : Node) (z : List (Bool × Node)) (u : OpenScope) : Prop extends
    Merged z u where
  tree : t.kind = .root
  old : unmarked z = t.children.filter (!isOneOf u.declared ·)

/-- The scope with its children among those of a tree. -/
def OpenScope.over (t : Node) (z : List (Bool × Node)) (u : OpenScope) : OpenScope :=
  { u.mapContexts (·.mapIndex (place z)) with node := t.withChildren (entries z) }

/-- Two scopes of the same source: one of them read into the tree, the other one by itself. -/
def Beside (t : Node) (s u : OpenScope) : Prop := ∃ z, Overlays t z u ∧ s = u.over t z

variable {t : Node} {z : List (Bool × Node)} {u : OpenScope}

/-! ## Labels -/

theorem isOneOf_nil (n : Node) : isOneOf [] n = false := by
  unfold isOneOf
  cases n.label? <;> rfl

theorem isOneOf_append (labels more : List (Kind × String)) (n : Node) :
    isOneOf (labels ++ more) n = (isOneOf labels n || isOneOf more n) := by
  unfold isOneOf
  cases n.label? <;> simp

theorem isOneOf_iff_mem {labels : List (Kind × String)} {n : Node} {l : Kind × String}
    (h : n.label? = some l) : isOneOf labels n = true ↔ l ∈ labels := by
  unfold isOneOf
  rw [h]
  simp

theorem filter_unmarked_of_notMem {kind : Kind} {name : String}
    (h : (kind, name) ∉ (entries z).filterMap label?) :
    (unmarked z).filter (!isOneOf [(kind, name)] ·) = unmarked z := by
  refine List.filter_eq_self.mpr fun c hc => ?_
  cases hl : c.label? with
  | none => simp [isOneOf, hl]
  | some l =>
    have hne : l ≠ (kind, name) := fun he =>
      h (List.mem_filterMap.mpr ⟨c, mem_entries_of_unmarked hc, he ▸ hl⟩)
    simp [isOneOf, hl, hne]

/-! ## What is looked at -/

theorem hasScope_congr {m n : Node} (h : m.scope = n.scope) : m.hasScope = n.hasScope := by
  simp only [hasScope, h]

theorem name_ne_none_of_label? {n : Node} {l : Kind × String} (h : n.label? = some l) :
    n.name ≠ none := by
  intro hn
  simp [label?, hn] at h

theorem entries_eraseIdx (z : List (Bool × Node)) (i : Nat) :
    entries (z.eraseIdx i) = (entries z).eraseIdx i :=
  (List.eraseIdx_map _ z i).symm

theorem entries_insertIdx (z : List (Bool × Node)) (i : Nat) (p : Bool × Node) :
    entries (z.insertIdx i p) = (entries z).insertIdx i p.2 :=
  List.map_insertIdx ..

theorem Merged.context (h : Merged z u) : u.context.Plain :=
  h.contexts _ (List.mem_cons_self ..)

/-- The child that a path leads through is the same one in both scopes. -/
theorem Merged.get? (h : Merged z u) (i : Nat) (rest : Path) :
    (u.over t z).node.get? (place z i :: rest) = u.node.get? (i :: rest) := by
  have hi : (u.over t z).node.children[place z i]? = u.node.children[i]? := by
    rw [← h.own]
    exact getElem?_entries_place z i
  simp only [Node.get?, hi]

/-! ## Contexts -/

theorem Overlays.update (h : Overlays t z u) {f g : Context → Context}
    (hf : f (u.context.mapIndex (place z)) = (g u.context).mapIndex (place z))
    (hp : (g u.context).Plain) :
    Overlays t z (u.update g) ∧ (u.over t z).update f = (u.update g).over t z := by
  refine ⟨⟨⟨h.root, h.own, h.named, h.unique, h.ordered, h.unscoped, ?_⟩, h.tree, h.old⟩, ?_⟩
  · intro c hc
    rcases List.mem_cons.mp hc with rfl | hc
    · exact hp
    · exact h.contexts c (List.mem_cons_of_mem _ hc)
  · exact congrArg (fun context => { u.over t z with context }) hf

theorem Overlays.beside_update (h : Overlays t z u) {f g : Context → Context}
    (hf : f (u.context.mapIndex (place z)) = (g u.context).mapIndex (place z))
    (hp : (g u.context).Plain) : Beside t ((u.over t z).update f) (u.update g) :=
  ⟨z, h.update hf hp⟩

theorem Overlays.beside (h : Overlays t z u) : Beside t (u.over t z) u := ⟨z, h, rfl⟩

theorem Overlays.note (h : Overlays t z u) (event : Event) : Overlays t z (u.note event) :=
  ⟨⟨h.root, h.own, h.named, h.unique, h.ordered, h.unscoped, h.contexts⟩, h.tree, h.old⟩

theorem over_mapContexts {z' : List (Bool × Node)} {f g : Context → Context} (node : Node)
    (hf : ∀ c, f (c.mapIndex (place z)) = (g c).mapIndex (place z')) :
    { (u.over t z).mapContexts f with node := t.withChildren (entries z') } =
      OpenScope.over t z' { u.mapContexts g with node } := by
  simp only [OpenScope.over, OpenScope.mapContexts, List.map_map, Function.comp_def, hf]

theorem Merged.plain_mapContexts (h : Merged z u) {g : Context → Context}
    (hg : ∀ c, c.Plain → (g c).Plain) :
    ∀ c ∈ (u.mapContexts g).context :: (u.mapContexts g).suspended, c.Plain := by
  intro c hc
  have hc : c ∈ (u.context :: u.suspended).map g := hc
  obtain ⟨d, hd, rfl⟩ := List.mem_map.mp hc
  exact hg d (h.contexts d hd)

/-! ## Changing a child -/

/-- All that the order of the children has to do with. -/
def signature (p : Bool × Node) : Bool × (Kind × Option String) × Option String :=
  (p.1, p.2.key, p.2.scope)

theorem exists_signature {z' : List (Bool × Node)} (hz : z'.map signature = z.map signature)
    {p : Bool × Node} (hp : p ∈ z') :
    ∃ q ∈ z, q.1 = p.1 ∧ q.2.name = p.2.name ∧ q.2.scope = p.2.scope := by
  have hm : signature p ∈ z.map signature := hz ▸ List.mem_map_of_mem hp
  obtain ⟨q, hq, he⟩ := List.mem_map.mp hm
  simp only [signature, Prod.mk.injEq] at he
  exact ⟨q, hq, he.1, name_eq_of_key he.2.1, he.2.2⟩

theorem Merged.of_signature {z' : List (Bool × Node)} {v : OpenScope} (h : Merged z u)
    (hz : z'.map signature = z.map signature) (hr : v.node.kind = .root)
    (ho : marked z' = v.node.children) (hc : ∀ c ∈ v.context :: v.suspended, c.Plain) :
    Merged z' v := by
  refine ⟨hr, ho, ?_, ?_, ?_, ?_, hc⟩
  · intro c hcm
    obtain ⟨p, hp, rfl⟩ := List.mem_map.mp hcm
    obtain ⟨hp, hp1⟩ := List.mem_filter.mp hp
    obtain ⟨q, hq, hq1, hname, -⟩ := exists_signature hz hp
    rw [← hname]
    exact h.named q.2 (List.mem_map_of_mem (List.mem_filter.mpr ⟨hq, hq1.trans hp1⟩))
  · have hkey : (entries z').map key = (entries z).map key := by
      have := congrArg (List.map (·.2.1)) hz
      simpa [entries, List.map_map, Function.comp_def, signature] using this
    rw [filterMap_label?_eq, hkey, ← filterMap_label?_eq]
    exact h.unique
  · have hpairs : ∀ y : List (Bool × Node), y.Pairwise InOrder ↔ (y.map signature).Pairwise
        fun a b => ∀ m n, a.2.1.2 = some m → b.2.1.2 = some n →
          m < n ∨ m = n ∧ (a.1 = true → b.1 = true) := by
      intro y
      rw [List.pairwise_map]
      rfl
    rw [hpairs, hz, ← hpairs]
    exact h.ordered
  · intro c hcm hname
    obtain ⟨p, hp, rfl⟩ := List.mem_map.mp hcm
    obtain ⟨q, hq, -, hqname, hscope⟩ := exists_signature hz hp
    rw [← hasScope_congr hscope]
    exact h.unscoped q.2 (List.mem_map_of_mem hq) (hqname ▸ hname)

/-- Changing a child of the source that keeps its kind, its name and its access. -/
theorem Overlays.changeChild (h : Overlays t z u) {i : Nat} {g : Node → Node}
    (hg : ∀ m, u.node.children[i]? = some m → (g m).key = m.key ∧ (g m).scope = m.scope)
    {v : OpenScope} (hr : v.node.kind = .root)
    (hn : v.node.children = u.node.children.modify i g) (hd : v.declared = u.declared)
    (hc : ∀ c ∈ v.context :: v.suspended, c.Plain) :
    Overlays t (Marked.modify z (place z i) g) v := by
  refine ⟨h.toMerged.of_signature (map_modify_eq ?_) hr ?_ hc, h.tree, ?_⟩
  · intro p hp
    rw [getElem?_place, h.own] at hp
    obtain ⟨m, hm, rfl⟩ := Option.map_eq_some_iff.mp hp
    obtain ⟨hkey, hscope⟩ := hg m hm
    simp only [signature, Prod.map, id, hkey, hscope]
  · rw [marked_modify_place, h.own, hn]
  · rw [unmarked_modify_place, h.old, hd]

/-- Changing a node at or below a child of the source. -/
theorem Overlays.modifyAt (h : Overlays t z u) (f : Node → Node) (i : Nat) (rest : Path)
    (hf : ∀ m, u.node.children[i]? = some m →
      (m.modifyAt f rest).key = m.key ∧ (m.modifyAt f rest).scope = m.scope) :
    ∃ z', (∀ k, place z' k = place z k) ∧ Overlays t z' (u.modifyAt f (i :: rest)) ∧
      (u.over t z).modifyAt f (place z i :: rest) = (u.modifyAt f (i :: rest)).over t z' := by
  have hplace := place_modify z (place z i) (·.modifyAt f rest)
  refine ⟨Marked.modify z (place z i) (·.modifyAt f rest), hplace, ?_, ?_⟩
  · exact h.changeChild hf h.root rfl rfl h.contexts
  · have hnode : (u.over t z).node.modifyAt f (place z i :: rest) =
        t.withChildren (entries (Marked.modify z (place z i) (·.modifyAt f rest))) := by
      rw [entries_modify]
      rfl
    simp only [OpenScope.modifyAt, hnode]
    simp only [OpenScope.over, OpenScope.mapContexts, funext hplace]

theorem Overlays.describeAt (h : Overlays t z u) (raw : String) (i : Nat) (rest : Path) :
    ∃ z', (∀ k, place z' k = place z k) ∧ Overlays t z' (u.modifyAt (·.describe raw) (i :: rest)) ∧
      (u.over t z).modifyAt (·.describe raw) (place z i :: rest) =
        (u.modifyAt (·.describe raw) (i :: rest)).over t z' := by
  refine h.modifyAt _ i rest fun m _ => ⟨key_modifyAt (key_describe · raw) m rest, ?_⟩
  cases rest with
  | nil => exact scope_describe m raw
  | cons j rest => rfl

/-! ## Taking out and putting in below a child -/

theorem place_injective (z : List (Bool × Node)) (i j : Nat) : place z i = place z j ↔ i = j :=
  place_inj

theorem Overlays.removeBelow (h : Overlays t z u) (i k : Nat) (rest : Path) :
    ∃ z', (∀ j, place z' j = place z j) ∧ Overlays t z' (u.removeAt (i :: k :: rest)) ∧
      (u.over t z).removeAt (place z i :: k :: rest) = (u.removeAt (i :: k :: rest)).over t z' := by
  have hget := h.toMerged.get? (t := t) i (k :: rest)
  unfold OpenScope.removeAt
  rw [hget]
  cases hr : u.node.get? (i :: k :: rest) with
  | none => exact ⟨z, fun _ => rfl, h, rfl⟩
  | some removed =>
    have hplace := place_modify z (place z i) (·.removeAt (k :: rest))
    have hplain : ∀ c : Context, c.Plain → (c.afterRemove (i :: k :: rest) removed).Plain := by
      refine fun c hc => hc.afterRemove fun j hj => ?_
      simp only [Path.afterRemove?] at hj
      split at hj <;> simp at hj
    refine ⟨Marked.modify z (place z i) (·.removeAt (k :: rest)), hplace, ?_, ?_⟩
    · refine h.changeChild (g := (·.removeAt (k :: rest))) ?_ h.root rfl rfl
        (h.toMerged.plain_mapContexts hplain)
      exact fun m _ => ⟨key_removeAt m _, scope_removeAt m _⟩
    · have hnode : (u.over t z).node.removeAt (place z i :: k :: rest) =
          t.withChildren (entries (Marked.modify z (place z i) (·.removeAt (k :: rest)))) := by
        rw [entries_modify]
        rfl
      dsimp only
      have hc : ∀ c : Context, (c.mapIndex (place z)).afterRemove (place z i :: k :: rest) removed =
          (c.afterRemove (i :: k :: rest) removed).mapIndex
            (place (Marked.modify z (place z i) (·.removeAt (k :: rest)))) := by
        intro c
        rw [funext hplace]
        exact Context.mapIndex_afterRemove (sameRemove_below (place_injective z) i k rest) removed c
      rw [← over_mapContexts _ hc, ← hnode]
      rfl

theorem Overlays.insertBelow (h : Overlays t z u) (new : Node) (i k : Nat) (rest : Path) :
    ∃ z', (∀ j, place z' j = place z j) ∧ Overlays t z' (u.insertAt (i :: k :: rest) new) ∧
      (u.over t z).insertAt (place z i :: k :: rest) new =
        (u.insertAt (i :: k :: rest) new).over t z' := by
  have hplace := place_modify z (place z i) (·.insertAt new (k :: rest))
  refine ⟨Marked.modify z (place z i) (·.insertAt new (k :: rest)), hplace, ?_, ?_⟩
  · refine h.changeChild (g := (·.insertAt new (k :: rest))) ?_ h.root rfl rfl
      (h.toMerged.plain_mapContexts fun c hc => hc.afterInsert _)
    exact fun m _ => ⟨key_insertAt m _ _, scope_insertAt m _ _⟩
  · have hnode : (u.over t z).node.insertAt new (place z i :: k :: rest) =
        t.withChildren (entries (Marked.modify z (place z i) (·.insertAt new (k :: rest)))) := by
      rw [entries_modify]
      rfl
    have hc : ∀ c : Context, (c.mapIndex (place z)).afterInsert (place z i :: k :: rest) =
        (c.afterInsert (i :: k :: rest)).mapIndex
          (place (Marked.modify z (place z i) (·.insertAt new (k :: rest)))) := by
      intro c
      rw [funext hplace]
      exact Context.mapIndex_afterInsert (sameInsert_below (place_injective z) i k rest) c
    unfold OpenScope.insertAt
    rw [← over_mapContexts _ hc, ← hnode]
    rfl

/-! ## Taking a child out -/

theorem Merged.eraseIdx (h : Merged z u) {v : OpenScope} (i : Nat) (hr : v.node.kind = .root)
    (ho : marked (z.eraseIdx i) = v.node.children)
    (hc : ∀ c ∈ v.context :: v.suspended, c.Plain) : Merged (z.eraseIdx i) v := by
  have hsub : (z.eraseIdx i).Sublist z := List.eraseIdx_sublist z i
  have hentries : (entries (z.eraseIdx i)).Sublist (entries z) := hsub.map _
  refine ⟨hr, ho, ?_, h.unique.sublist (hentries.filterMap _), h.ordered.sublist hsub, ?_, hc⟩
  · intro c hcm
    exact h.named c (((hsub.filter _).map _).subset hcm)
  · intro c hcm
    exact h.unscoped c (hentries.subset hcm)

theorem Merged.removeChild (h : Merged z u) {i : Nat} {m : Node}
    (hm : u.node.children[i]? = some m) :
    Merged (z.eraseIdx (place z i)) (u.removeAt [i]) ∧
      (u.over t z).removeAt [place z i] = (u.removeAt [i]).over t (z.eraseIdx (place z i)) := by
  have hget : u.node.get? [i] = some m := by
    rw [OpenScope.get?_singleton, hm]
  have hmem : m ∈ marked z := h.own ▸ List.mem_of_getElem? hm
  have hentry : m ∈ entries z := mem_entries_of_marked hmem
  have hplain : ∀ c : Context, c.Plain → (c.afterRemove [i] m).Plain :=
    fun c hc => hc.afterRemove fun _ _ => h.unscoped m hentry (h.named m hmem)
  have hc : ∀ c : Context, (c.mapIndex (place z)).afterRemove [place z i] m =
      (c.afterRemove [i] m).mapIndex (place (z.eraseIdx (place z i))) :=
    Context.mapIndex_afterRemove (sameRemove_singleton (place_injective z i)
      (fun j => place_lt_iff) (place_eraseIdx z i)) m
  unfold OpenScope.removeAt
  rw [h.get? i [], hget]
  refine ⟨h.eraseIdx _ h.root ?_ (h.plain_mapContexts hplain), ?_⟩
  · rw [marked_eraseIdx_place, h.own]
    rfl
  · have hnode : (u.over t z).node.removeAt [place z i] =
        t.withChildren (entries (z.eraseIdx (place z i))) := by
      rw [entries_eraseIdx]
      rfl
    dsimp only
    rw [← over_mapContexts _ hc, ← hnode]
    rfl

theorem Merged.removeOld (h : Merged z u) {i : Nat} {x : Node} (hx : z[i]? = some (false, x)) :
    Merged (z.eraseIdx i) u ∧ (u.over t z).removeAt [i] = u.over t (z.eraseIdx i) := by
  obtain ⟨hmarked, hplace⟩ := eraseIdx_unmarked hx
  refine ⟨h.eraseIdx i h.root (hmarked.trans h.own) h.contexts, ?_⟩
  have hget : (u.over t z).node.get? [i] = some x := by
    rw [OpenScope.get?_singleton]
    change (entries z)[i]? = some x
    simp only [entries, List.getElem?_map, hx, Option.map_some]
  have hc : ∀ c : Context, (c.mapIndex (place z)).afterRemove [i] x =
      (id c).mapIndex (place (z.eraseIdx i)) :=
    fun c => Context.mapIndex_passes (passes_singleton hplace) x c
  have hnode : (u.over t z).node.removeAt [i] = t.withChildren (entries (z.eraseIdx i)) := by
    rw [entries_eraseIdx]
    rfl
  have hself : { u.mapContexts id with node := u.node } = u := by
    simp [OpenScope.mapContexts]
  have hover := over_mapContexts (t := t) (u := u) u.node hc
  rw [hself, ← hnode] at hover
  unfold OpenScope.removeAt
  rw [hget]
  exact hover

/-! ## Recording a child -/

/-- Before the place of a new child no name is greater, and after it all names are. -/
theorem Merged.ordered_insert (h : Merged z u) {node : Node} {name : String}
    (hname : node.name = some name) :
    (z.insertIdx ((entries z).findIdx (sortsAfter name)) (true, node)).Pairwise InOrder := by
  have hidx : (entries z).findIdx (sortsAfter name) = z.findIdx fun p => sortsAfter name p.2 := by
    rw [entries, List.findIdx_map]
    rfl
  rw [hidx, insertIdx_findIdx]
  have hsplit : (z.takeWhile (!sortsAfter name ·.2) ++ z.dropWhile (!sortsAfter name ·.2)) = z :=
    List.takeWhile_append_dropWhile
  have hz := h.ordered
  rw [← hsplit, List.pairwise_append] at hz
  obtain ⟨hbefore, hafter, hcross⟩ := hz
  rw [List.pairwise_append, List.pairwise_cons]
  refine ⟨hbefore, ⟨?_, hafter⟩, ?_⟩
  · -- all that is after the first greater name is greater too
    intro b hb m n hm hn
    rw [hname] at hm
    cases hm
    cases hd : z.dropWhile (!sortsAfter name ·.2) with
    | nil => rw [hd] at hb; cases hb
    | cons p rest =>
      have hp : sortsAfter name p.2 = true := by
        have := List.head_dropWhile_not (p := (!sortsAfter name ·.2)) (l := z) (by simp [hd])
        simpa [hd] using this
      rw [hd] at hb hafter
      cases hpn : p.2.name with
      | none => rw [sortsAfter_of_unnamed hpn] at hp; cases hp
      | some first =>
        have hlt : name < first := (sortsAfter_iff hpn).mp hp
        rcases List.mem_cons.mp hb with rfl | hb
        · rw [hpn] at hn
          cases hn
          exact .inl hlt
        · rcases (List.pairwise_cons.mp hafter).1 b hb first n hpn hn with hlt' | ⟨rfl, -⟩
          · exact .inl (String.lt_trans hlt hlt')
          · exact .inl hlt
  · intro a ha b hb
    rcases List.mem_cons.mp hb with rfl | hb
    · intro m n hm hn
      rw [hname] at hn
      cases hn
      have hno : sortsAfter name a.2 = false := by
        have := List.all_takeWhile (p := (!sortsAfter name ·.2)) (l := z)
        simpa using List.all_eq_true.mp this a ha
      have hle : m ≤ name := String.not_lt.mp fun hlt => by
        rw [(sortsAfter_iff hm).mpr hlt] at hno
        cases hno
      by_cases hlt : m < name
      · exact .inl hlt
      · exact .inr ⟨String.le_antisymm hle (String.not_lt.mp hlt), fun _ => rfl⟩
    · exact hcross a ha b hb

/-- The new child comes to stand at the same one of the children of the source in both scopes. -/
theorem Merged.markedBefore_position (h : Merged z u) (name : String) :
    markedBefore z ((entries z).findIdx (sortsAfter name)) =
      u.node.children.findIdx (sortsAfter name) := by
  rw [← h.own]
  refine markedBefore_findIdx (h.ordered.imp_of_mem fun {a b} _ hb hab ha hb1 => ?_)
  have hbm : b.2 ∈ marked z := List.mem_map_of_mem (List.mem_filter.mpr ⟨hb, hb1⟩)
  obtain ⟨n, hn⟩ := Option.ne_none_iff_exists'.mp (h.named _ hbm)
  cases hm : a.2.name with
  | none => rw [sortsAfter_of_unnamed hm] at ha; cases ha
  | some m =>
    have hlt : name < m := (sortsAfter_iff hm).mp ha
    rcases hab m n hm hn with hlt' | ⟨rfl, -⟩
    · exact (sortsAfter_iff hn).mpr (String.lt_trans hlt hlt')
    · exact (sortsAfter_iff hn).mpr hlt

/-- Putting in a child of a kind and name that no other has. -/
theorem Merged.insertChild (h : Merged z u) {node : Node} {name : String}
    (hname : node.name = some name) (hscope : node.hasScope = false)
    (hnew : (node.kind, name) ∉ (entries z).filterMap label?) {i : Nat}
    (hi : i = (entries z).findIdx (sortsAfter name)) :
    Merged (z.insertIdx i (true, node))
        (u.insertAt [u.node.children.findIdx (sortsAfter name)] node) ∧
      (u.over t z).insertAt [i] node =
        (u.insertAt [u.node.children.findIdx (sortsAfter name)] node).over t
          (z.insertIdx i (true, node)) := by
  have hle : i ≤ z.length := by
    rw [hi, ← length_entries]
    exact List.findIdx_le_length
  have hbefore : markedBefore z i = u.node.children.findIdx (sortsAfter name) := by
    rw [hi]
    exact h.markedBefore_position name
  have hperm : (entries (z.insertIdx i (true, node))).Perm (node :: entries z) := by
    rw [entries_insertIdx]
    exact List.perm_insertIdx _ _ (by simpa [entries] using hle)
  have hc : ∀ c : Context, (c.mapIndex (place z)).afterInsert [i] =
      (c.afterInsert [u.node.children.findIdx (sortsAfter name)]).mapIndex
        (place (z.insertIdx i (true, node))) := by
    rw [← hbefore]
    exact Context.mapIndex_afterInsert (sameInsert_singleton (le_place_iff hle)
      (place_insertIdx hle node))
  constructor
  · refine ⟨h.root, ?_, ?_, ?_, ?_, ?_, h.plain_mapContexts fun c hc => hc.afterInsert _⟩
    · rw [marked_insertIdx hle, hbefore, h.own]
      rfl
    · intro c hc
      rw [marked_insertIdx hle] at hc
      rcases List.eq_or_mem_of_mem_insertIdx hc with rfl | hc
      · simp [hname]
      · exact h.named c hc
    · have hl : node.label? = some (node.kind, name) := by simp [label?, hname]
      rw [(hperm.filterMap label?).nodup_iff, List.filterMap_cons_some hl, List.nodup_cons]
      exact ⟨hnew, h.unique⟩
    · rw [hi]
      exact h.ordered_insert hname
    · intro c hc hcn
      rcases List.mem_cons.mp (hperm.subset hc) with rfl | hc
      · exact hscope
      · exact h.unscoped c hc hcn
  · have hnode : (u.over t z).node.insertAt node [i] =
        t.withChildren (entries (z.insertIdx i (true, node))) := by
      rw [entries_insertIdx]
      rfl
    unfold OpenScope.insertAt
    rw [← over_mapContexts _ hc, ← hnode]
    rfl

/-! ## Recording -/

/-- Takes out the child that an insertion replaces. -/
def OpenScope.dropReplaced (replaced : Option Nat) (s : OpenScope) : OpenScope :=
  match replaced with
  | some i => s.removeAt [i]
  | none => s

theorem children_dropReplaced (replaced : Option Nat) (s : OpenScope) :
    (s.dropReplaced replaced).node.children = match replaced with
      | some i => s.node.children.eraseIdx i
      | none => s.node.children := by
  cases replaced with
  | none => rfl
  | some i =>
    rw [OpenScope.dropReplaced, OpenScope.node_removeAt]
    rfl

theorem declared_removeAt (s : OpenScope) (path : Path) :
    (s.removeAt path).declared = s.declared := by
  unfold OpenScope.removeAt
  split <;> rfl

theorem declared_dropReplaced (replaced : Option Nat) (s : OpenScope) :
    (s.dropReplaced replaced).declared = s.declared := by
  cases replaced with
  | none => rfl
  | some i => exact declared_removeAt s [i]

/-- Where no child has an access that the node could take over, it is recorded as it is. -/
theorem commit_of_unscoped (s : OpenScope) {node : Node} {name : String}
    (hname : node.name = some name) (hrec : isRecordable name = true)
    (hp : node.isPrivate = false)
    (hs : ∀ c ∈ s.node.children, c.name ≠ none → c.hasScope = false) :
    s.commit node =
      let s := s.dropReplaced (s.node.children.findIdx? (isNamed node.kind (some name)))
      let i := s.node.children.findIdx (sortsAfter name)
      ((s.insertAt [i] node).noteRecorded [] node.kind name, some [i]) := by
  have hins : s.node.insertion? node = some {
      replaced := s.node.children.findIdx? (isNamed node.kind (some name))
      position := (s.dropReplaced
        (s.node.children.findIdx? (isNamed node.kind (some name)))).node.children.findIdx
          (sortsAfter name)
      node } := by
    have hfound : ∀ old, s.node.children.find? (isNamed node.kind (some name)) = some old →
        old.hasScope = true → node.hasScope = true := by
      intro old hold hscope
      have hnamed := isNamed_iff_label?.mp (List.find?_some hold)
      rw [hs old (List.mem_of_find?_eq_some hold) (name_ne_none_of_label? hnamed)] at hscope
      cases hscope
    rw [insertion?_eq _ hname hrec, accessAfter_of_hasScope node hfound, withScope_self,
      children_dropReplaced, List.eraseP_eq_eraseIdx]
    cases s.node.children.findIdx? (isNamed node.kind (some name)) <;> rfl
  unfold OpenScope.commit OpenScope.commitTo
  simp only [hp, Bool.false_eq_true, if_false, Node.get?_nil, Option.bind_some, hins, hname,
    Option.getD_some, List.nil_append]
  rfl

/-- The node that a declaration replaces is taken out of both scopes, if it is there. -/
theorem Merged.dropReplaced (h : Merged z u) (kind : Kind) (name : String) :
    ∃ z', Merged z' (u.dropReplaced (u.node.children.findIdx? (isNamed kind (some name)))) ∧
      (u.over t z).dropReplaced ((entries z).findIdx? (isNamed kind (some name))) =
        (u.dropReplaced (u.node.children.findIdx? (isNamed kind (some name)))).over t z' ∧
      (kind, name) ∉ (entries z').filterMap label? ∧
      unmarked z' = (unmarked z).filter (!isOneOf [(kind, name)] ·) := by
  rw [← h.own]
  cases hs : (entries z).findIdx? (isNamed kind (some name)) with
  | none =>
    have hnew := label?_notMem_of_findIdx?_none hs
    have hu : (marked z).findIdx? (isNamed kind (some name)) = none := by
      rw [List.findIdx?_eq_none_iff] at hs ⊢
      exact fun c hc => hs c (mem_entries_of_marked hc)
    rw [hu]
    exact ⟨z, h, rfl, hnew, (filter_unmarked_of_notMem hnew).symm⟩
  | some i =>
    obtain ⟨hlt, hnamed, -⟩ := List.findIdx?_eq_some_iff_getElem.mp hs
    have hnew : (kind, name) ∉ (entries (z.eraseIdx i)).filterMap label? := by
      rw [entries_eraseIdx]
      exact label?_notMem_eraseIdx h.unique hs
    obtain ⟨⟨flag, x⟩, hzi⟩ : ∃ p, z[i]? = some p :=
      ⟨_, List.getElem?_eq_getElem (by simpa [entries] using hlt)⟩
    have hx : isNamed kind (some name) x = true := by
      have he : (entries z)[i]? = some x := by simp [entries, hzi]
      rw [List.getElem?_eq_getElem hlt] at he
      exact Option.some.inj he ▸ hnamed
    cases flag with
    | false => -- only the tree has it
      have hu : (marked z).findIdx? (isNamed kind (some name)) = none := by
        rw [List.findIdx?_eq_none_iff]
        intro c hc
        rw [← (eraseIdx_unmarked hzi).1] at hc
        have hc : c ∈ entries (z.eraseIdx i) := mem_entries_of_marked hc
        rw [Bool.eq_false_iff]
        exact fun hcn => hnew (List.mem_filterMap.mpr ⟨c, hc, isNamed_iff_label?.mp hcn⟩)
      obtain ⟨hm, he⟩ := h.removeOld (t := t) hzi
      rw [hu]
      refine ⟨z.eraseIdx i, hm, he, hnew, ?_⟩
      obtain ⟨before, after, hz, hz'⟩ := unmarked_eraseIdx_unmarked hzi
      have hdrop : isOneOf [(kind, name)] x = true :=
        (isOneOf_iff_mem (isNamed_iff_label?.mp hx)).mpr (List.mem_singleton_self _)
      rw [← filter_unmarked_of_notMem hnew, hz, hz', List.filter_append, List.filter_append, List.filter_cons, hdrop]
      rfl
    | true => -- the source has recorded it
      obtain ⟨k, hk, rfl⟩ := findIdx?_marked hs hzi
      obtain ⟨hklt, -, -⟩ := List.findIdx?_eq_some_iff_getElem.mp hk
      have hchild : u.node.children[k]? = some (marked z)[k] := by
        rw [← h.own, List.getElem?_eq_getElem hklt]
      obtain ⟨hm, he⟩ := h.removeChild (t := t) hchild
      rw [hk]
      refine ⟨z.eraseIdx (place z k), hm, he, hnew, ?_⟩
      rw [← filter_unmarked_of_notMem hnew, unmarked_eraseIdx_place]

/-- Recording a node without an access in both scopes. It is found at corresponding places. -/
theorem Overlays.commit (h : Overlays t z u) {node : Node} (hs : node.hasScope = false) :
    ∃ z', Overlays t z' (u.commit node).1 ∧ (u.over t z).commit node =
      ((u.commit node).1.over t z', (u.commit node).2.map (Path.mapHead (place z'))) := by
  by_cases hp : node.isPrivate = true
  · refine ⟨z, ?_, ?_⟩ <;> simp only [OpenScope.commit, OpenScope.commitTo, hp, if_true]
    · exact h.note _
    · rfl
  have hp : node.isPrivate = false := by simpa using hp
  by_cases hrec : ∃ name, node.name = some name ∧ isRecordable name = true
  · obtain ⟨name, hname, hrec⟩ := hrec
    have hu : ∀ c ∈ u.node.children, c.name ≠ none → c.hasScope = false := by
      intro c hc
      rw [← h.own] at hc
      exact h.unscoped c (mem_entries_of_marked hc)
    rw [commit_of_unscoped u hname hrec hp hu, commit_of_unscoped _ hname hrec hp h.unscoped]
    obtain ⟨z₁, hz₁, hover, hnew, hold⟩ := h.toMerged.dropReplaced (t := t) node.kind name
    have hover' : (u.over t z).dropReplaced
        ((u.over t z).node.children.findIdx? (isNamed node.kind (some name))) =
        (u.dropReplaced (u.node.children.findIdx? (isNamed node.kind (some name)))).over t z₁ :=
      hover
    simp only [hover']
    have hlen : (entries z₁).findIdx (sortsAfter name) ≤ z₁.length := by
      rw [← length_entries]
      exact List.findIdx_le_length
    obtain ⟨hz₂, hover₂⟩ := hz₁.insertChild (t := t) hname hs hnew rfl
    refine ⟨_, ⟨⟨hz₂.root, hz₂.own, hz₂.named, hz₂.unique, hz₂.ordered, hz₂.unscoped, hz₂.contexts⟩,
      h.tree, ?_⟩, ?_⟩
    · rw [unmarked_insertIdx hlen, hold, h.old, List.filter_filter]
      refine List.filter_congr fun c _ => ?_
      have hd : ∀ i, ((u.dropReplaced (u.node.children.findIdx?
          (isNamed node.kind (some name)))).insertAt [i] node).declared = u.declared :=
        fun _ => declared_dropReplaced _ _
      simp only [OpenScope.noteRecorded, OpenScope.note, List.isEmpty_nil, if_true, hd,
        isOneOf_append, Bool.not_or]
      rw [Bool.and_comm]
    · refine Prod.ext ?_ ?_
      · dsimp only
        change OpenScope.noteRecorded [] node.kind name
          (((u.dropReplaced _).over t z₁).insertAt [(entries z₁).findIdx (sortsAfter name)] node) = _
        rw [hover₂]
        rfl
      · simp only [Option.map_some, Path.mapHead]
        rw [← hz₁.markedBefore_position name, place_markedBefore hlen]
        rfl
  · have hnone : ∀ scope : Node, scope.insertion? node = none := fun scope =>
      insertion?_eq_none scope fun name hname =>
        Bool.eq_false_iff.mpr fun hr => hrec ⟨name, hname, hr⟩
    refine ⟨z, ?_, ?_⟩ <;>
      simp only [OpenScope.commit, OpenScope.commitTo, hp, Bool.false_eq_true, if_false,
        Node.get?_nil, Option.bind_some, hnone]
    · exact h
    · rfl

end HeaderDocs.Scan
