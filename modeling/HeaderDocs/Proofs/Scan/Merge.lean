import HeaderDocs.Proofs.Scan.Alongside

/-!
# Reading a source into a documentation is laying it over

A source that is `Unqualified` opens no namespace and defines no member from outside. What it
declares does not depend on the documentation it is read into, and its declarations replace those of
the same kind and name there. All other declarations stay as they are.

* `overlay_of_overlays`: the children of the merged documentation, name by name.
* `readsAsOverlay_scan`: what follows for reading twice and for reading two sources.
* `scan_unnamedLast`: children without a name need not stay where they are.
-/
namespace HeaderDocs.Scan

open HeaderDocs.Node HeaderDocs.Marked

/-- What a source records in the documentation it is read into, in order. Some of that may have been
taken out again. -/
def declaredBy (source : String) (tree : Node) : List (Kind × String) :=
  ((State.start tree).run source.toList).result.declared

/-- A documentation that declarations can be laid over: its named children are sorted, no two of
them have the same kind and name, and none has an access. -/
structure Mergeable (t : Node) : Prop where
  root : t.kind = .root
  sorted : (t.children.filterMap (·.name)).Pairwise (· ≤ ·)
  unique : (t.children.filterMap label?).Nodup
  unscoped : ∀ c ∈ t.children, c.name ≠ none → c.hasScope = false

theorem mergeable_empty : Mergeable .empty := ⟨rfl, .nil, .nil, fun c hc => by cases hc⟩

def namedChildren (n : Node) : List Node := n.children.filter (·.name.isSome)

/-- The children of a node that have a certain name. -/
def childrenNamed (n : Node) (name : String) : List Node := n.children.filter (·.name == some name)

/-- The documentation `m` has the declarations of `u` laid over those of `t`; `labels` are the kinds
and names that are replaced. -/
structure Overlay (labels : List (Kind × String)) (t u m : Node) : Prop where
  /-- The node itself and its children without a name are those of `t`. -/
  rest : ∃ children, m = t.withChildren children ∧
    children.filter (·.name.isNone) = t.children.filter (·.name.isNone)
  declared : ∀ c ∈ u.children, isOneOf labels c = true
  replaced : ∀ kind name, (kind, name) ∈ labels → m.find? kind (some name) = u.find? kind (some name)
  unchanged : ∀ kind name, (kind, name) ∉ labels →
    m.find? kind (some name) = t.find? kind (some name)
  sorted : (m.children.filterMap (·.name)).Pairwise (· ≤ ·)
  unique : (m.children.filterMap label?).Nodup
  /-- Of the same name, what is left of `t` comes first, in both cases in the old order. -/
  ofName : ∀ name, childrenNamed m name =
    (childrenNamed t name).filter (!isOneOf labels ·) ++ childrenNamed u name

/-! ## The scopes of the source -/

/-- A scope read into a documentation begins beside the same scope read by itself. -/
theorem overlays_start {t : Node} (ht : Mergeable t) :
    Overlays t (t.children.map (false, ·)) (.begin .empty .source) ∧
      OpenScope.begin t .source =
        (OpenScope.begin .empty .source).over t (t.children.map (false, ·)) := by
  have hentries : entries (t.children.map (false, ·)) = t.children := by
    simp [entries, Function.comp_def]
  have hmarked : marked (t.children.map (false, ·)) = [] := by
    simp [marked, List.filter_map, Function.comp_def]
  have hunmarked : unmarked (t.children.map (false, ·)) = t.children := by
    simp [unmarked, List.filter_map, Function.comp_def]
  refine ⟨⟨⟨rfl, hmarked, ?_, ?_, ?_, ?_, ?_⟩, ht.root, ?_⟩, ?_⟩
  · rw [hmarked]
    intro c hc
    cases hc
  · rw [hentries]
    exact ht.unique
  · rw [List.pairwise_map]
    refine (List.pairwise_filterMap.mp ht.sorted).imp fun {a b} hab m n hm hn => ?_
    have hle : m ≤ n := hab m hm n hn
    by_cases hlt : m < n
    · exact .inl hlt
    · exact .inr ⟨String.le_antisymm hle (String.not_lt.mp hlt), fun h => by cases h⟩
  · rw [hentries]
    exact ht.unscoped
  · intro c hc
    rw [List.mem_singleton.mp hc]
    exact Context.plain_ofScope rfl
  · rw [hunmarked, List.filter_eq_self.mpr]
    intro c _
    simp [OpenScope.begin, isOneOf_nil]
  · have hcontext : Context.ofScope t = (Context.ofScope .empty).mapIndex
        (place (t.children.map (false, ·))) := by
      unfold Context.ofScope
      rw [ht.root]
      rfl
    simp only [OpenScope.over, OpenScope.begin, OpenScope.mapContexts, hentries, withChildren_self,
      hcontext, List.map_nil]

theorem overlays_scan {source : String} (hs : Unqualified source.toList) {t : Node}
    (ht : Mergeable t) :
    ∃ z, Overlays t z ((State.start .empty).run source.toList).result ∧
      ((State.start t).run source.toList).result =
        ((State.start .empty).run source.toList).result.over t z := by
  obtain ⟨hz, he⟩ := overlays_start ht
  have hstart : (State.start t).Alongside t (State.start .empty) := ⟨rfl, .source ⟨_, hz, he⟩⟩
  have hsound : (State.start .empty).Sound Node.empty.key :=
    State.sound_start rfl (State.kept_leaf .root {})
  obtain ⟨halong, hrun⟩ := hstart.run [] hsound List.suffix_rfl hs
  exact halong.scopes.unwind hrun

/-! ## Names -/

/-- Of the children with the same name, those of the source come last. -/
theorem filter_name_entries {z : List (Bool × Node)} (hz : z.Pairwise InOrder) (name : String) :
    (entries z).filter (·.name == some name) =
      (unmarked z).filter (·.name == some name) ++ (marked z).filter (·.name == some name) := by
  induction z with
  | nil => rfl
  | cons p z ih =>
    obtain ⟨hp, hrest⟩ := List.pairwise_cons.mp hz
    have ih := ih hrest
    rcases p with ⟨_ | _, x⟩
    · by_cases hx : (x.name == some name) = true
      · simp [hx, ih]
      · simp [hx, ih]
    · by_cases hx : (x.name == some name) = true
      · -- all that follow with this name are marked too
        have hnone : (unmarked z).filter (·.name == some name) = [] := by
          rw [List.filter_eq_nil_iff]
          intro c hc hcn
          obtain ⟨q, hq, rfl⟩ := List.mem_map.mp hc
          obtain ⟨hq, hq1⟩ := List.mem_filter.mp hq
          rcases hp q hq name name (beq_iff_eq.mp hx) (beq_iff_eq.mp hcn) with hlt | ⟨-, htrue⟩
          · exact String.lt_irrefl _ hlt
          · simp [htrue rfl] at hq1
        rw [hnone] at ih
        simp [hx, hnone, ih]
      · simp [hx, ih]

/-- All that are without a name come from the tree. -/
theorem filter_isNone_entries {z : List (Bool × Node)} (hz : ∀ c ∈ marked z, c.name ≠ none) :
    (entries z).filter (·.name.isNone) = (unmarked z).filter (·.name.isNone) := by
  induction z with
  | nil => rfl
  | cons p z ih =>
    rcases p with ⟨_ | _, x⟩
    · simp [List.filter_cons, ih hz]
    · obtain ⟨hx, hz⟩ := List.forall_mem_cons.mp hz
      simp [hx, ih hz]

section Find

variable {labels : List (Kind × String)} {kind : Kind} {name : String}

/-- A child of a kind and name is found among those of that name. -/
theorem find?_eq_childrenNamed (n : Node) (kind : Kind) (name : String) :
    n.find? kind (some name) = (childrenNamed n name).find? (isNamed kind (some name)) := by
  unfold Node.find? childrenNamed
  rw [List.find?_filter]
  congr 1
  funext c
  simp only [isNamed, Option.isNone_some, Bool.false_or]
  by_cases hc : c.name = some name
  · simp [hc, beq_eq_decide]
  · simp [hc]

/-- What is replaced is not found among the others. -/
theorem find?_filter_of_mem (h : (kind, name) ∈ labels) (cs : List Node) :
    (cs.filter (!isOneOf labels ·)).find? (isNamed kind (some name)) = none := by
  rw [List.find?_eq_none]
  intro c hc hcn
  have hno := (List.mem_filter.mp hc).2
  rw [(isOneOf_iff_mem (isNamed_iff_label?.mp hcn)).mpr h] at hno
  cases hno

theorem find?_filter_of_notMem (h : (kind, name) ∉ labels) (cs : List Node) :
    (cs.filter (!isOneOf labels ·)).find? (isNamed kind (some name)) =
      cs.find? (isNamed kind (some name)) := by
  rw [List.find?_filter]
  congr 1
  funext c
  by_cases hc : isNamed kind (some name) c = true
  · have hno : isOneOf labels c = false := by
      rw [Bool.eq_false_iff, ne_eq, isOneOf_iff_mem (isNamed_iff_label?.mp hc)]
      exact h
    simp [hc, hno]
  · simp [hc]

theorem find?_eq_none_of_notMem (h : (kind, name) ∉ labels) {cs : List Node}
    (hcs : ∀ c ∈ cs, isOneOf labels c = true) : cs.find? (isNamed kind (some name)) = none := by
  rw [List.find?_eq_none]
  intro c hc hcn
  exact h ((isOneOf_iff_mem (isNamed_iff_label?.mp hcn)).mp (hcs c hc))

end Find

/-- What a source leaves in the empty documentation is what it has recorded there. -/
theorem isOneOf_declaredBy {source : String} (hs : Unqualified source.toList) {c : Node}
    (hc : c ∈ (scan source .empty).children) : isOneOf (declaredBy source .empty) c = true := by
  obtain ⟨z₀, hz₀, -⟩ := overlays_scan hs mergeable_empty
  have hcm : c ∈ marked z₀ := hz₀.own ▸ hc
  have hce : c ∈ entries z₀ := mem_entries_of_marked hcm
  obtain ⟨name, hname⟩ := Option.ne_none_iff_exists'.mp (hz₀.named c hcm)
  have hlabel : c.label? = some (c.kind, name) := by simp [label?, hname]
  -- a documentation that holds the same child already would hold it twice
  let t : Node := { kind := .root, children := [c] }
  have ht : Mergeable t := by
    refine ⟨rfl, ?_, ?_, ?_⟩
    · simp [t, hname]
    · simp [t, hlabel]
    · intro d hd hdn
      rw [List.mem_singleton.mp hd] at hdn ⊢
      exact hz₀.unscoped c hce hdn
  obtain ⟨z, hz, -⟩ := overlays_scan hs ht
  by_contra hno
  have hold : unmarked z = [c] := by
    rw [hz.old]
    have hone : isOneOf (declaredBy source .empty) c = false := by simpa using hno
    change isOneOf ((State.start .empty).run source.toList).result.declared c = false at hone
    simp [t, hone]
  have hown : c ∈ marked z := hz.own ▸ hc
  have hnodup := hz.unique
  rw [((entries_perm z).filterMap label?).nodup_iff, List.filterMap_append, hold,
    List.filterMap_cons_some hlabel, List.nodup_append] at hnodup
  exact hnodup.2.2 _ (List.mem_filterMap.mpr ⟨c, hown, hlabel⟩) _ (List.mem_cons_self ..) rfl

theorem overlay_of_overlays {t : Node} {z : List (Bool × Node)} {u : OpenScope}
    (h : Overlays t z u) (hu : ∀ c ∈ u.node.children, isOneOf u.declared c = true) :
    Overlay u.declared t u.node (t.withChildren (entries z)) := by
  have hname : ∀ name, childrenNamed (t.withChildren (entries z)) name =
      (childrenNamed t name).filter (!isOneOf u.declared ·) ++ childrenNamed u.node name := by
    intro name
    unfold childrenNamed
    rw [show (t.withChildren (entries z)).children = entries z from rfl,
      filter_name_entries h.ordered, h.old, h.own, List.filter_filter, List.filter_filter]
    simp only [Bool.and_comm]
  refine ⟨⟨entries z, rfl, ?_⟩, hu, ?_, ?_, ?_, h.unique, hname⟩
  · rw [filter_isNone_entries h.named, h.old, List.filter_filter]
    refine List.filter_congr fun c _ => ?_
    cases hc : c.name with
    | none => simp [isOneOf, label?, hc]
    | some name => simp
  · intro kind name hmem
    rw [find?_eq_childrenNamed, find?_eq_childrenNamed, hname, List.find?_append,
      find?_filter_of_mem hmem, Option.none_or]
  · intro kind name hmem
    have hnone : (childrenNamed u.node name).find? (isNamed kind (some name)) = none :=
      find?_eq_none_of_notMem hmem fun c hc => hu c (List.mem_filter.mp hc).1
    rw [find?_eq_childrenNamed, find?_eq_childrenNamed, hname, List.find?_append, hnone,
      Option.or_none, find?_filter_of_notMem hmem]
  · rw [List.pairwise_filterMap]
    refine (List.pairwise_map.mpr (h.ordered.imp fun {a b} hab => ?_) :
      (entries z).Pairwise _)
    intro m hm n hn
    rcases hab m n hm hn with hlt | ⟨rfl, -⟩
    · exact String.not_lt.mp (String.lt_asymm hlt)
    · exact String.le_refl _

/-! ## Equal children -/

/-- Where the first child of a list is also in another one, which is sorted, the first there has no
greater name. -/
theorem le_of_filter_name {a b : Node} {l k : List Node} {m n : String} (ha : a.name = some m)
    (hb : b.name = some n) (hs : ((b :: k).filterMap (·.name)).Pairwise (· ≤ ·))
    (h : (a :: l).filter (·.name == some m) = (b :: k).filter (·.name == some m)) : n ≤ m := by
  have hmem : a ∈ (b :: k).filter (·.name == some m) := by
    rw [← h]
    exact List.mem_filter.mpr ⟨List.mem_cons_self .., by simp [ha]⟩
  rcases List.mem_cons.mp (List.mem_filter.mp hmem).1 with rfl | hmem
  · obtain rfl : n = m := Option.some.inj (hb.symm.trans ha)
    exact String.le_refl _
  · rw [List.filterMap_cons_some hb] at hs
    exact (List.pairwise_cons.mp hs).1 m (List.mem_filterMap.mpr ⟨a, hmem, ha⟩)

/-- A sorted list in which all have a name is known by what it holds under each name. -/
theorem eq_of_filter_name {l k : List Node} (hl : ∀ c ∈ l, c.name ≠ none)
    (hk : ∀ c ∈ k, c.name ≠ none) (hls : (l.filterMap (·.name)).Pairwise (· ≤ ·))
    (hks : (k.filterMap (·.name)).Pairwise (· ≤ ·))
    (h : ∀ name : String, l.filter (·.name == some name) = k.filter (·.name == some name)) :
    l = k := by
  induction l generalizing k with
  | nil =>
    cases k with
    | nil => rfl
    | cons b k =>
      obtain ⟨n, hb⟩ := Option.ne_none_iff_exists'.mp (hk b (List.mem_cons_self ..))
      have := h n
      simp [hb] at this
  | cons a l ih =>
    obtain ⟨m, ha⟩ := Option.ne_none_iff_exists'.mp (hl a (List.mem_cons_self ..))
    cases k with
    | nil =>
      have := h m
      simp [ha] at this
    | cons b k =>
      obtain ⟨n, hb⟩ := Option.ne_none_iff_exists'.mp (hk b (List.mem_cons_self ..))
      obtain rfl : n = m :=
        String.le_antisymm (le_of_filter_name ha hb hks (h m))
          (le_of_filter_name hb ha hls (h n).symm)
      have hhead := h n
      rw [List.filter_cons_of_pos (by simp [ha]), List.filter_cons_of_pos (by simp [hb])] at hhead
      obtain ⟨rfl, -⟩ := List.cons.inj hhead
      congr 1
      rw [List.filterMap_cons_some ha] at hls hks
      refine ih (fun c hc => hl c (List.mem_cons_of_mem _ hc))
        (fun c hc => hk c (List.mem_cons_of_mem _ hc)) hls.of_cons hks.of_cons fun name => ?_
      have htail := h name
      rw [List.filter_cons, List.filter_cons] at htail
      split at htail
      · exact (List.cons.inj htail).2
      · exact htail

theorem name_ne_none_of_mem {n : Node} : ∀ c ∈ namedChildren n, c.name ≠ none := by
  intro c hc
  exact Option.isSome_iff_ne_none.mp (List.mem_filter.mp hc).2

theorem filterMap_name_namedChildren (n : Node) :
    (namedChildren n).filterMap (·.name) = n.children.filterMap (·.name) := by
  unfold namedChildren
  rw [List.filterMap_filter]
  refine List.filterMap_congr fun c _ => ?_
  cases c.name with
  | none => rfl
  | some name => rfl

theorem filter_name_namedChildren (n : Node) (name : String) :
    (namedChildren n).filter (·.name == some name) = childrenNamed n name := by
  unfold namedChildren childrenNamed
  rw [List.filter_filter]
  refine List.filter_congr fun c _ => ?_
  cases c.name with
  | none => rfl
  | some other => simp

/-- Sorted children that agree under each name are the same. -/
theorem namedChildren_eq {m n : Node} (hm : (m.children.filterMap (·.name)).Pairwise (· ≤ ·))
    (hn : (n.children.filterMap (·.name)).Pairwise (· ≤ ·))
    (h : ∀ name, childrenNamed m name = childrenNamed n name) :
    namedChildren m = namedChildren n := by
  refine eq_of_filter_name name_ne_none_of_mem name_ne_none_of_mem ?_ ?_ fun name => ?_
  · rw [filterMap_name_namedChildren]
    exact hm
  · rw [filterMap_name_namedChildren]
    exact hn
  · rw [filter_name_namedChildren, filter_name_namedChildren]
    exact h name

theorem namedChildren_eq_children {n : Node} (h : ∀ c ∈ n.children, c.name ≠ none) :
    namedChildren n = n.children :=
  List.filter_eq_self.mpr fun c hc => Option.isSome_iff_ne_none.mpr (h c hc)

namespace Overlay

variable {labels : List (Kind × String)} {t u m : Node}

theorem isSome_name (h : Overlay labels t u m) (ht : ∀ c ∈ t.children, c.name ≠ none) :
    ∀ c ∈ m.children, c.name ≠ none := by
  obtain ⟨children, rfl, hrest⟩ := h.rest
  have hnil : t.children.filter (·.name.isNone) = [] := by
    rw [List.filter_eq_nil_iff]
    intro c hc
    simpa using ht c hc
  rw [hnil, List.filter_eq_nil_iff] at hrest
  intro c hc hn
  exact hrest c hc (by simp [hn])

/-- What the source declares under no name stays as it is. -/
theorem childrenNamed_of_notMem (h : Overlay labels t u m) {name : String}
    (hno : ∀ kind, (kind, name) ∉ labels) : childrenNamed m name = childrenNamed t name := by
  have hlabel : ∀ c : Node, c.name = some name → isOneOf labels c = false := by
    intro c hc
    have hl : c.label? = some (c.kind, name) := by simp [label?, hc]
    rw [Bool.eq_false_iff, ne_eq, isOneOf_iff_mem hl]
    exact hno c.kind
  have hu : childrenNamed u name = [] := by
    unfold childrenNamed
    rw [List.filter_eq_nil_iff]
    intro c hc hcn
    exact absurd (h.declared c hc) (by simp [hlabel c (beq_iff_eq.mp hcn)])
  rw [h.ofName, hu, List.append_nil, List.filter_eq_self]
  intro c hc
  simp [hlabel c (beq_iff_eq.mp (List.mem_filter.mp hc).2)]

end Overlay

/-! ## Reading a source -/

/-- Reading a source lays what it declares over the documentation. -/
theorem overlay_scan {source : String} (hs : Unqualified source.toList) {t : Node}
    (ht : Mergeable t) :
    Overlay (declaredBy source .empty) t (scan source .empty) (scan source t) := by
  obtain ⟨z, hz, he⟩ := overlays_scan hs ht
  have hscan : scan source t = t.withChildren (entries z) :=
    congrArg OpenScope.node he
  rw [hscan]
  exact overlay_of_overlays hz fun c hc => isOneOf_declaredBy hs hc

/-- More can be laid over a merged documentation. -/
theorem mergeable_scan {source : String} (hs : Unqualified source.toList) {t : Node}
    (ht : Mergeable t) : Mergeable (scan source t) := by
  obtain ⟨z, hz, he⟩ := overlays_scan hs ht
  have hscan : scan source t = t.withChildren (entries z) :=
    congrArg OpenScope.node he
  have h := overlay_scan hs ht
  refine ⟨?_, h.sorted, h.unique, ?_⟩
  · rw [hscan]
    exact ht.root
  · rw [hscan]
    exact hz.unscoped

/-- What a source declares does not depend on the documentation it is read into. -/
theorem declaredBy_eq {source : String} (hs : Unqualified source.toList) {t : Node}
    (ht : Mergeable t) : declaredBy source t = declaredBy source .empty := by
  obtain ⟨z, hz, he⟩ := overlays_scan hs ht
  unfold declaredBy
  rw [he]
  rfl

/-- What reading a source into a documentation does. Where no child of the documentation is without
a name, the equations are between whole documentations. -/
structure ReadsAsOverlay (source : String) (t : Node) : Prop where
  labels : declaredBy source t = declaredBy source .empty
  overlay : Overlay (declaredBy source .empty) t (scan source .empty) (scan source t)
  twice : namedChildren (scan source (scan source t)) = namedChildren (scan source t)
  twice_eq : (∀ c ∈ t.children, c.name ≠ none) → scan source (scan source t) = scan source t
  /-- Two sources that declare nothing under the same name. -/
  commutes : ∀ other : String, Unqualified other.toList →
    (∀ p ∈ declaredBy source .empty, ∀ q ∈ declaredBy other .empty, p.2 ≠ q.2) →
    namedChildren (scan other (scan source t)) = namedChildren (scan source (scan other t)) ∧
      ((∀ c ∈ t.children, c.name ≠ none) →
        scan other (scan source t) = scan source (scan other t))

/-- Reading a source twice leaves the named children that reading it once does. -/
theorem namedChildren_scan_scan {source : String} (hs : Unqualified source.toList) {t : Node}
    (ht : Mergeable t) :
    namedChildren (scan source (scan source t)) = namedChildren (scan source t) := by
  have hm := mergeable_scan hs ht
  have h := overlay_scan hs ht
  have h' := overlay_scan hs hm
  refine namedChildren_eq h'.sorted h.sorted fun name => ?_
  have hnone : (childrenNamed (scan source .empty) name).filter
      (!isOneOf (declaredBy source .empty) ·) = [] := by
    rw [List.filter_eq_nil_iff]
    intro c hc
    simp [isOneOf_declaredBy hs (List.mem_filter.mp hc).1]
  rw [h'.ofName, h.ofName, List.filter_append, hnone, List.append_nil, List.filter_filter]
  simp only [Bool.and_self]

/-- Two sources that declare nothing under the same name leave the same named children in either
order. -/
theorem namedChildren_scan_comm {source other : String} (hs : Unqualified source.toList)
    (ho : Unqualified other.toList)
    (hd : ∀ p ∈ declaredBy source .empty, ∀ q ∈ declaredBy other .empty, p.2 ≠ q.2) {t : Node}
    (ht : Mergeable t) :
    namedChildren (scan other (scan source t)) = namedChildren (scan source (scan other t)) := by
  have h := overlay_scan hs ht
  have ho' := overlay_scan ho ht
  have hso := overlay_scan ho (mergeable_scan hs ht)
  have hos := overlay_scan hs (mergeable_scan ho ht)
  refine namedChildren_eq hso.sorted hos.sorted fun name => ?_
  by_cases hname : ∃ kind, (kind, name) ∈ declaredBy source .empty
  · obtain ⟨kind, hkind⟩ := hname
    have hno : ∀ kind, (kind, name) ∉ declaredBy other .empty :=
      fun _ hother => hd _ hkind _ hother rfl
    rw [hso.childrenNamed_of_notMem hno, hos.ofName, ho'.childrenNamed_of_notMem hno, h.ofName]
  · have hno : ∀ kind, (kind, name) ∉ declaredBy source .empty :=
      fun kind hkind => hname ⟨kind, hkind⟩
    rw [hos.childrenNamed_of_notMem hno, hso.ofName, h.childrenNamed_of_notMem hno, ho'.ofName]

/-- Reading a source changes nothing but the children. -/
theorem withChildren_scan {source : String} (hs : Unqualified source.toList) {t : Node}
    (ht : Mergeable t) (children : List Node) :
    (scan source t).withChildren children = t.withChildren children := by
  obtain ⟨children', hm, -⟩ := (overlay_scan hs ht).rest
  rw [hm]
  rfl

/-- A source without namespaces and members defined from outside is laid over the documentation it
is read into. -/
theorem readsAsOverlay_scan {source : String} (hs : Unqualified source.toList) {t : Node}
    (ht : Mergeable t) : ReadsAsOverlay source t := by
  have h := overlay_scan hs ht
  have hm := mergeable_scan hs ht
  have htwice := namedChildren_scan_scan hs ht
  refine ⟨declaredBy_eq hs ht, h, htwice, fun hn => ?_, fun other ho hd => ?_⟩
  · have h' := overlay_scan hs hm
    have hnamed := h.isSome_name hn
    rw [namedChildren_eq_children (h'.isSome_name hnamed), namedChildren_eq_children hnamed]
      at htwice
    rw [← withChildren_self (scan source (scan source t)), withChildren_scan hs hm, htwice,
      withChildren_self]
  · have hcomm := namedChildren_scan_comm hs ho hd ht
    refine ⟨hcomm, fun hn => ?_⟩
    have hmo := mergeable_scan ho ht
    have hso := (overlay_scan ho hm).isSome_name (h.isSome_name hn)
    have hos := (overlay_scan hs hmo).isSome_name ((overlay_scan ho ht).isSome_name hn)
    rw [namedChildren_eq_children hso, namedChildren_eq_children hos] at hcomm
    rw [← withChildren_self (scan other (scan source t)), withChildren_scan ho hm,
      withChildren_scan hs ht, hcomm, ← withChildren_scan ho ht, ← withChildren_scan hs hmo,
      withChildren_self]

def oneVariable : Node :=
  { kind := .root, children := [{ kind := .var, attrs := { name := some "z" } }] }

theorem readsAsOverlay_scan_oneVariable :
    Unqualified "int y, z;".toList ∧ Mergeable oneVariable ∧
      ReadsAsOverlay "int y, z;" oneVariable ∧
      scan "int y, z;" (scan "int y, z;" oneVariable) = scan "int y, z;" oneVariable ∧
      scan "int *x;" (scan "int y, z;" oneVariable) =
        scan "int y, z;" (scan "int *x;" oneVariable) := by
  have hs : Unqualified "int y, z;".toList := ⟨by decide +kernel, by decide +kernel⟩
  have ho : Unqualified "int *x;".toList := ⟨by decide +kernel, by decide +kernel⟩
  have ht : Mergeable oneVariable := ⟨rfl, List.pairwise_singleton _ _, List.pairwise_singleton _ _, by decide⟩
  have hn : ∀ c ∈ oneVariable.children, c.name ≠ none := by decide
  have h := readsAsOverlay_scan hs ht
  exact ⟨hs, ht, h, h.twice_eq hn, (h.commutes _ ho (by decide +kernel)).2 hn⟩

/-- A documentation with a variable and after it one without a name. -/
def unnamedLast : Node :=
  { kind := .root, children := [{ kind := .var, attrs := { name := some "z" } }, { kind := .var }] }

/-- A child without a name may change its place when a source is read again, or when two sources are
read in the other order. -/
theorem scan_unnamedLast :
    Unqualified "int y, z;".toList ∧ Mergeable unnamedLast ∧
      scan "int y, z;" (scan "int y, z;" unnamedLast) ≠ scan "int y, z;" unnamedLast ∧
      scan "int y;" (scan "int z;" unnamedLast) ≠ scan "int z;" (scan "int y;" unnamedLast) := by
  refine ⟨⟨by decide +kernel, by decide +kernel⟩, ⟨rfl, List.pairwise_singleton _ _, List.pairwise_singleton _ _, by decide⟩, fun h => ?_, fun h => ?_⟩
  · exact absurd (congrArg (·.children.map (·.name)) h) (by decide +kernel)
  · exact absurd (congrArg (·.children.map (·.name)) h) (by decide +kernel)

end HeaderDocs.Scan
