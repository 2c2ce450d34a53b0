import HeaderDocs.Proofs.Scan.Arrangement
import HeaderDocs.Proofs.Scan.Merge
import HeaderDocs.Proofs.Tree.Canon

/-!
# Reading the same sources again

Several sources are laid over a documentation as one. Where all that stands there was declared by
these sources, nothing of it is left, and the result is what the sources declare by themselves.

* `Overlay.trans`: one overlay after the other.
* `scanEach_canon`: sources read again into what was saved of them.
-/
namespace HeaderDocs.Scan

open HeaderDocs.Node

theorem isOneOf_of_append {labels more : List (Kind × String)} {n : Node} :
    isOneOf (labels ++ more) n = true ↔ isOneOf labels n = true ∨ isOneOf more n = true := by
  rw [isOneOf_append, Bool.or_eq_true]

namespace Overlay

variable {labels more : List (Kind × String)} {t u v m m' u' : Node}

/-- Laying nothing over a documentation. -/
theorem refl (ht : Mergeable t) : Overlay [] t .empty t := by
  refine ⟨⟨t.children, t.withChildren_self.symm, rfl⟩, ?_, ?_, ?_, ht.sorted, ht.unique, ?_⟩
  · intro c hc
    cases hc
  · intro kind name hmem
    cases hmem
  · intro kind name _
    rfl
  · intro name
    have hall : ∀ c ∈ childrenNamed t name, (!isOneOf [] c) = true := by
      intro c _
      rw [isOneOf_nil]
      rfl
    rw [List.filter_eq_self.mpr hall]
    exact (List.append_nil _).symm

/-- What one documentation lays over another one it also lays over that one with something laid over
it before. -/
theorem trans (h : Overlay labels t u m) (hu : Overlay more u v u') (hm : Overlay more m v m') :
    Overlay (labels ++ more) t u' m' := by
  refine ⟨?_, ?_, ?_, ?_, hm.sorted, hm.unique, ?_⟩
  · obtain ⟨children, rfl, hrest⟩ := h.rest
    obtain ⟨children', rfl, hrest'⟩ := hm.rest
    exact ⟨children', rfl, hrest'.trans hrest⟩
  · intro c hc
    rw [isOneOf_of_append]
    cases hname : c.name with
    | none =>
      obtain ⟨children, hu', hrest⟩ := hu.rest
      have hmem : c ∈ children.filter (·.name.isNone) := by
        rw [hu'] at hc
        exact List.mem_filter.mpr ⟨hc, by simp [hname]⟩
      rw [hrest] at hmem
      exact .inl (h.declared c (List.mem_filter.mp hmem).1)
    | some name =>
      have hmem : c ∈ childrenNamed u' name := List.mem_filter.mpr ⟨hc, by simp [hname]⟩
      rw [hu.ofName] at hmem
      rcases List.mem_append.mp hmem with hmem | hmem
      · exact .inl (h.declared c (List.mem_filter.mp (List.mem_filter.mp hmem).1).1)
      · exact .inr (hu.declared c (List.mem_filter.mp hmem).1)
  · intro kind name hmem
    by_cases hmore : (kind, name) ∈ more
    · rw [hm.replaced kind name hmore, hu.replaced kind name hmore]
    · have hlabels := (List.mem_append.mp hmem).resolve_right hmore
      rw [hm.unchanged kind name hmore, hu.unchanged kind name hmore, h.replaced kind name hlabels]
  · intro kind name hmem
    rw [List.mem_append, not_or] at hmem
    rw [hm.unchanged kind name hmem.2, h.unchanged kind name hmem.1]
  · intro name
    rw [hm.ofName, hu.ofName, h.ofName, List.filter_append, List.filter_filter, List.append_assoc]
    congr 1
    refine List.filter_congr fun c _ => ?_
    rw [isOneOf_append, Bool.not_or, Bool.and_comm]

end Overlay

def declaredByEach (sources : List String) : List (Kind × String) :=
  sources.flatMap (declaredBy · .empty)

theorem mergeable_scanEach {sources : List String} (hs : ∀ s ∈ sources, Unqualified s.toList)
    {t : Node} (ht : Mergeable t) : Mergeable (scanEach sources t) := by
  induction sources generalizing t with
  | nil => exact ht
  | cons source sources ih =>
    exact ih (fun s h => hs s (List.mem_cons_of_mem _ h))
      (mergeable_scan (hs source (List.mem_cons_self ..)) ht)

/-- Sources that are read one after the other are laid over a documentation as one. -/
theorem overlay_scanEach {sources : List String} (hs : ∀ s ∈ sources, Unqualified s.toList)
    {t : Node} (ht : Mergeable t) :
    Overlay (declaredByEach sources) t (scanEach sources .empty) (scanEach sources t) := by
  induction sources generalizing t with
  | nil => exact .refl ht
  | cons source sources ih =>
    have hsource := hs source (List.mem_cons_self ..)
    have ih := fun {t : Node} (ht : Mergeable t) =>
      ih (fun s h => hs s (List.mem_cons_of_mem _ h)) ht
    exact (overlay_scan hsource ht).trans (ih (mergeable_scan hsource mergeable_empty))
      (ih (mergeable_scan hsource ht))

/-- Where all children of a documentation are declared by the sources, these leave what they declare
by themselves. -/
theorem children_scanEach {sources : List String} (hs : ∀ s ∈ sources, Unqualified s.toList)
    {t : Node} (ht : Mergeable t)
    (hdeclared : ∀ c ∈ t.children, isOneOf (declaredByEach sources) c = true) :
    (scanEach sources t).children = (scanEach sources .empty).children := by
  have h := overlay_scanEach hs ht
  have hempty := overlay_scanEach hs mergeable_empty
  have hnamed : ∀ c : Node, isOneOf (declaredByEach sources) c = true → c.name ≠ none := by
    intro c hone hn
    simp [isOneOf, label?, hn] at hone
  have heq : namedChildren (scanEach sources t) = namedChildren (scanEach sources .empty) := by
    refine namedChildren_eq h.sorted hempty.sorted fun name => ?_
    rw [h.ofName, List.filter_eq_nil_iff.mpr, List.nil_append]
    intro c hc
    simp [hdeclared c (List.mem_filter.mp hc).1]
  rwa [namedChildren_eq_children (h.isSome_name fun c hc => hnamed c (hdeclared c hc)),
    namedChildren_eq_children fun c hc => hnamed c (h.declared c hc)] at heq

/-! ## What was saved -/

/-- A node with a name that documents may hold keeps its name. -/
theorem name_canon {n : Node} (h : ∀ name, n.name = some name → IsSafe name) :
    n.canon.name = n.name := by
  have hname : n.canon.name = n.name.map Xml.safeText := by
    rw [name, attrs_canon]
    rfl
  rw [hname]
  cases hn : n.name with
  | none => rfl
  | some name => rw [Option.map_some, safeText_of_isSafe (h name hn)]

theorem label?_canon {n : Node} (h : ∀ name, n.name = some name → IsSafe name) :
    n.canon.label? = n.label? := by
  unfold label?
  rw [name_canon h, kind_canon]

/-- An access stays as far as there is none. -/
theorem hasScope_canon {n : Node} (h : n.hasScope = false) : n.canon.hasScope = false := by
  have hscope : n.canon.scope = n.scope.map Xml.safeText := by
    rw [scope, attrs_canon]
    rfl
  unfold hasScope at h ⊢
  rw [hscope]
  cases hn : n.scope with
  | none => rfl
  | some value =>
    rw [hn] at h
    obtain rfl : value = "" := by simpa using h
    rfl

theorem children_canon_root {t : Node} (h : t.kind = .root) :
    t.canon.children = (t.children.filter (!·.kind.isText)).map canon :=
  children_canon (by rw [h]; nofun) (by rw [h]; nofun)

/-- What saving keeps of each child, it keeps of a list of children, unless they are dropped. -/
theorem filterMap_canon_sublist {β : Type} {t : Node} (h : t.kind = .root) {f : Node → Option β}
    (hf : ∀ c ∈ t.children, f c.canon = f c) :
    (t.canon.children.filterMap f).Sublist (t.children.filterMap f) := by
  rw [children_canon_root h, List.filterMap_map]
  have hcongr : (t.children.filter (!·.kind.isText)).filterMap (f ∘ canon) =
      (t.children.filter (!·.kind.isText)).filterMap f :=
    List.filterMap_congr fun c hc => hf c (List.mem_filter.mp hc).1
  rw [hcongr]
  exact List.filter_sublist.filterMap f

/-- What was saved of a documentation can be laid over. -/
theorem mergeable_canon {t : Node} (ht : Mergeable t)
    (hsafe : ∀ c ∈ t.children, ∀ name, c.name = some name → IsSafe name) : Mergeable t.canon := by
  refine ⟨(kind_canon t).trans ht.root, ?_, ?_, ?_⟩
  · exact ht.sorted.sublist (filterMap_canon_sublist ht.root fun c hc => name_canon (hsafe c hc))
  · exact ht.unique.sublist (filterMap_canon_sublist ht.root fun c hc => label?_canon (hsafe c hc))
  · intro c hc hn
    rw [children_canon_root ht.root] at hc
    obtain ⟨d, hd, rfl⟩ := List.mem_map.mp hc
    have hd := (List.mem_filter.mp hd).1
    rw [name_canon (hsafe d hd)] at hn
    exact hasScope_canon (ht.unscoped d hd hn)

/-- Sources that are read again into what was saved of them leave what they left before. -/
theorem scanEach_canon {sources : List String} (hs : ∀ s ∈ sources, Unqualified s.toList)
    (hsafe : ∀ c ∈ (scanEach sources .empty).children, ∀ name, c.name = some name → IsSafe name) :
    scanEach sources (scanEach sources .empty).canon = scanEach sources .empty := by
  have ht := mergeable_scanEach hs mergeable_empty
  have hempty := overlay_scanEach hs mergeable_empty
  have hcanon := mergeable_canon ht hsafe
  have hdeclared : ∀ c ∈ (scanEach sources .empty).canon.children,
      isOneOf (declaredByEach sources) c = true := by
    intro c hc
    rw [children_canon_root ht.root] at hc
    obtain ⟨d, hd, rfl⟩ := List.mem_map.mp hc
    have hd := (List.mem_filter.mp hd).1
    unfold isOneOf
    rw [label?_canon (hsafe d hd)]
    exact hempty.declared d hd
  have hchildren := children_scanEach hs hcanon hdeclared
  obtain ⟨children, hm, -⟩ := (overlay_scanEach hs hcanon).rest
  obtain ⟨own, howned, -⟩ := hempty.rest
  -- the node itself has nothing that saving could change
  have hitself : ∀ n : Node, n = Node.empty.withChildren own → n.canon.withChildren n.children = n := by
    rintro _ rfl
    rfl
  have hown : children = (scanEach sources .empty).children := by
    rw [hm] at hchildren
    exact hchildren
  rw [hm, hown]
  exact hitself _ howned

end HeaderDocs.Scan
