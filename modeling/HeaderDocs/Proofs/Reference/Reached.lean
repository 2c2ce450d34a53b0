import HeaderDocs.Reference.Section
import HeaderDocs.Proofs.Tree.Named
import Mathlib.Data.List.Nodup
import Mathlib.Data.List.Pairwise

/-!
# Nodes and the names around them

What has an entry is found in the tree by way of scopes that list their members, and each of these has
a name. Children of one scope with the same name have different kinds, so that the kind, the name and
the names around it lead to one node, unless they lead through a namespace and a record, or two kinds of
records, of one name.

* `Reached`: the nodes that are found in this way.
* `Reached.of_mem_names`: the names in the whole tree and those around a node.
* `Reached.eq_or_inNamesakes`: two nodes of the same names.
-/
namespace HeaderDocs

open HeaderDocs.Node

/-! ## Nodes and the scopes around them -/

def Kind.HasEntry (kind : Kind) : Prop := (Node.kindLabel? kind).isSome = true

instance (kind : Kind) : Decidable kind.HasEntry := inferInstanceAs (Decidable (_ = true))

/-- The whole documentation, a namespace or a record. -/
def Node.ListsMembers (n : Node) : Prop := n.kind = .root ∨ n.kind.listsMembers = true

theorem Node.ListsMembers.listsMembers {n : Node} (h : n.ListsMembers) (hentry : n.kind.HasEntry) :
    n.kind.listsMembers = true := by
  refine h.resolve_left fun he => ?_
  rw [he] at hentry
  cases hentry

theorem Node.ListsMembers.isScope {n : Node} (h : n.ListsMembers) : n.kind.isScope = true := by
  rcases h with h | h
  · rw [h]
    rfl
  · revert h
    cases n.kind <;> decide

namespace Node.Arranged

variable {cs : List Node}

theorem pairwise_label (h : Arranged cs) :
    cs.Pairwise fun c d => ∀ label, c.label? = some label → d.label? ≠ some label :=
  (List.pairwise_filterMap.mp h.unique).imp fun hne label hc hd => hne label hc label hd rfl

theorem eq_of_label (h : Arranged cs) {c d : Node} (hc : c ∈ cs) (hd : d ∈ cs)
    {label : Kind × String} (hcl : c.label? = some label) (hdl : d.label? = some label) : c = d := by
  have hsymm : Std.Symm fun c d : Node => ∀ label, c.label? = some label → d.label? ≠ some label :=
    ⟨fun _ _ hne label hc hd => hne label hd hc⟩
  by_contra hne
  exact h.pairwise_label.forall hc hd hne label hcl hdl

/-- Children that have a name do not occur twice. -/
theorem nodup_filter (h : Arranged cs) {p : Node → Bool} (hp : ∀ c ∈ cs, p c = true → c.name ≠ none) :
    (cs.filter p).Nodup := by
  have hne : (cs.filter p).Pairwise fun c d => ∀ label, c.label? = some label → d.label? ≠ some label :=
    h.pairwise_label.filter p
  refine hne.imp_of_mem fun {c d} hc _ hlabel he => ?_
  obtain ⟨hmem, hc⟩ := List.mem_filter.mp hc
  obtain ⟨name, hname⟩ := Option.ne_none_iff_exists'.mp (hp c hmem hc)
  have hcl : c.label? = some (c.kind, name) := by rw [label?, hname, Option.map_some]
  exact hlabel _ hcl (he ▸ hcl)

end Node.Arranged

namespace Located

def chain (l : Located) : List Node := l.node :: l.above

/-- The names of a node and the nodes above it, from the outermost one inwards. -/
def names (l : Located) : List String :=
  (((l.chain.takeWhile (·.kind != .root)).filterMap (·.name)).filter (· != "")).reverse

theorem qualifiedName_eq (l : Located) : l.qualifiedName = "::".intercalate l.names := rfl

/-- A node that is found in the tree below scopes that list their members. -/
inductive Reached (tree : Node) : Located → Prop
  | root : Reached tree { node := tree }
  | child {l : Located} {n : Node} : Reached tree l → l.node.ListsMembers →
      n ∈ l.node.children → n.kind.HasEntry → Reached tree (l.child n)

variable {tree n : Node} {l l' : Located}

theorem Reached.everywhere {P : Node → Prop} (h : Reached tree l) (ht : tree.Everywhere P) :
    l.node.Everywhere P := by
  induction h with
  | root => exact ht
  | child _ _ hn _ ih => exact ih.child hn

theorem names_root (ht : tree.kind = .root) : names { node := tree } = [] := by
  simp [names, chain, ht]

theorem exists_name (hkept : l.node.WellKept) (hl : l.node.ListsMembers) (hn : n ∈ l.node.children)
    (hkind : n.kind.HasEntry) :
    ∃ name, n.name = some name ∧ (l.child n).names = l.names ++ [name] := by
  have harranged := hkept.arranged hl.isScope
  have hroot : n.kind ≠ .root := by
    intro he
    rw [he] at hkind
    cases hkind
  cases hname : n.name with
  | none =>
    rw [harranged.unnamed n hn hname] at hkind
    cases hkind
  | some name =>
    have hne : name ≠ "" := by
      rintro rfl
      have := harranged.recordable n hn "" hname
      cases this
    refine ⟨name, rfl, ?_⟩
    simp [names, chain, child, hroot, hname, hne]

theorem Reached.of_mem_names {N : String → Prop} (h : Reached tree l) (ht : tree.kind = .root)
    (hkept : tree.Everywhere WellKept) (hN : tree.Everywhere (Named N)) :
    ∀ name ∈ l.names, N name := by
  induction h with
  | root =>
    rw [names_root ht]
    exact nofun
  | child h hl hn hkind ih =>
    obtain ⟨name, hname, hnames⟩ := exists_name (h.everywhere hkept).self hl hn hkind
    intro other hother
    rw [hnames, List.mem_append, List.mem_singleton] at hother
    rcases hother with hother | rfl
    · exact ih other hother
    · exact ((h.everywhere hN).child hn).self other hname

/-! ### Names lead to one node -/

/-- What has a name in the tree is a child of a node with the names before that. -/
theorem Reached.exists_parent (ht : tree.kind = .root) (hkept : tree.Everywhere WellKept)
    (h : Reached tree l) {before : List String} {name : String} (hnames : l.names = before ++ [name]) :
    ∃ (p : Located) (n : Node), l = p.child n ∧ Reached tree p ∧ p.node.ListsMembers ∧
      n ∈ p.node.children ∧ n.kind.HasEntry ∧ n.name = some name ∧ p.names = before := by
  cases h with
  | root =>
    rw [names_root ht] at hnames
    exact absurd hnames.symm (List.append_ne_nil_of_right_ne_nil _ (List.cons_ne_nil _ _))
  | child h hlists hn hkind =>
    rename_i p n
    obtain ⟨own, hown, hchild⟩ := exists_name (h.everywhere hkept).self hlists hn hkind
    rw [hchild] at hnames
    obtain ⟨hup, hlast⟩ := List.append_inj' hnames rfl
    cases hlast
    exact ⟨p, n, rfl, h, hlists, hn, hkind, hown, hup⟩

/-- Two nodes are declared in two namespaces or records of different kinds, which have the same name and
the same nodes above them. -/
def InNamesakes (l l' : Located) : Prop :=
  ∃ (c d : Node) (above : List Node), c.kind.listsMembers = true ∧ d.kind.listsMembers = true ∧
    c.kind ≠ d.kind ∧ c.name = d.name ∧ c :: above <:+ l.above ∧ d :: above <:+ l'.above

theorem InNamesakes.child (h : InNamesakes l l') (c d : Node) :
    InNamesakes (l.child c) (l'.child d) := by
  obtain ⟨m, m', above, hm, hm', hkinds, hnames, hl, hl'⟩ := h
  exact ⟨m, m', above, hm, hm', hkinds, hnames, hl.trans (List.suffix_cons ..),
    hl'.trans (List.suffix_cons ..)⟩

/-- Children of one scope that have the same name and kind. -/
theorem eq_of_same_name {p c d : Node} (hkept : p.WellKept) (hp : p.ListsMembers)
    (hc : c ∈ p.children) (hd : d ∈ p.children) {name : String} (hcn : c.name = some name)
    (hdn : d.name = some name) (hkinds : d.kind = c.kind) : c = d := by
  have hlabel : c.label? = some (c.kind, name) := by rw [label?, hcn, Option.map_some]
  have hlabel' : d.label? = some (c.kind, name) := by rw [label?, hdn, Option.map_some, hkinds]
  exact (hkept.arranged hp.isScope).eq_of_label hc hd hlabel hlabel'

/-- What is declared in two scopes of the same names is declared in one scope, or in namesakes. -/
theorem Reached.child_of_scope_names (ht : tree.kind = .root) (hkept : tree.Everywhere WellKept)
    (h : Reached tree l) (h' : Reached tree l') (hl : l.node.ListsMembers) (hl' : l'.node.ListsMembers)
    (hnames : l'.names = l.names) (c d : Node) : l = l' ∨ InNamesakes (l.child c) (l'.child d) := by
  induction h generalizing l' c d with
  | root =>
    cases h' with
    | root => exact .inl rfl
    | child h' hlists hn hkind =>
      obtain ⟨name, -, hchild⟩ := exists_name (h'.everywhere hkept).self hlists hn hkind
      rw [names_root ht, hchild] at hnames
      exact absurd hnames (List.append_ne_nil_of_right_ne_nil _ (List.cons_ne_nil _ _))
  | child h hlists hn hkind ih =>
    rename_i p n
    obtain ⟨name, hname, hchild⟩ := exists_name (h.everywhere hkept).self hlists hn hkind
    obtain ⟨p', n', rfl, h', hlists', hn', hkind', hname', hup⟩ :=
      h'.exists_parent ht hkept (hnames.trans hchild)
    rcases ih h' hlists hlists' hup n n' with rfl | hapart
    · by_cases hkinds : n'.kind = n.kind
      · obtain rfl := eq_of_same_name (h.everywhere hkept).self hlists hn hn' hname hname' hkinds
        exact .inl rfl
      · exact .inr ⟨n, n', p.chain, hl.listsMembers hkind, hl'.listsMembers hkind', Ne.symm hkinds,
          hname.trans hname'.symm, List.suffix_rfl, List.suffix_rfl⟩
    · exact .inr (hapart.child c d)

/-- Two nodes of the same kind, with the same name and the same names around them. -/
theorem Reached.eq_or_inNamesakes (ht : tree.kind = .root) (hkept : tree.Everywhere WellKept)
    (h : Reached tree l) (h' : Reached tree l') (hentry : l.node.kind.HasEntry)
    (hkinds : l'.node.kind = l.node.kind) (hnames : l'.names = l.names) :
    l = l' ∨ InNamesakes l l' := by
  cases h with
  | root =>
    rw [ht] at hentry
    cases hentry
  | child h hlists hn hkind =>
    rename_i p n
    obtain ⟨name, hname, hchild⟩ := exists_name (h.everywhere hkept).self hlists hn hkind
    obtain ⟨p', n', rfl, h', hlists', hn', hkind', hname', hup⟩ :=
      h'.exists_parent ht hkept (hnames.trans hchild)
    rcases h.child_of_scope_names ht hkept h' hlists hlists' hup n n' with rfl | hapart
    · rw [eq_of_same_name (h.everywhere hkept).self hlists hn hn' hname hname' hkinds]
      exact .inl rfl
    · exact .inr hapart

end Located

end HeaderDocs
