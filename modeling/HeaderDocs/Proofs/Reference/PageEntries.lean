import HeaderDocs.Proofs.Reference.Anchors
import HeaderDocs.Proofs.Reference.Reached
import HeaderDocs.Proofs.Text.Joined

/-!
# The entries on a page

The entry of a node is followed by those of its members, each with a heading one level further down, and
these by those of their own members. `pageEntries` are the nodes that are shown in this way, in the
order in which they are shown, and a section is made of their lines and nothing else.

* `entry_eq`: the entry of a node, as the lines of the nodes that are shown with it.
* `sectionText_eq`: a section, as the lines of the nodes that are shown in it.
* `reached_of_mem_entriesOf`, `pairwise_entriesOf`: the nodes of a section, each of which is shown once.
-/
namespace HeaderDocs

open HeaderDocs.Node HeaderDocs.Text

/-! ## Entries -/

/-- A node that is shown, and the style of its entry. -/
structure PageEntry where
  style : EntryStyle
  located : Located

namespace PageEntry

def lines (e : PageEntry) : List String := e.located.entryLines e.style

def anchor (e : PageEntry) : String := e.located.anchor

theorem head?_lines (e : PageEntry) : e.lines.head? = some (anchorMark e.anchor) := rfl

theorem lines_ne_nil (e : PageEntry) : e.lines ≠ [] := List.cons_ne_nil _ _

end PageEntry

def EntryStyle.inner (style : EntryStyle) : EntryStyle :=
  { style with headingLevel := style.headingLevel + 1, members := true }

namespace Node

/-- Whether a node is shown among the members of a kind. -/
def isShownAs (kind : Kind) (n : Node) : Bool :=
  n.kind == kind && n.isPublic && n.scope != some "private"

/-- The members that are shown with a node, in their order. -/
def shownMembers (n : Node) : List Node :=
  memberKinds.flatMap fun kind => n.children.filter (isShownAs kind)

mutual

/-- The node below others, and what is shown with it. -/
def pageEntries (style : EntryStyle) (above : List Node) : Node → List PageEntry
  | ⟨k, attrs, content, spaced, children⟩ =>
    let node : Node := ⟨k, attrs, content, spaced, children⟩
    ⟨style, { node, above }⟩ ::
      if style.members && k.listsMembers then
        memberKinds.flatMap fun kind => memberPageEntries style.inner (node :: above) kind children
      else []

/-- The members of a kind that are shown, and what is shown with them. -/
def memberPageEntries (style : EntryStyle) (above : List Node) (kind : Kind) :
    List Node → List PageEntry
  | [] => []
  | n :: ns =>
    (if n.isShownAs kind then n.pageEntries style above else []) ++
      memberPageEntries style above kind ns

end

variable {style : EntryStyle} {above : List Node} {kind : Kind} {n : Node}

theorem memberPageEntries_eq (ns : List Node) :
    memberPageEntries style above kind ns =
      (ns.filter (isShownAs kind)).flatMap (·.pageEntries style above) := by
  induction ns with
  | nil => rfl
  | cons n ns ih =>
    rw [memberPageEntries, ih, List.filter_cons]
    split <;> rfl

theorem pageEntries_eq (style : EntryStyle) (above : List Node) (n : Node) :
    n.pageEntries style above =
      ⟨style, { node := n, above }⟩ ::
        if style.members && n.kind.listsMembers then
          n.shownMembers.flatMap (·.pageEntries style.inner (n :: above))
        else [] := by
  obtain ⟨k, attrs, content, spaced, children⟩ := n
  simp only [pageEntries, memberPageEntries_eq, shownMembers, List.flatMap_assoc]

theorem memberEntries_eq (ns : List Node) :
    memberEntries style above kind ns = (ns.filter (isShownAs kind)).map (·.entry style above) := by
  induction ns with
  | nil => rfl
  | cons n ns ih =>
    rw [memberEntries, ih, List.filter_cons, isShownAs]
    split <;> rfl

theorem kind_of_isShownAs {c : Node} (h : c.isShownAs kind = true) : c.kind = kind := by
  simp only [isShownAs, Bool.and_eq_true, beq_iff_eq] at h
  exact h.1.1

theorem mem_shownMembers_iff {c : Node} :
    c ∈ n.shownMembers ↔ c ∈ n.children ∧ c.kind ∈ memberKinds ∧ c.isShownAs c.kind = true := by
  simp only [shownMembers, List.mem_flatMap, List.mem_filter]
  constructor
  · rintro ⟨kind, hkind, hc, hshown⟩
    obtain rfl := kind_of_isShownAs hshown
    exact ⟨hc, hkind, hshown⟩
  · rintro ⟨hc, hkind, hshown⟩
    exact ⟨c.kind, hkind, hc, hshown⟩

theorem entry_eq_members (style : EntryStyle) (above : List Node) (n : Node) :
    n.entry style above =
      "\n".intercalate (Located.entryLines style { node := n, above } ++
        if style.members && n.kind.listsMembers then
          n.shownMembers.map (·.entry style.inner (n :: above))
        else []) := by
  obtain ⟨k, attrs, content, spaced, children⟩ := n
  simp only [entry, memberEntries_eq, shownMembers, List.map_flatMap]
  rfl

/-- The entry of a node is made of the lines of the nodes that are shown with it. -/
theorem entry_eq (style : EntryStyle) (above : List Node) (n : Node) :
    n.entry style above = "\n".intercalate ((n.pageEntries style above).flatMap PageEntry.lines) := by
  induction n using childInduction generalizing style above with
  | h n ih =>
    rw [entry_eq_members, pageEntries_eq, List.flatMap_cons]
    split
    · have hmembers : n.shownMembers.map (·.entry style.inner (n :: above)) =
          (n.shownMembers.map fun c =>
            (c.pageEntries style.inner (n :: above)).flatMap PageEntry.lines).map "\n".intercalate := by
        rw [List.map_map]
        exact List.map_congr_left fun c hc => ih c (mem_shownMembers_iff.mp hc).1 _ _
      rw [hmembers, intercalate_append_flatten, ← List.flatMap_def, List.flatMap_assoc]
      · rfl
      · intro lines hlines
        obtain ⟨c, -, rfl⟩ := List.mem_map.mp hlines
        rw [pageEntries_eq, List.flatMap_cons]
        exact List.append_ne_nil_of_left_ne_nil (PageEntry.lines_ne_nil _) _
    · rfl

end Node

/-! ## Sections -/

/-- The entries of a section, in groups: a public node of the kind with what is shown with it. -/
def sectionGroups (tree : Node) (kind : Kind) (style : EntryStyle) : List (List PageEntry) :=
  (Located.publicNodes tree kind).map fun l => l.node.pageEntries style l.above

def sectionEntries (tree : Node) (kind : Kind) (style : EntryStyle) : List PageEntry :=
  (sectionGroups tree kind style).flatten

/-- The lines under the heading of a section: between the groups there is a rule. -/
def groupLines (groups : List (List PageEntry)) : List String :=
  if groups.isEmpty then [""]
  else ["---", ""].intercalate (groups.map (·.flatMap PageEntry.lines))

def sectionHead (style : EntryStyle) (title : String) : List String :=
  if title.isEmpty then [] else [heading title (max 1 (style.headingLevel - 1)), ""]

theorem intercalate_groups_ne_nil {sep : List String} {groups : List (List String)} (hne : groups ≠ [])
    (h : ∀ g ∈ groups, g ≠ []) : sep.intercalate groups ≠ [] := by
  obtain ⟨group, groups, rfl⟩ := List.exists_cons_of_ne_nil hne
  have hgroup := h group (List.mem_cons_self ..)
  by_cases hrest : groups = []
  · rwa [hrest, List.intercalate_singleton]
  · rw [List.intercalate_cons_of_ne_nil hrest, List.append_assoc]
    exact List.append_ne_nil_of_left_ne_nil hgroup _

/-- Groups of lines with a rule between each two of them. -/
theorem intercalate_rule {groups : List (List String)} (h : ∀ g ∈ groups, g ≠ []) :
    "\n---\n\n".intercalate (groups.map "\n".intercalate) =
      "\n".intercalate (["---", ""].intercalate groups) := by
  induction groups with
  | nil => rfl
  | cons group groups ih =>
    cases groups with
    | nil => simp
    | cons next rest =>
      have hrest : ∀ g ∈ next :: rest, g ≠ [] := fun g hg => h g (List.mem_cons_of_mem _ hg)
      have hlines : ["---", ""].intercalate (next :: rest) ≠ [] :=
        intercalate_groups_ne_nil (List.cons_ne_nil _ _) hrest
      rw [List.map_cons, List.map_cons, String.intercalate_cons_cons, ← List.map_cons, ih hrest,
        List.intercalate_cons_cons, List.append_assoc,
        String.intercalate_append_of_ne_nil (h group (List.mem_cons_self ..))
          (List.append_ne_nil_of_left_ne_nil (List.cons_ne_nil _ _) _),
        String.intercalate_append_of_ne_nil (List.cons_ne_nil _ _) hlines]
      have hrule : "\n---\n\n" = "\n" ++ ("\n".intercalate ["---", ""] ++ "\n") := by decide
      rw [hrule]
      simp only [String.append_assoc]

/-- A section is made of its heading and the lines of the nodes that are shown in it. -/
theorem sectionText_eq (tree : Node) (kind : Kind) (style : EntryStyle) (title : String) :
    sectionText tree kind style title =
      "\n".intercalate (sectionHead style title ++ groupLines (sectionGroups tree kind style)) := by
  have hentries : (Located.publicNodes tree kind).map (·.entry style) =
      ((sectionGroups tree kind style).map (·.flatMap PageEntry.lines)).map "\n".intercalate := by
    rw [sectionGroups, List.map_map, List.map_map]
    exact List.map_congr_left fun l _ => Node.entry_eq style l.above l.node
  have hne : ∀ g ∈ (sectionGroups tree kind style).map (·.flatMap PageEntry.lines), g ≠ [] := by
    intro g hg
    obtain ⟨entries, hentries, rfl⟩ := List.mem_map.mp hg
    obtain ⟨l, -, rfl⟩ := List.mem_map.mp hentries
    rw [Node.pageEntries_eq, List.flatMap_cons]
    exact List.append_ne_nil_of_left_ne_nil (PageEntry.lines_ne_nil _) _
  change "\n".intercalate (sectionHead style title ++ ["\n---\n\n".intercalate _]) = _
  rw [hentries, intercalate_rule hne, groupLines]
  cases hgroups : sectionGroups tree kind style with
  | nil => rfl
  | cons group groups =>
    rw [hgroups] at hne
    have hlines : ∀ g ∈ [["---", ""].intercalate ((group :: groups).map (·.flatMap PageEntry.lines))],
        g ≠ [] := by
      intro g hg
      rw [List.mem_singleton.mp hg]
      exact intercalate_groups_ne_nil (by simp) hne
    simpa using intercalate_append_flatten "\n" (sectionHead style title) hlines

/-! ## Entries of different nodes -/

variable {tree n : Node} {style : EntryStyle} {above : List Node} {kind : Kind} {e : PageEntry}

/-- What is below one child of a node is not below another one. -/
theorem Located.ne_of_suffix {l l' : Located} {c d : Node} (hne : c ≠ d)
    (hc : c :: above <:+ l.chain) (hd : d :: above <:+ l'.chain) : l ≠ l' := by
  rintro rfl
  have hsuffix := List.suffix_of_suffix_length_le hc hd (by simp)
  exact hne (List.cons.inj (hsuffix.eq_of_length (by simp))).1

namespace Node

theorem hasEntry_of_mem_memberKinds {kind : Kind} (h : kind ∈ memberKinds) : kind.HasEntry := by
  revert h
  cases kind <;> decide

/-- An entry is that of the node, or belongs to a member that is shown with it. -/
theorem mem_pageEntries_iff :
    e ∈ n.pageEntries style above ↔ e = ⟨style, { node := n, above }⟩ ∨
      (style.members = true ∧ n.kind.listsMembers = true) ∧
        ∃ c ∈ n.shownMembers, e ∈ c.pageEntries style.inner (n :: above) := by
  rw [pageEntries_eq, List.mem_cons]
  split
  · rename_i h
    simp [Bool.and_eq_true_iff.mp h]
  · rename_i h
    rw [Bool.and_eq_true] at h
    simp [h]

theorem suffix_of_mem_pageEntries (he : e ∈ n.pageEntries style above) :
    n :: above <:+ e.located.chain := by
  induction n using childInduction generalizing style above with
  | h n ih =>
    rcases mem_pageEntries_iff.mp he with rfl | ⟨-, c, hc, he⟩
    · exact List.suffix_rfl
    · have hchild := ih c (mem_shownMembers_iff.mp hc).1 he
      exact (List.suffix_cons c _).trans hchild

/-- The nodes of the entries are found in the tree. -/
theorem reached_of_mem_pageEntries (h : Located.Reached tree { node := n, above })
    (hn : n.kind.HasEntry) (he : e ∈ n.pageEntries style above) :
    Located.Reached tree e.located ∧ e.located.node.kind.HasEntry := by
  induction n using childInduction generalizing style above with
  | h n ih =>
    rcases mem_pageEntries_iff.mp he with rfl | ⟨⟨-, hlists⟩, c, hc, he⟩
    · exact ⟨h, hn⟩
    · obtain ⟨hmem, hkind, -⟩ := mem_shownMembers_iff.mp hc
      have hentry := hasEntry_of_mem_memberKinds hkind
      exact ih c hmem (h.child (.inr hlists) hmem hentry) hentry he

theorem nodup_shownMembers (hkept : n.WellKept) (hs : n.kind.isScope = true) :
    n.shownMembers.Nodup := by
  have harranged := hkept.arranged hs
  have hkinds : memberKinds.Nodup := by decide
  refine List.nodup_flatMap.mpr ⟨fun kind hkind => ?_, hkinds.imp fun hne => ?_⟩
  · refine harranged.nodup_filter fun c hc hshown hname => ?_
    have he := (kind_of_isShownAs hshown).symm.trans (harranged.unnamed c hc hname)
    rw [he] at hkind
    revert hkind
    decide
  · intro c hc hc'
    have hkind := kind_of_isShownAs (List.mem_filter.mp hc).2
    exact hne (hkind.symm.trans (kind_of_isShownAs (List.mem_filter.mp hc').2))

/-- No node is shown twice in an entry. -/
theorem pairwise_pageEntries (hkept : n.Everywhere WellKept) :
    (n.pageEntries style above).Pairwise fun e f => e.located ≠ f.located := by
  induction n using childInduction generalizing style above with
  | h n ih =>
    rw [pageEntries_eq]
    split
    · rename_i h
      have hlists := (Bool.and_eq_true_iff.mp h).2
      refine List.pairwise_cons.mpr ⟨fun e he => ?_, ?_⟩
      · obtain ⟨c, -, he⟩ := List.mem_flatMap.mp he
        intro heq
        have hlength := (suffix_of_mem_pageEntries he).length_le
        rw [← heq] at hlength
        simp only [Located.chain, List.length_cons] at hlength
        omega
      · refine List.pairwise_flatMap.mpr ⟨fun c hc => ?_, ?_⟩
        · exact ih c (mem_shownMembers_iff.mp hc).1 (hkept.child (mem_shownMembers_iff.mp hc).1)
        · refine (nodup_shownMembers hkept.self (ListsMembers.isScope (.inr hlists))).imp ?_
          intro c d hne e he f hf
          exact Located.ne_of_suffix hne (suffix_of_mem_pageEntries he) (suffix_of_mem_pageEntries hf)
    · exact List.pairwise_singleton _ _

end Node

namespace Located

theorem publicNodesIn_eq (ns : List Node) :
    publicNodesIn kind above ns =
      (ns.filter fun c => c.isNamed .nameSpace none && c.isPublic).flatMap
        (publicNodesOf kind above) := by
  induction ns with
  | nil => rfl
  | cons n ns ih =>
    rw [publicNodesIn, ih, List.filter_cons]
    have he : (n.isNamed .nameSpace none && n.isPublic) = (n.kind == .nameSpace && n.isPublic) := by
      simp [isNamed]
    rw [he]
    split <;> rfl

theorem publicNodesOf_eq (kind : Kind) (above : List Node) (n : Node) :
    publicNodesOf kind above n =
      (n.publicChildren kind none).map (fun c => { node := c, above := n :: above }) ++
        (n.publicChildren .nameSpace none).flatMap (publicNodesOf kind (n :: above)) := by
  obtain ⟨k, attrs, content, spaced, children⟩ := n
  rw [publicNodesOf, publicNodesIn_eq]
  rfl

end Located

theorem Node.mem_publicChildren_iff {c : Node} :
    c ∈ n.publicChildren kind none ↔ c ∈ n.children ∧ c.kind = kind ∧ c.isPublic = true := by
  simp [publicChildren, isNamed]

theorem Node.nodup_publicChildren (hkept : n.WellKept) (hs : n.kind.isScope = true)
    (hkind : kind.HasEntry) : (n.publicChildren kind none).Nodup := by
  have harranged := hkept.arranged hs
  refine harranged.nodup_filter fun c hc hshown hname => ?_
  have hk := (mem_publicChildren_iff.mp (List.mem_filter.mpr ⟨hc, hshown⟩)).2.1
  rw [← hk, harranged.unnamed c hc hname] at hkind
  cases hkind

/-- The entries of the public nodes of a kind. -/
def Located.entriesOf (style : EntryStyle) (kind : Kind) (above : List Node) (n : Node) : List PageEntry :=
  (Located.publicNodesOf kind above n).flatMap fun l => l.node.pageEntries style l.above

theorem sectionEntries_eq (tree : Node) (kind : Kind) (style : EntryStyle) :
    sectionEntries tree kind style = Located.entriesOf style kind [] tree :=
  List.flatMap_def.symm

theorem entriesOf_eq (style : EntryStyle) (kind : Kind) (above : List Node) (n : Node) :
    Located.entriesOf style kind above n =
      (n.publicChildren kind none).flatMap (·.pageEntries style (n :: above)) ++
        (n.publicChildren .nameSpace none).flatMap (Located.entriesOf style kind (n :: above)) := by
  rw [Located.entriesOf, Located.publicNodesOf_eq, List.flatMap_append, List.flatMap_map,
    List.flatMap_assoc]
  rfl

theorem mem_entriesOf_iff :
    e ∈ Located.entriesOf style kind above n ↔
      (∃ c ∈ n.publicChildren kind none, e ∈ c.pageEntries style (n :: above)) ∨
        ∃ c ∈ n.publicChildren .nameSpace none, e ∈ Located.entriesOf style kind (n :: above) c := by
  rw [entriesOf_eq, List.mem_append, List.mem_flatMap, List.mem_flatMap]

theorem suffix_of_mem_entriesOf (he : e ∈ Located.entriesOf style kind above n) :
    n :: above <:+ e.located.chain := by
  induction n using childInduction generalizing above with
  | h n ih =>
    rcases mem_entriesOf_iff.mp he with ⟨c, hc, he⟩ | ⟨c, hc, he⟩
    · exact (List.suffix_cons c _).trans (suffix_of_mem_pageEntries he)
    · exact (List.suffix_cons c _).trans (ih c (mem_publicChildren_iff.mp hc).1 he)

theorem reached_of_mem_entriesOf (h : Located.Reached tree { node := n, above })
    (hn : n.ListsMembers) (hkind : kind.HasEntry) (he : e ∈ Located.entriesOf style kind above n) :
    Located.Reached tree e.located ∧ e.located.node.kind.HasEntry := by
  induction n using childInduction generalizing above with
  | h n ih =>
    rcases mem_entriesOf_iff.mp he with ⟨c, hc, he⟩ | ⟨c, hc, he⟩ <;>
      obtain ⟨hmem, hk, -⟩ := mem_publicChildren_iff.mp hc
    · have hentry : c.kind.HasEntry := hk ▸ hkind
      exact reached_of_mem_pageEntries (h.child hn hmem hentry) hentry he
    · have hnamespace : c.kind.HasEntry ∧ c.kind.listsMembers = true := by
        rw [hk]
        decide
      exact ih c hmem (h.child hn hmem hnamespace.1) (.inr hnamespace.2) he

/-- No node is shown twice in a section, unless it is one of namespaces. -/
theorem pairwise_entriesOf (hkept : n.Everywhere WellKept) (hn : n.ListsMembers)
    (hkind : kind.HasEntry) (hne : kind ≠ .nameSpace) :
    (Located.entriesOf style kind above n).Pairwise fun e f => e.located ≠ f.located := by
  induction n using childInduction generalizing above with
  | h n ih =>
    have hchild := fun {kind : Kind} {c : Node} (hc : c ∈ n.publicChildren kind none) =>
      mem_publicChildren_iff.mp hc
    rw [entriesOf_eq]
    refine List.pairwise_append.mpr ⟨?_, ?_, fun e he f hf => ?_⟩
    · refine List.pairwise_flatMap.mpr ⟨fun c hc => ?_, ?_⟩
      · exact pairwise_pageEntries (hkept.child (hchild hc).1)
      · refine (nodup_publicChildren hkept.self hn.isScope hkind).imp fun hne e he f hf => ?_
        exact Located.ne_of_suffix hne (suffix_of_mem_pageEntries he) (suffix_of_mem_pageEntries hf)
    · refine List.pairwise_flatMap.mpr ⟨fun c hc => ?_, ?_⟩
      · have hlists : c.kind.listsMembers = true := by
          rw [(hchild hc).2.1]
          decide
        exact ih c (hchild hc).1 (hkept.child (hchild hc).1) (.inr hlists)
      · refine (nodup_publicChildren hkept.self hn.isScope (by decide)).imp fun hne e he f hf => ?_
        exact Located.ne_of_suffix hne (suffix_of_mem_entriesOf he) (suffix_of_mem_entriesOf hf)
    · obtain ⟨c, hc, he⟩ := List.mem_flatMap.mp he
      obtain ⟨d, hd, hf⟩ := List.mem_flatMap.mp hf
      refine Located.ne_of_suffix ?_ (suffix_of_mem_pageEntries he) (suffix_of_mem_entriesOf hf)
      rintro rfl
      exact hne ((hchild hc).2.1.symm.trans (hchild hd).2.1)

end HeaderDocs
