import HeaderDocs.Reference.Section
import Mathlib.Data.List.Infix

/-!
# Anchors of entries

Every entry begins with its anchor, and the text of a section holds the entries of its nodes, which
hold those of the members that are documented with them.

* `hasAnchor_sectionText`, `hasAnchor_member`.
-/
namespace HeaderDocs

/-- The markup that links to an anchor lead to. -/
def anchorMark (anchor : String) : String := "<a id=\"" ++ anchor ++ "\"></a>"

/-- A link to the anchor leads into the text. -/
def HasAnchor (text anchor : String) : Prop := (anchorMark anchor).toList <:+: text.toList

instance (text anchor : String) : Decidable (HasAnchor text anchor) :=
  inferInstanceAs (Decidable (_ <:+: _))

variable {anchor : String}

/-! ## Parts of a text -/

theorem infix_intercalate {sep piece : String} {pieces : List String} (h : piece ∈ pieces) :
    piece.toList <:+: (String.intercalate sep pieces).toList := by
  rw [String.toList_intercalate]
  induction pieces with
  | nil => cases h
  | cons first rest ih =>
    cases rest with
    | nil =>
      obtain rfl := List.mem_singleton.mp h
      simp
    | cons second rest =>
      have hcons : sep.toList.intercalate ((first :: second :: rest).map String.toList) =
          first.toList ++ (sep.toList ++ sep.toList.intercalate ((second :: rest).map String.toList)) := by
        simp [List.intercalate]
      rw [hcons]
      rcases List.mem_cons.mp h with rfl | htail
      · exact (List.prefix_append _ _).isInfix
      · exact (ih htail).trans ((List.suffix_append _ _).isInfix.trans
          (List.suffix_append _ _).isInfix)

theorem HasAnchor.intercalate {sep piece : String} {pieces : List String}
    (h : HasAnchor piece anchor) (hmem : piece ∈ pieces) :
    HasAnchor (String.intercalate sep pieces) anchor :=
  List.IsInfix.trans h (infix_intercalate hmem)

theorem HasAnchor.append {text : String} (h : HasAnchor text anchor) (before : String) :
    HasAnchor (before ++ text) anchor := by
  unfold HasAnchor at h ⊢
  rw [String.toList_append]
  exact h.trans (List.suffix_append _ _).isInfix

/-! ## Entries -/

variable {style : EntryStyle}

theorem hasAnchor_entry (style : EntryStyle) (l : Located) : HasAnchor (l.entry style) l.anchor := by
  obtain ⟨⟨k, attrs, content, spaced, children⟩, above⟩ := l
  unfold Located.entry Node.entry
  exact HasAnchor.intercalate List.infix_rfl (List.mem_append_left _ (List.mem_cons_self ..))

theorem entry_mem_memberEntries {above : List Node} {kind : Kind} {n : Node} {ns : List Node}
    (hmem : n ∈ ns) (hkind : n.kind = kind) (hpublic : n.isPublic = true)
    (hscope : n.scope ≠ some "private") :
    n.entry style above ∈ Node.memberEntries style above kind ns := by
  induction ns with
  | nil => cases hmem
  | cons first rest ih =>
    unfold Node.memberEntries
    rcases List.mem_cons.mp hmem with rfl | hrest
    · simp [hkind, hpublic, hscope]
    · exact List.mem_append_right _ (ih hrest)

/-- Where members are documented, the entry of a record or a namespace has their anchors. -/
theorem hasAnchor_member {l : Located} {n : Node} (hmembers : style.members = true)
    (hlists : l.node.kind.listsMembers = true) (hmem : n ∈ l.node.children)
    (hkind : n.kind ∈ memberKinds) (hpublic : n.isPublic = true)
    (hscope : n.scope ≠ some "private") :
    HasAnchor (l.entry style) (l.child n).anchor := by
  obtain ⟨⟨k, attrs, content, spaced, children⟩, above⟩ := l
  unfold Located.entry Node.entry
  let inner := { style with headingLevel := style.headingLevel + 1, members := true }
  refine (hasAnchor_entry inner (Located.child _ n)).intercalate (List.mem_append_right _ ?_)
  rw [if_pos (Bool.and_eq_true_iff.mpr ⟨hmembers, hlists⟩)]
  exact List.mem_flatMap.mpr ⟨n.kind, hkind, entry_mem_memberEntries hmem rfl hpublic hscope⟩

theorem hasAnchor_sectionText {tree : Node} {kind : Kind} {l : Located} (title : String)
    (hmem : l ∈ Located.publicNodes tree kind) (h : HasAnchor (l.entry style) anchor) :
    HasAnchor (sectionText tree kind style title) anchor := by
  have hentry : l.entry style ∈ (Located.publicNodes tree kind).map (·.entry style) :=
    List.mem_map_of_mem hmem
  exact (h.intercalate hentry).intercalate (List.mem_append_right _ (List.mem_singleton_self _))

end HeaderDocs
