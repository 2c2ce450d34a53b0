import HeaderDocs.Proofs.Scan.CommentedSources
import HeaderDocs.Proofs.Scan.Discretion
import HeaderDocs.Reference.Section

/-!
# Which declarations are published

A node is published if it has a description that does not hide it. Functions, records and
enumerations have one from their declaration on, so they are published without a comment, too. Names
for types and variables have none until a comment gives them one.

* `mem_publicNodesOf_iff`: the public nodes of a tree, one level at a time.
* `publicNodes_scanEach`: what is published of the sources that a tree was read from.
-/
namespace HeaderDocs

open HeaderDocs.Node HeaderDocs.Scan

/-! ## Public nodes -/

namespace Located

variable {kind : Kind} {above : List Node} {n : Node} {l : Located}

theorem mem_publicNodesIn_iff {ns : List Node} :
    l ∈ publicNodesIn kind above ns ↔
      ∃ n ∈ ns, (n.kind = .nameSpace ∧ n.isPublic = true) ∧ l ∈ publicNodesOf kind above n := by
  induction ns with
  | nil => simp [publicNodesIn]
  | cons n ns ih =>
    by_cases h : n.kind = .nameSpace ∧ n.isPublic = true <;> simp [publicNodesIn, ih, h]

theorem mem_publicNodesOf_iff :
    l ∈ publicNodesOf kind above n ↔
      (∃ c ∈ n.children, (c.kind = kind ∧ c.isPublic = true) ∧
        { node := c, above := n :: above } = l) ∨
      ∃ c ∈ n.children, (c.kind = .nameSpace ∧ c.isPublic = true) ∧
        l ∈ publicNodesOf kind (n :: above) c := by
  cases n
  simp [publicNodesOf, mem_publicNodesIn_iff, publicChildren, isNamed, and_assoc]

theorem of_mem_publicNodesOf {P : Node → Prop} (hn : n.Everywhere P)
    (hl : l ∈ publicNodesOf kind above n) :
    l.node.kind = kind ∧ l.node.isPublic = true ∧ P l.node := by
  induction n using childInduction generalizing above with
  | h n ih =>
    rcases mem_publicNodesOf_iff.mp hl with ⟨c, hc, ⟨hkind, hpublic⟩, rfl⟩ | ⟨c, hc, -, hl⟩
    · exact ⟨hkind, hpublic, (hn.child hc).self⟩
    · exact ih c hc (hn.child hc) hl

end Located

/-! ## Descriptions -/

namespace Node

variable {Q : String → Prop} {n : Node}

theorem isPublic_iff :
    n.isPublic = true ↔
      ∃ d, n.child? .description = some d ∧ Comment.isPrivate d.text = false := by
  unfold isPublic
  cases n.child? .description <;> simp

/-- The description of a public node comes from a comment, or is empty. -/
theorem Commented.explained (h : n.Commented Q) (hp : n.isPublic = true) :
    Explained Q n.kind n.descriptionText := by
  obtain ⟨d, hd, -⟩ := isPublic_iff.mp hp
  have hkind : d.kind = .description := by simpa [isKind] using List.find?_some hd
  rw [descriptionText, hd]
  exact h d (List.mem_of_find?_eq_some hd) hkind

theorem isPublic_of_descriptionText (h : n.descriptionText ≠ "") (hp : n.isPrivate = false) :
    n.isPublic = true := by
  unfold isPrivate at hp
  unfold descriptionText at h hp
  cases hd : n.child? .description with
  | none => simp [hd] at h
  | some d =>
    rw [hd] at hp
    exact isPublic_iff.mpr ⟨d, hd, hp⟩

end Node

/-! ## What is published -/

/-- What a section lists has a description that comes from the comments of the sources, or else is
not described: names for types and variables are always described. And all that has a description at
the top of the tree is listed. -/
theorem publicNodes_scanEach (sources : List String) (kind : Kind)
    (hkind : kind ∈ sections.map (·.2.1)) :
    (∀ l ∈ Located.publicNodes (scanEach sources .empty) kind,
      (∃ raw, CommentOf sources raw ∧ l.node.descriptionText = (Comment.normalize raw).text) ∨
        (kind ≠ .typeAlias ∧ kind ≠ .var) ∧ l.node.descriptionText = "") ∧
      ∀ n ∈ (scanEach sources .empty).children, n.kind = kind → n.descriptionText ≠ "" →
        { node := n, above := [scanEach sources .empty] } ∈
          Located.publicNodes (scanEach sources .empty) kind := by
  have hcommented := scanEach_commented sources
  refine ⟨fun l hl => ?_, fun n hn hk htext => ?_⟩
  · obtain ⟨hlkind, hpublic, hself⟩ := Located.of_mem_publicNodesOf hcommented hl
    rcases hself.explained hpublic with ⟨hkind, hempty⟩ | hcomment
    · rw [hlkind] at hkind
      refine .inr ⟨⟨?_, ?_⟩, hempty⟩ <;> rintro rfl <;> cases hkind
    · exact .inl hcomment
  · have hresult : n.kind ≠ .result := by
      rw [hk]
      rintro rfl
      exact absurd hkind (by decide)
    have hprivate := ((isPrivate_scanEach sources).child hn).self.resolve_left hresult
    exact Located.mem_publicNodesOf_iff.mpr
      (.inl ⟨n, hn, ⟨hk, isPublic_of_descriptionText htext hprivate⟩, rfl⟩)

/-- A variable with a comment. -/
theorem publicNodes_scanEach_variable :
    ∃ l ∈ Located.publicNodes (scanEach ["/* Count. */ int n;"] .empty) .var,
      (l.node.name, l.node.descriptionText) = (some "n", "Count.") ∧
        ∃ raw, CommentOf ["/* Count. */ int n;"] raw ∧ "Count." = (Comment.normalize raw).text := by
  have hlisted : (Located.publicNodes (scanEach ["/* Count. */ int n;"] .empty) .var).map
      (fun l => (l.node.name, l.node.descriptionText)) = [(some "n", "Count.")] := by
    decide +kernel
  obtain ⟨l, _, he, hl, -⟩ := List.map_eq_cons_iff.mp hlisted
  have hmem : l ∈ Located.publicNodes (scanEach ["/* Count. */ int n;"] .empty) .var :=
    he ▸ List.mem_cons_self ..
  refine ⟨l, hmem, hl, ?_⟩
  rcases (publicNodes_scanEach ["/* Count. */ int n;"] .var (by decide)).1 l hmem with
    ⟨raw, hraw, htext⟩ | ⟨⟨-, hvar⟩, -⟩
  · exact ⟨raw, hraw, (congrArg Prod.snd hl).symm.trans htext⟩
  · exact absurd rfl hvar

/-- A function without a comment is published, and so is a name for a type whose comment says nothing
but which way an argument is passed. -/
theorem publicNodes_undescribed :
    (¬∀ l ∈ Located.publicNodes (scanEach ["int f(void);\n/* I - */\ntypedef int t;"] .empty)
        .function, l.node.descriptionText ≠ "") ∧
      ¬∀ l ∈ Located.publicNodes (scanEach ["int f(void);\n/* I - */\ntypedef int t;"] .empty)
        .typeAlias, l.node.descriptionText ≠ "" := by
  have hempty : ∀ kind ∈ [Kind.function, .typeAlias],
      (Located.publicNodes (scanEach ["int f(void);\n/* I - */\ntypedef int t;"] .empty) kind).any
        (·.node.descriptionText == "") = true := by
    decide +kernel
  have hsome : ∀ kind ∈ [Kind.function, .typeAlias],
      ¬∀ l ∈ Located.publicNodes (scanEach ["int f(void);\n/* I - */\ntypedef int t;"] .empty) kind,
        l.node.descriptionText ≠ "" := by
    intro kind hk hall
    obtain ⟨l, hl, htext⟩ := List.any_eq_true.mp (hempty kind hk)
    exact hall l hl (eq_of_beq htext)
  exact ⟨hsome .function (by decide), hsome .typeAlias (by decide)⟩

end HeaderDocs
