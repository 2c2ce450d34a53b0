import HeaderDocs.Proofs.Reference.PageEntries
import HeaderDocs.Proofs.Scan.NamedSources
import HeaderDocs.Proofs.Text.Words

/-!
# Anchors as identifiers

The anchor of a node is made of its kind, its name and the names of the scopes around it, as they are
read, with dots between them. A name can hold white space or double quotes only where `IsDeclared` says
so, and two nodes share an anchor only if the marks between the names are in the names as well, or if
the scopes around them cannot be told apart.

* `Located.made_anchor`: the characters of an anchor.
* `Located.same_of_anchor`, `Reached.alike`: two nodes with the same anchor.
* `sectionText_ids`: the anchors in a section of scanned sources.
* `not_usableIds_sectionIds`: anchors with white space, and anchors that are used twice.
-/
namespace HeaderDocs

open HeaderDocs.Node HeaderDocs.Text

namespace Located

variable {tree : Node} {l l' : Located}

/-! ## Characters -/

theorem toList_anchor (l : Located) :
    l.anchor.toList = (anchorWord l.node.kind).toList ++
      '-' :: replace [':', ':'] ['.'] l.qualifiedName.toList := by
  change (anchorWord l.node.kind ++ "-" ++ onChars _ l.qualifiedName).toList = _
  rw [String.toList_append, String.toList_append, toList_onChars, List.append_assoc]
  rfl

theorem anchor_ne_empty (l : Located) : l.anchor ≠ "" := by
  intro he
  have hlist := congrArg String.toList he
  rw [toList_anchor] at hlist
  simp at hlist

/-- An anchor is made of a word for the kind, of marks and of the names. -/
theorem made_anchor (h : ∀ name ∈ l.names, Made IsIdChar name) : Made IsIdChar l.anchor := by
  have hword : Made IsIdChar (anchorWord l.node.kind) := by
    cases l.node.kind <;> exact made_idChars (by decide)
  have hcolons : Made IsIdChar "::" := made_idChars (by decide)
  intro c hc
  rw [toList_anchor, List.mem_append, List.mem_cons] at hc
  rcases hc with hc | rfl | hc
  · exact hword c hc
  · decide
  · rcases mem_replace hc with hc | hc
    · rcases mem_intercalate hc with hc | ⟨name, hname, hc⟩
      · exact hcolons c hc
      · exact h name hname c hc
    · rw [List.mem_singleton.mp hc]
      decide

/-! ## Two nodes with the same anchor -/

theorem anchorWord_injective {kind kind' : Kind} (h : kind.HasEntry) (h' : kind'.HasEntry)
    (he : anchorWord kind = anchorWord kind') : kind = kind' := by
  revert h h' he
  cases kind <;> cases kind' <;> decide

theorem not_mem_anchorWord (kind : Kind) : '-' ∉ (anchorWord kind).toList := by
  cases kind <;> decide

/-- Where no name has a dot in it, an anchor is that of one kind and one qualified name. -/
theorem same_of_anchor (hkind : l.node.kind.HasEntry) (hkind' : l'.node.kind.HasEntry)
    (hdots : ∀ name ∈ l.names, '.' ∉ name.toList) (hdots' : ∀ name ∈ l'.names, '.' ∉ name.toList)
    (he : l.anchor = l'.anchor) :
    l'.node.kind = l.node.kind ∧ l'.qualifiedName = l.qualifiedName := by
  have hparts : ∀ m : Located, breakOn? ['-'] m.anchor.toList =
      some ((anchorWord m.node.kind).toList, replace [':', ':'] ['.'] m.qualifiedName.toList) :=
    fun m => by rw [toList_anchor, breakOn?_singleton (not_mem_anchorWord m.node.kind)]
  have hback : ∀ m : Located, (∀ name ∈ m.names, '.' ∉ name.toList) →
      replace ['.'] [':', ':'] (replace [':', ':'] ['.'] m.qualifiedName.toList) =
        m.qualifiedName.toList := fun m hm => by
    refine replace_replace (List.cons_ne_nil _ _) fun hdot => ?_
    rcases mem_intercalate hdot with hdot | ⟨name, hname, hdot⟩
    · exact absurd hdot (by decide)
    · exact hm name hname hdot
  obtain ⟨hword, hjoined⟩ := Prod.mk.inj (Option.some.inj
    ((hparts l).symm.trans (he ▸ hparts l')))
  constructor
  · exact (anchorWord_injective hkind hkind' (String.toList_inj.mp hword)).symm
  · have hnames := congrArg (replace ['.'] [':', ':']) hjoined
    rw [hback l hdots, hback l' hdots'] at hnames
    exact (String.toList_inj.mp hnames).symm

/-- Where no name has a dot or a colon in it, the names are read off the anchor. -/
theorem splitWhere_qualifiedName (hne : l.names ≠ []) (hdots : ∀ name ∈ l.names, '.' ∉ name.toList)
    (hcolons : ∀ name ∈ l.names, ':' ∉ name.toList) :
    splitWhere (· == '.') (replace [':', ':'] ['.'] l.qualifiedName.toList) =
      l.names.map String.toList := by
  have hnames : ∀ c : Char, (∀ name ∈ l.names, c ∉ name.toList) →
      ∀ name ∈ l.names.map String.toList, c ∉ name := fun c h name hname => by
    obtain ⟨name, hmem, rfl⟩ := List.mem_map.mp hname
    exact h name hmem
  rw [qualifiedName_eq, String.toList_intercalate, show "::".toList = [':', ':'] from rfl,
    replace_intercalate (hnames ':' hcolons)]
  exact splitWhere_intercalate rfl (by simpa using hne) fun name hname c hc =>
    beq_eq_false_iff_ne.mpr fun hdot => hnames '.' hdots name hname (hdot ▸ hc)

theorem Reached.names_ne_nil (ht : tree.kind = .root) (hkept : tree.Everywhere WellKept)
    (h : Reached tree l) (hkind : l.node.kind.HasEntry) : l.names ≠ [] := by
  cases h with
  | root =>
    rw [ht] at hkind
    cases hkind
  | child h hlists hn hentry =>
    obtain ⟨name, -, hchild⟩ := exists_name (h.everywhere hkept).self hlists hn hentry
    rw [hchild]
    exact List.append_ne_nil_of_right_ne_nil _ (List.cons_ne_nil _ _)

/-- How two nodes come by the same anchor. -/
inductive Alike (l l' : Located) : Prop
  /-- There is a dot in one of the names. -/
  | dot {name : String} : name ∈ l.names ++ l'.names → '.' ∈ name.toList → Alike l l'
  /-- The names are the same once they are joined, and there is a colon in one of them. -/
  | colon {name : String} : l'.node.kind = l.node.kind → l'.qualifiedName = l.qualifiedName →
      name ∈ l.names ++ l'.names → ':' ∈ name.toList → Alike l l'
  /-- The names are the same, and two of them are those of different scopes. -/
  | namesakes : l'.node.kind = l.node.kind → l'.names = l.names → InNamesakes l l' → Alike l l'

/-- Two nodes with the same anchor. -/
theorem Reached.alike (ht : tree.kind = .root) (hkept : tree.Everywhere WellKept)
    (h : Reached tree l) (h' : Reached tree l') (hkind : l.node.kind.HasEntry)
    (hkind' : l'.node.kind.HasEntry) (hne : l ≠ l') (he : l.anchor = l'.anchor) : Alike l l' := by
  by_cases hdot : ∃ name ∈ l.names ++ l'.names, '.' ∈ name.toList
  · obtain ⟨name, hname, hdot⟩ := hdot
    exact .dot hname hdot
  have hdots : ∀ name ∈ l.names ++ l'.names, '.' ∉ name.toList := fun name hname hc =>
    hdot ⟨name, hname, hc⟩
  have hl := fun name hname => hdots name (List.mem_append_left _ hname)
  have hl' := fun name hname => hdots name (List.mem_append_right _ hname)
  obtain ⟨hkinds, hqualified⟩ := same_of_anchor hkind hkind' hl hl' he
  by_cases hcolon : ∃ name ∈ l.names ++ l'.names, ':' ∈ name.toList
  · obtain ⟨name, hname, hcolon⟩ := hcolon
    exact .colon hkinds hqualified hname hcolon
  have hcolons : ∀ name ∈ l.names ++ l'.names, ':' ∉ name.toList := fun name hname hc =>
    hcolon ⟨name, hname, hc⟩
  have hnames : l'.names.map String.toList = l.names.map String.toList := by
    rw [← splitWhere_qualifiedName (h.names_ne_nil ht hkept hkind) hl fun name hname =>
        hcolons name (List.mem_append_left _ hname),
      ← splitWhere_qualifiedName (h'.names_ne_nil ht hkept hkind') hl' fun name hname =>
        hcolons name (List.mem_append_right _ hname), hqualified]
  replace hnames := (List.map_inj_right fun _ _ => String.toList_inj.mp).mp hnames
  exact .namesakes hkinds hnames
    ((h.eq_or_inNamesakes ht hkept h' hkind hkinds hnames).resolve_left hne)

end Located

/-! ## The anchors in a section -/

theorem hasEntry_of_mem_sections {kind : Kind} (h : kind ∈ sections.map (·.2.1)) :
    kind.HasEntry ∧ kind ≠ .nameSpace := by
  revert h
  cases kind <;> decide

/-- The entries in a section of scanned sources each begin with an anchor that is not empty, has no white
space and no double quote in it unless one of the names starts with a parenthesis or a quotation mark,
and is that of one entry only, unless two of them are alike. -/
theorem sectionText_ids (sources : List String) {kind : Kind} (hkind : kind ∈ sections.map (·.2.1))
    (style : EntryStyle) (title : String) :
    let tree := Scan.scanEach sources .empty
    sectionText tree kind style title =
        "\n".intercalate (sectionHead style title ++ groupLines (sectionGroups tree kind style)) ∧
      (∀ e ∈ sectionEntries tree kind style,
        e.lines.head? = some (anchorMark e.anchor) ∧ e.anchor ≠ "" ∧
          ((∃ name ∈ e.located.names, StartsWithOneOf ['(', '"', '\''] name) ∨
            Made IsIdChar e.anchor)) ∧
      (sectionEntries tree kind style).Pairwise fun e f =>
        e.anchor = f.anchor → e.located.Alike f.located := by
  intro tree
  obtain ⟨hentry, hnamespace⟩ := hasEntry_of_mem_sections hkind
  obtain ⟨hkept, hroot⟩ : tree.Everywhere WellKept ∧ tree.kind = .root :=
    Scan.scanEach_kept sources rfl (Scan.State.kept_leaf .root {})
  have hfound : ∀ e ∈ sectionEntries tree kind style,
      Located.Reached tree e.located ∧ e.located.node.kind.HasEntry := fun e he =>
    reached_of_mem_entriesOf .root (.inl hroot) hentry (sectionEntries_eq tree kind style ▸ he)
  refine ⟨sectionText_eq tree kind style title, fun e he => ⟨e.head?_lines, ?_, ?_⟩, ?_⟩
  · exact e.located.anchor_ne_empty
  · by_cases hmarked : ∃ name ∈ e.located.names, StartsWithOneOf ['(', '"', '\''] name
    · exact .inl hmarked
    · have hdeclared := (hfound e he).1.of_mem_names hroot hkept (Scan.declared_scanEach sources)
      refine .inr (Located.made_anchor fun name hname => ?_)
      exact (hdeclared name hname).resolve_right fun hstart => hmarked ⟨name, hname, hstart⟩
  · have hdistinct : (sectionEntries tree kind style).Pairwise fun e f => e.located ≠ f.located :=
      sectionEntries_eq tree kind style ▸ pairwise_entriesOf hkept (.inl hroot) hentry hnamespace
    refine hdistinct.imp_of_mem fun he hf hne hanchor => ?_
    obtain ⟨hreached, hkind⟩ := hfound _ he
    obtain ⟨hreached', hkind'⟩ := hfound _ hf
    exact hreached.alike hroot hkept hreached' hkind hkind' hne hanchor

/-- A function in a namespace and one outside of it. -/
theorem sectionText_ids_twoFunctions :
    let tree := Scan.scanEach ["namespace geo \x7b\n/* Area. */\nint area(int w);\n\x7d\n",
      "/* Volume. */\nint area(long w);\n"] .empty
    Kind.function ∈ sections.map (·.2.1) ∧
      (sectionEntries tree .function {}).map (·.anchor) = ["func-area", "func-geo.area"] ∧
      (∀ e ∈ sectionEntries tree .function {}, e.anchor ≠ "") ∧
      (sectionEntries tree .function {}).Pairwise fun e f =>
        e.anchor = f.anchor → e.located.Alike f.located := by
  intro tree
  obtain ⟨-, hids, halike⟩ := @sectionText_ids
    ["namespace geo \x7b\n/* Area. */\nint area(int w);\n\x7d\n",
      "/* Volume. */\nint area(long w);\n"] .function (by decide) {} ""
  exact ⟨by decide, by decide +kernel, fun e he => (hids e he).2.1, halike⟩

/-- No id is empty or has white space or double quotes in it, and none is used twice. -/
def UsableIds (ids : List String) : Prop :=
  (∀ id ∈ ids, id ≠ "" ∧ Made IsIdChar id) ∧ ids.Nodup

/-- The anchors in a section of scanned sources. -/
def sectionIds (sources : List String) (kind : Kind) : List String :=
  (sectionEntries (Scan.scanEach sources .empty) kind {}).map (·.anchor)

/-- A pointer to a function, and a literal in place of a name, show in the anchor as they are. Members of
`a::b` and of `b` in `a`, members of a structure and a union of one name, and a name with a dot in it
have an anchor twice. -/
theorem not_usableIds_sectionIds :
    ¬UsableIds (sectionIds ["/* Callback. */\nint (*cb)(int x);\n"] .var) ∧
      ¬UsableIds (sectionIds ["/* T. */ typedef int \"a\";\n"] .typeAlias) ∧
      ¬UsableIds (sectionIds ["namespace a::b \x7b\n/* One. */\nint x;\n\x7d\n" ++
        "namespace a \x7b\nnamespace b \x7b\n/* Two. */\nint x;\n\x7d\n\x7d\n"] .var) ∧
      ¬UsableIds (sectionIds ["struct s \x7b struct a \x7b int x; /* One. */ \x7d;\n" ++
        " union a \x7b int x; /* Two. */ \x7d; \x7d;\n"] .structType) ∧
      ¬UsableIds (sectionIds ["namespace a \x7b int b; /* One. */\n\x7d\n" ++
        "int a.b; /* Two. */\n"] .var) := by
  have hpointer : sectionIds ["/* Callback. */\nint (*cb)(int x);\n"] .var =
      ["var-(*cb)(int x)"] := by decide +kernel
  have hliteral : sectionIds ["/* T. */ typedef int \"a\";\n"] .typeAlias = ["type-\"a\""] := by
    decide +kernel
  refine ⟨fun h => ?_, fun h => ?_, fun h => ?_, fun h => ?_, fun h => ?_⟩
  · rw [hpointer] at h
    have hspace := (h.1 _ (List.mem_singleton_self _)).2 ' ' (by decide)
    exact absurd hspace (by decide)
  · rw [hliteral] at h
    have hquote := (h.1 _ (List.mem_singleton_self _)).2 '"' (by decide)
    exact absurd hquote (by decide)
  · exact absurd h.2 (by decide +kernel)
  · exact absurd h.2 (by decide +kernel)
  · exact absurd h.2 (by decide +kernel)

end HeaderDocs
