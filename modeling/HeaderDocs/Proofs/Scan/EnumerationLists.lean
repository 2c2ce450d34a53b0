import HeaderDocs.Proofs.Scan.EnumerationBlocks

/-!
# Lists of enumerations

The name of an enumeration is taken from the second word before its body. In `enum class E` that is
`class`, so all scoped enumerations are recorded under one of two names, and each one replaces the one
before it.

* `EnumerationDefinition.run`: reading a definition into any documentation.
* `find?_scan_last`: a name holds the last definition that is recorded under it.
* `separate_scan_iff`: the enumerations of a list are kept apart exactly if none of them is scoped.
-/
namespace HeaderDocs.Scan

open HeaderDocs.Node HeaderDocs.Marked HeaderDocs.Text

/-! ## Definitions -/

inductive EnumerationHead where
  | unscoped
  | scopedClass
  | scopedStruct
deriving DecidableEq, Repr

def EnumerationHead.keyword? : EnumerationHead → Option Name
  | unscoped => none
  | scopedClass => some ⟨"class", by decide +kernel⟩
  | scopedStruct => some ⟨"struct", by decide +kernel⟩

/-- The definition of an enumeration with a public tag, and the white space behind it. The body is any
text in which the brackets nest, with all that is in its comments, literals and directives. -/
structure EnumerationDefinition where
  form : EnumerationHead
  tag : Name
  body : String
  gap : String
  isPublic : tag.text.toList.head? ≠ some '_'
  notKeyword : tag.text ∉ ["class", "struct", "namespace"]
  balanced : isBalanced body.toList = true
  blank : IsGap gap.toList

namespace EnumerationDefinition

variable (d : EnumerationDefinition)

def words : List Name := d.form.keyword?.toList ++ [d.tag]

/-- The name that the enumeration is recorded under: the second word of the definition. -/
def recorded : Name := d.form.keyword?.getD d.tag

def text : String :=
  "enum " ++ (d.form.keyword?.elim "" (·.text ++ " ")) ++ d.tag.text ++ " \x7b" ++ d.body ++ "\x7d;" ++
    d.gap

/-- The definition without its end. -/
def block : List Char :=
  spacedOut (enumKeyword :: d.words) ++ ['\x7b'] ++ (d.body.toList ++ ['\x7d'])

theorem toList_text : d.text.toList = d.block ++ ';' :: d.gap.toList := by
  unfold text block words
  cases d.form.keyword? <;> simp [spacedOut, enumKeyword]

theorem exists_words : ∃ more, d.words = d.recorded :: more ∧ ∀ w ∈ d.words, w.text ≠ "namespace" := by
  have htag : d.tag.text ≠ "namespace" := fun he => d.notKeyword (by simp [he])
  unfold words recorded
  cases hform : d.form with
  | unscoped => exact ⟨[], rfl, by simpa [EnumerationHead.keyword?] using htag⟩
  | scopedClass => exact ⟨[d.tag], rfl, by simpa [EnumerationHead.keyword?] using htag⟩
  | scopedStruct => exact ⟨[d.tag], rfl, by simpa [EnumerationHead.keyword?] using htag⟩

theorem recorded_isPublic : d.recorded.text.toList.head? ≠ some '_' := by
  unfold recorded
  cases d.form with
  | unscoped => exact d.isPublic
  | scopedClass => exact (by decide : "class".toList.head? ≠ some '_')
  | scopedStruct => exact (by decide : "struct".toList.head? ≠ some '_')

/-! ## Reading a definition -/

variable {t : Node}

/-- The first enumeration of a source, at the brace of its body. -/
theorem inside_head (name : Name) (hname : name.text.toList.head? ≠ some '_') (more : List Name) :
    Inside (OpenScope.InEnumerators name.text) [] {}
      ((State.start .empty).run (spacedOut (enumKeyword :: name :: more) ++ ['\x7b'])) := by
  let run := wordsRun false (enumKeyword :: name :: more)
  let scope := OpenScope.begin .empty .source
  let node := enumerationNode name.text
  have hnamed : scope.commitNamed node = scope.commit node :=
    scope.commitNamed_of_recordable rfl (name.isRecordable_iff.mpr hname)
  have hcommit : scope.commit node =
      ((scope.insertAt [0] node).noteRecorded [] node.kind name.text, some [0]) :=
    commit_of_unscoped scope rfl (name.isRecordable_iff.mpr hname)
      (isPrivate_enumerationNode name.text) nofun
  have hopened : State.openEnumeration false run { scope with context := { run } } =
      ((scope.insertAt [0] node).noteRecorded [] node.kind name.text).update ({ · with
        enumeration := some (.inScope 0), inValue := false }) := by
    have hplace : State.openEnumeration false run { scope with context := { run } } =
        (scope.commitNamed node).1.update ({ · with
          enumeration := some (OpenScope.placeOf node (scope.commitNamed node).2)
          inValue := false }) := rfl
    rw [hplace, hnamed, hcommit]
    rfl
  rw [run_enumerationHead rfl]
  refine ⟨State.readsIn_code rfl, rfl, ?_⟩
  change (OpenScope.update (fun c => { c with braces := c.braces + 1, claim := none })
    (State.openEnumeration false run { scope with context := { run } })).InEnumerators name.text []
  rw [hopened]
  refine ⟨⟨⟨rfl, rfl, rfl, rfl, rfl, rfl, Context.claimsConstants_of_none rfl, ?_⟩, ?_, ?_⟩, rfl⟩
  · rintro _ ⟨⟩
    rfl
  · exact congrArg (fun kind => [(kind, name.text)]) (kind_enumerationNode name.text)
  · exact congrArg ([·]) (key_describe _ _)

theorem alongside_head (ht : Mergeable t) (name : Name) (more : List Name)
    (hplain : ∀ w ∈ name :: more, w.text ≠ "namespace") :
    ((State.start t).run (spacedOut (enumKeyword :: name :: more) ++ ['\x7b'])).Alongside t
      ((State.start .empty).run (spacedOut (enumKeyword :: name :: more) ++ ['\x7b'])) := by
  let run := wordsRun false (enumKeyword :: name :: more)
  have hrun : run.Plain := by
    intro f hf
    simp only [run, wordsRun, List.map_cons, List.mem_cons, List.mem_map] at hf
    rcases hf with rfl | rfl | ⟨w, hw, rfl⟩
    · decide
    · exact hplain name (List.mem_cons_self ..)
    · exact hplain w (List.mem_cons_of_mem _ hw)
  obtain ⟨hz, hover⟩ := overlays_start ht
  have hbegun : Beside t ((OpenScope.begin t .source).update fun _ => { run })
      ((OpenScope.begin .empty .source).update fun _ => { run }) := by
    rw [hover]
    exact hz.beside_update rfl ⟨rfl, hrun, .nil, by simp, by simp, by simp, by simp⟩
  have hwords : (State.reading (.begin t .source) { run }).Alongside t
      (State.reading (.begin .empty .source) { run }) := ⟨rfl, .source hbegun⟩
  rw [run_enumerationHead ht.root, run_enumerationHead rfl]
  exact hwords.openBlock (congrArg Prod.fst (State.skeleton_openEnumeration ..))
    fun _ hz => hz.openEnumeration false hrun

/-- Reading a definition records the same enumeration in any documentation, and nothing of it is left
in the context. -/
theorem run (ht : Mergeable t) :
    ∃ z u, Overlays t z u ∧ u.HasEnumeration d.recorded.text ∧
      (State.start t).run d.block = { scope := u.over t z } ∧
      (State.start .empty).run d.block = { scope := u } := by
  obtain ⟨more, hwords, hplain⟩ := d.exists_words
  let head := spacedOut (enumKeyword :: d.words) ++ ['\x7b']
  obtain ⟨n, hn, hlayer, hawaited⟩ := isBalanced_iff.mp d.balanced
  have hin : Inside (OpenScope.InEnumerators d.recorded.text) [] {}
      ((State.start .empty).run head) := by
    have hopened := inside_head d.recorded d.recorded_isPublic more
    rwa [← hwords] at hopened
  have hhead : ((State.start t).run head).Alongside t ((State.start .empty).run head) := by
    have halong := alongside_head ht d.recorded more (hwords ▸ hplain)
    rwa [← hwords] at halong
  have hsound : ((State.start .empty).run head).Sound Node.empty.key :=
    (State.sound_start rfl (State.kept_leaf .root {})).run head
  obtain ⟨hbody, hbodySound, hbodyIn⟩ := hhead.run_enumerators hsound hin hn
  have hend := hbody.step_enumerators hbodySound hbodyIn '\x7d'
  obtain ⟨u, hu, hhas⟩ := State.step_closeEnumeration hbodyIn hlayer hawaited
  have hsplit : ∀ tree : Node, (State.start tree).run d.block =
      (((State.start tree).run head).run d.body.toList).step '\x7d' := fun tree => by
    simp [block, head, State.run]
  rw [hu, ← hsplit] at hend
  generalize (State.start t).run d.block = s at hend ⊢
  obtain ⟨mode, scope, enclosing⟩ := s
  obtain ⟨rfl, hscopes⟩ := hend
  cases hscopes with
  | source h =>
    obtain ⟨z, hz, rfl⟩ := h
    exact ⟨z, u, hz, hhas, rfl, (hsplit .empty).trans hu⟩

/-- The end of the definition leaves the state as it is, and so does the white space behind it. -/
theorem run_text (ht : Mergeable t) :
    (State.start t).run d.text.toList = (State.start t).run d.block := by
  obtain ⟨z, u, -, hhas, hrun, -⟩ := d.run ht
  have hcontext : (u.over t z).context = {} := congrArg (Context.mapIndex (place z)) hhas.context
  rw [toList_text, State.run_append, hrun, State.run_semicolon_gap hcontext d.blank]

theorem exists_find?_scan_text :
    ∃ n, (scan d.text .empty).find? .enumType (some d.recorded.text) = some n := by
  obtain ⟨z, u, -, hhas, -, hrun⟩ := d.run mergeable_empty
  have hscan : scan d.text .empty = u.node := by
    unfold scan scanWithEvents
    rw [d.run_text mergeable_empty, hrun]
    rfl
  obtain ⟨n, hn, hkey⟩ := List.map_eq_singleton_iff.mp hhas.children
  obtain ⟨hkind, hname⟩ := Prod.mk.inj hkey
  refine ⟨n, ?_⟩
  rw [hscan, Node.find?, hn, List.find?_cons_of_pos (by simp [isNamed, hkind, hname])]

/-- A definition is laid over any documentation, and what comes behind it is read as a source of its
own. -/
theorem overlay_scan_text (ht : Mergeable t) :
    Overlay [(.enumType, d.recorded.text)] t (scan d.text .empty) (scan d.text t) ∧
      Mergeable (scan d.text t) ∧ ∀ rest, scan (d.text ++ rest) t = scan rest (scan d.text t) := by
  obtain ⟨z, u, hz, hhas, hrun, hempty⟩ := d.run ht
  have halone : scan d.text .empty = u.node := by
    unfold scan scanWithEvents
    rw [d.run_text mergeable_empty, hempty]
    rfl
  have hscan : scan d.text t = t.withChildren (entries z) := by
    unfold scan scanWithEvents
    rw [d.run_text ht, hrun]
    rfl
  have hdeclared : ∀ c ∈ u.node.children, isOneOf u.declared c = true := by
    intro c hc
    have hkey := List.mem_map_of_mem (f := key) hc
    rw [hhas.children, List.mem_singleton, key, Prod.mk.injEq] at hkey
    have hlabel : c.label? = some (.enumType, d.recorded.text) := by
      rw [label?, hkey.1, hkey.2]
      rfl
    rw [isOneOf_iff_mem hlabel, hhas.declared]
    exact List.mem_singleton_self _
  have hoverlay := overlay_of_overlays hz hdeclared
  rw [hhas.declared, ← halone, ← hscan] at hoverlay
  refine ⟨hoverlay, ⟨hscan ▸ ht.root, hoverlay.sorted, hoverlay.unique, hscan ▸ hz.unscoped⟩,
    fun rest => ?_⟩
  have hcontext : (u.over t z).context = .ofScope (u.over t z).node := by
    rw [context_over, hhas.context, Context.ofScope, hz.kind_over, hz.root]
    rfl
  have hsuspended : (u.over t z).suspended = [] :=
    congrArg (List.map (Context.mapIndex (place z))) hhas.suspended
  have hrest := State.result_of_boundary (show (u.over t z).origin = .source from hhas.origin)
    hcontext hsuspended rest
  rw [scan_append, d.run_text ht, hrun, hrest, hscan]
  rfl

/-- The names of the constants that the enumeration has if it is written without a second keyword, in
order. -/
def constants : List String :=
  ((scan (enumerationText d.tag d.body) .empty).find? .enumType (some d.tag.text)).elim [] constantNames

theorem scan_unscoped (h : d.form = .unscoped) :
    scan d.text .empty = scan (enumerationText d.tag d.body) .empty := by
  let e : EnumerationDefinition := { d with gap := "", blank := rfl }
  have htext : e.text = enumerationText d.tag d.body := by
    simp [e, text, h, EnumerationHead.keyword?, enumerationText, enumerationType]
  have hscan : ∀ d : EnumerationDefinition,
      scan d.text .empty = ((State.start .empty).run d.block).result.node := fun d => by
    rw [← d.run_text mergeable_empty]
    rfl
  rw [← htext, hscan, hscan]
  rfl

end EnumerationDefinition

/-! ## Lists of definitions -/

def listing (ds : List EnumerationDefinition) : String := String.join (ds.map (·.text))

variable {t : Node} {d : EnumerationDefinition} {ds : List EnumerationDefinition}

theorem scan_listing_append (before after : List EnumerationDefinition) (ht : Mergeable t) :
    Mergeable (scan (listing before) t) ∧
      scan (listing (before ++ after)) t = scan (listing after) (scan (listing before) t) := by
  induction before generalizing t with
  | nil => exact ⟨ht, rfl⟩
  | cons d before ih =>
    obtain ⟨-, hmerged, hsplit⟩ := d.overlay_scan_text ht
    have hcons : ∀ ds, scan (listing (d :: ds)) t = scan (listing ds) (scan d.text t) := fun ds => by
      rw [← hsplit, listing, listing, List.map_cons, String.join_cons]
    rw [hcons, List.cons_append, hcons]
    exact ih hmerged

/-- What is recorded under no name of the list stays as it is. -/
theorem find?_scan_unrecorded {kind : Kind} {name : String} (ht : Mergeable t)
    (h : ∀ d ∈ ds, (kind, name) ≠ (.enumType, d.recorded.text)) :
    (scan (listing ds) t).find? kind (some name) = t.find? kind (some name) := by
  induction ds generalizing t with
  | nil => rfl
  | cons d ds ih =>
    obtain ⟨hd, hds⟩ := List.forall_mem_cons.mp h
    obtain ⟨hoverlay, hmerged, hsplit⟩ := d.overlay_scan_text ht
    calc (scan (listing (d :: ds)) t).find? kind (some name)
        = (scan (listing ds) (scan d.text t)).find? kind (some name) := by
          rw [← hsplit, listing, listing, List.map_cons, String.join_cons]
      _ = (scan d.text t).find? kind (some name) := ih hmerged hds
      _ = t.find? kind (some name) :=
          hoverlay.unchanged kind name fun hmem => hd (List.mem_singleton.mp hmem)

/-- A name holds the last definition that is recorded under it, as it is read by itself. -/
theorem find?_scan_last (before after : List EnumerationDefinition) (ht : Mergeable t)
    (h : ∀ e ∈ after, e.recorded.text ≠ d.recorded.text) :
    (scan (listing (before ++ d :: after)) t).find? .enumType (some d.recorded.text) =
      (scan d.text .empty).find? .enumType (some d.recorded.text) := by
  obtain ⟨hbefore, hsplit⟩ := scan_listing_append before (d :: after) ht
  obtain ⟨hoverlay, hmerged, hrest⟩ := d.overlay_scan_text hbefore
  have hafter : ∀ e ∈ after, (Kind.enumType, d.recorded.text) ≠ (.enumType, e.recorded.text) :=
    fun e he heq => h e he (congrArg Prod.snd heq).symm
  rw [hsplit, listing, List.map_cons, String.join_cons, hrest]
  exact (find?_scan_unrecorded hmerged hafter).trans
    (hoverlay.replaced _ _ (List.mem_singleton_self _))

theorem isSome_name_scan (ht : Mergeable t) (hnamed : ∀ c ∈ t.children, c.name ≠ none) :
    ∀ c ∈ (scan (listing ds) t).children, c.name ≠ none := by
  induction ds generalizing t with
  | nil => exact hnamed
  | cons d ds ih =>
    obtain ⟨hoverlay, hmerged, hsplit⟩ := d.overlay_scan_text ht
    rw [listing, List.map_cons, String.join_cons, hsplit]
    exact ih hmerged (hoverlay.isSome_name hnamed)

/-- A list is read into enumerations that are recorded under its names. -/
theorem label?_of_mem_scan {c : Node} (hc : c ∈ (scan (listing ds) .empty).children) :
    ∃ d ∈ ds, c.label? = some (.enumType, d.recorded.text) := by
  obtain ⟨name, hname⟩ :=
    Option.ne_none_iff_exists'.mp (isSome_name_scan mergeable_empty nofun c hc)
  have hlabel : c.label? = some (c.kind, name) := by simp [label?, hname]
  by_contra hno
  push Not at hno
  have hnone : (scan (listing ds) .empty).find? c.kind (some name) = none :=
    find?_scan_unrecorded mergeable_empty fun d hd he => hno d hd (by rw [hlabel, he])
  exact List.find?_eq_none.mp hnone c hc (isNamed_iff_label?.mpr hlabel)

theorem exists_find?_scan (hd : d ∈ ds) :
    ∃ n, (scan (listing ds) .empty).find? .enumType (some d.recorded.text) = some n := by
  -- the last definition that is recorded under the name
  obtain ⟨e, he⟩ : ∃ e, ds.reverse.find? (·.recorded.text == d.recorded.text) = some e :=
    Option.isSome_iff_exists.mp (List.find?_isSome.mpr ⟨d, List.mem_reverse.mpr hd, by simp⟩)
  obtain ⟨hname, after, before, hsplit, hafter⟩ := List.find?_eq_some_iff_append.mp he
  have hds : ds = before.reverse ++ e :: after.reverse := by
    rw [← List.reverse_reverse ds, hsplit]
    simp
  have hlast : ∀ f ∈ after.reverse, f.recorded.text ≠ e.recorded.text := fun f hf heq => by
    simpa [heq, eq_of_beq hname] using hafter f (List.mem_reverse.mp hf)
  rw [← eq_of_beq hname, hds, find?_scan_last _ _ mergeable_empty hlast]
  exact e.exists_find?_scan_text

/-- The enumerations of a tree are those of a list: one for each tag, with the constants of its own
body. -/
structure Separate (ds : List EnumerationDefinition) (tree : Node) : Prop where
  tags : ((tree.childrenOf .enumType).map (·.name)).Perm (ds.map (some ·.tag.text))
  constants : ∀ d ∈ ds, ∃ n, tree.find? .enumType (some d.tag.text) = some n ∧
    constantNames n = d.constants

theorem nodup_enumerations (ht : Mergeable t) (hnamed : ∀ c ∈ t.children, c.name ≠ none) :
    ((t.childrenOf .enumType).map (·.name)).Nodup := by
  have hunique := (List.pairwise_filterMap.mp ht.unique).sublist
    (List.filter_sublist (p := isKind .enumType))
  refine List.pairwise_map.mpr (hunique.imp_of_mem fun {a b} ha hb hab hname => ?_)
  obtain ⟨ha, hkind⟩ := List.mem_filter.mp ha
  obtain ⟨name, ha'⟩ := Option.ne_none_iff_exists'.mp (hnamed a ha)
  have hkinds : a.kind = b.kind :=
    (eq_of_beq hkind).trans (eq_of_beq (List.mem_filter.mp hb).2).symm
  exact hab (a.kind, name) (by simp [label?, ha']) (b.kind, name) (by simp [label?, ← hname, ha'])
    (by rw [hkinds])

theorem mem_enumerations {name : Option String} :
    name ∈ ((scan (listing ds) .empty).childrenOf .enumType).map (·.name) ↔
      ∃ d ∈ ds, name = some d.recorded.text := by
  constructor
  · intro h
    obtain ⟨c, hc, rfl⟩ := List.mem_map.mp h
    obtain ⟨d, hd, hlabel⟩ := label?_of_mem_scan (List.mem_filter.mp hc).1
    obtain ⟨other, hother, hpair⟩ := Option.map_eq_some_iff.mp hlabel
    exact ⟨d, hd, hother.trans (congrArg some (Prod.mk.inj hpair).2)⟩
  · rintro ⟨d, hd, rfl⟩
    obtain ⟨n, hn⟩ := exists_find?_scan hd
    have hnamed := List.find?_some hn
    simp only [isNamed, Option.isNone_some, Bool.false_or, Bool.and_eq_true, beq_iff_eq] at hnamed
    refine List.mem_map.mpr ⟨n, List.mem_filter.mpr ⟨List.mem_of_find?_eq_some hn, ?_⟩, hnamed.2⟩
    exact beq_iff_eq.mpr hnamed.1

/-- A list without scoped enumerations is read into one enumeration for each tag. -/
theorem separate_of_unscoped (hdistinct : (ds.map (·.tag.text)).Nodup)
    (h : ∀ d ∈ ds, d.form = .unscoped) : Separate ds (scan (listing ds) .empty) := by
  have hrecorded : ∀ d ∈ ds, d.recorded = d.tag := fun d hd => by
    rw [EnumerationDefinition.recorded, h d hd]
    rfl
  refine ⟨(List.perm_ext_iff_of_nodup ?_ ?_).mpr fun name => ?_, fun d hd => ?_⟩
  · exact nodup_enumerations (scan_listing_append ds [] mergeable_empty).1
      (isSome_name_scan mergeable_empty nofun)
  · exact List.pairwise_map.mpr ((List.pairwise_map.mp hdistinct).imp fun hne he =>
      hne (Option.some.inj he))
  · rw [mem_enumerations, List.mem_map]
    constructor
    · rintro ⟨d, hd, rfl⟩
      exact ⟨d, hd, by rw [hrecorded d hd]⟩
    · rintro ⟨d, hd, rfl⟩
      exact ⟨d, hd, by rw [hrecorded d hd]⟩
  · obtain ⟨before, after, rfl⟩ := List.append_of_mem hd
    have hlast : ∀ e ∈ after, e.recorded.text ≠ d.recorded.text := fun e he heq => by
      rw [hrecorded e (List.mem_append_right _ (List.mem_cons_of_mem _ he)), hrecorded d hd] at heq
      rw [List.map_append, List.map_cons] at hdistinct
      have hnot := (List.nodup_cons.mp (List.nodup_append.mp hdistinct).2.1).1
      exact hnot (heq ▸ List.mem_map_of_mem he)
    obtain ⟨n, hn⟩ := d.exists_find?_scan_text
    refine ⟨n, ?_, ?_⟩
    · rw [← hrecorded d hd, find?_scan_last before after mergeable_empty hlast, hn]
    · rw [EnumerationDefinition.constants, ← d.scan_unscoped (h d hd), ← hrecorded d hd, hn]
      rfl

/-- The definitions of a list with distinct tags are kept apart exactly if none of them has a second
keyword. The constants of an enumeration are the names of its enumerators, as far as they are public,
if its body has no commas in values, and neither comments nor literals. -/
theorem separate_scan_iff (ds : List EnumerationDefinition)
    (hdistinct : (ds.map (·.tag.text)).Nodup) :
    (Separate ds (scan (listing ds) .empty) ↔ ∀ d ∈ ds, d.form = .unscoped) ∧
      ∀ d ∈ ds, ∀ es : List Enumerator, EnumeratorText es d.body.toList →
        isBareCode false d.body.toList = true → (∀ e ∈ es, ∀ v ∈ e.value, ',' ∉ v.toList) →
          d.constants.Pairwise (· < ·) ∧ ∀ word, word ∈ d.constants ↔
            word.toList.head? ≠ some '_' ∧ ∃ e ∈ es, word = e.name.text := by
  refine ⟨⟨fun hseparate d hd => ?_, separate_of_unscoped hdistinct⟩, fun d _ es htext hbare hcommas => ?_⟩
  · -- a keyword that is the name of an enumeration is no tag
    have hname : some d.recorded.text ∈ ds.map (some ·.tag.text) :=
      hseparate.tags.mem_iff.mp (mem_enumerations.mpr ⟨d, hd, rfl⟩)
    obtain ⟨e, -, he⟩ := List.mem_map.mp hname
    have htag := e.notKeyword
    rw [Option.some.inj he] at htag
    revert htag
    rw [EnumerationDefinition.recorded]
    cases d.form with
    | unscoped => exact fun _ => rfl
    | scopedClass => exact fun htag => absurd (by decide : "class" ∈ _) htag
    | scopedStruct => exact fun htag => absurd (by decide : "struct" ∈ _) htag
  · obtain ⟨n, hn, hsorted, -, hnames⟩ :=
      constantNames_scan_enumeration [] d.tag d.isPublic htext hbare
    have hconstants : d.constants = constantNames n := by
      rw [EnumerationDefinition.constants]
      exact congrArg (Option.elim · [] constantNames) hn
    rw [hconstants]
    exact ⟨hsorted, hnames hcommas⟩

/-- Two enumerations without a second keyword, with a brace in a comment. -/
theorem separate_scan_two :
    let a : EnumerationDefinition :=
      { form := .unscoped, tag := ⟨"A", by decide⟩, body := " X, Y = 1 << 2 ", gap := "\n"
        isPublic := by decide, notKeyword := by decide, balanced := by decide +kernel
        blank := by decide }
    let b : EnumerationDefinition :=
      { form := .unscoped, tag := ⟨"B", by decide⟩, body := " /* no \x7d */ Z ", gap := ""
        isPublic := by decide, notKeyword := by decide, balanced := by decide +kernel
        blank := by decide }
    listing [a, b] = "enum A \x7b X, Y = 1 << 2 \x7d;\nenum B \x7b /* no \x7d */ Z \x7d;" ∧
      ([a, b].map (·.tag.text)).Nodup ∧ Separate [a, b] (scan (listing [a, b]) .empty) := by
  intro a b
  have hdistinct : ([a, b].map (·.tag.text)).Nodup := by decide +kernel
  exact ⟨by decide +kernel, hdistinct, (separate_scan_iff [a, b] hdistinct).1.mpr (by simp [a, b])⟩

/-- Of two scoped enumerations the second one is left, under the name of the keyword. -/
theorem not_separate_scan_scoped :
    let a : EnumerationDefinition :=
      { form := .scopedClass, tag := ⟨"A", by decide⟩, body := " X ", gap := "\n"
        isPublic := by decide, notKeyword := by decide, balanced := by decide +kernel
        blank := by decide }
    let b : EnumerationDefinition :=
      { form := .scopedClass, tag := ⟨"B", by decide⟩, body := " Y ", gap := "\n"
        isPublic := by decide, notKeyword := by decide, balanced := by decide +kernel
        blank := by decide }
    let tree := scan (listing [a, b]) .empty
    listing [a, b] = "enum class A \x7b X \x7d;\nenum class B \x7b Y \x7d;\n" ∧
      ([a, b].map (·.tag.text)).Nodup ∧
      (tree.childrenOf .enumType).map (fun n => (n.name, constantNames n)) = [(some "class", ["Y"])] ∧
      ¬ Separate [a, b] tree := by
  intro a b tree
  have hnames : (tree.childrenOf .enumType).map (fun n => (n.name, constantNames n)) =
      [(some "class", ["Y"])] := by decide +kernel
  refine ⟨by decide +kernel, by decide +kernel, hnames, fun h => ?_⟩
  have hone : (tree.childrenOf .enumType).length = 1 := by simpa using congrArg List.length hnames
  have htwo : (tree.childrenOf .enumType).length = 2 := by simpa using h.tags.length_eq
  omega

end HeaderDocs.Scan
