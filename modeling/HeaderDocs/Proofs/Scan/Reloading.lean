import HeaderDocs.Proofs.Scan.Literals
import HeaderDocs.Proofs.Tree.Reload

/-!
# Saving and loading what has been read

The words and marks in a type hold no white space, but the literals do. A tree that sources are read
into is therefore saved, loaded and saved again as the same document, if no literal has white space that
a single space does not stand for.

* `written_feeds`, `written_prints`: what the types in a tree are made of.
* `reload_scanEach`: which tree is loaded, and when it is saved as the same document.
* `reload_scanEach_literal`: a literal with two spaces loses one of them.
-/
namespace HeaderDocs.Scan

open HeaderDocs.Node HeaderDocs.Text

/-! ## Line ends -/

theorem feeds_iff {s : String} : Feeds s ↔ '\r' ∉ s.toList :=
  ⟨fun h hr => h _ hr rfl, fun h _ hc he => h (he ▸ hc)⟩

/-- Reading the conventions of a comment adds no carriage return. -/
theorem feeds_normalize {raw : String} (h : Feeds raw) : Feeds (Comment.normalize raw).text := by
  rw [feeds_iff] at h ⊢
  intro hr
  obtain ⟨before, after, htext⟩ := List.append_of_mem hr
  have hpart : ['\r'] <:+: (Comment.normalize raw).text.toList :=
    ⟨before, after, by rw [htext, List.append_assoc, List.singleton_append]⟩
  have hraw := Comment.infix_of_infix_unescape (by decide)
    (hpart.trans (Comment.text_normalize_isInfix raw))
  exact h (hraw.subset (List.mem_singleton_self _))

theorem lexicon_feeds {P : String → Prop}
    (h : ∀ mark ∈ ["*", "+", "-", "&", ":", "(", ")", ",", "=", "/"], P mark) : Lexicon P Feeds where
  marks := h
  empty := nofun
  joined first second hf hs := by
    intro c hc
    rw [String.toList_append, String.toList_append, List.mem_append, List.mem_append] at hc
    rcases hc with (hc | hc) | hc
    · exact hf c hc
    · rw [List.mem_singleton.mp hc]
      decide
    · exact hs c hc
  normalized _ := feeds_normalize

/-- Words and literals are parts of their source. -/
theorem spelled_feeds {source : String} (h : Feeds source) : Spelled Feeds source := by
  intro tree before c after hsource lexeme hends d hd
  refine h d ?_
  rcases hends.lexeme with ⟨-, hword⟩ | ⟨_, -, -, hsuffix⟩
  · obtain ⟨start, rest, htext, -⟩ := hword after
    rw [hsource, htext]
    exact List.mem_append_left _ (List.mem_append_right _ hd)
  · rw [hsource, ← List.singleton_append, ← List.append_assoc]
    exact List.mem_append_left _ (hsuffix.subset hd)

/-! ## What is printed -/

/-- Something of the text is printed, and there are only single spaces in it. -/
def Prints (text : String) : Prop :=
  (Xml.safeText text).toList ≠ [] ∧ SingleSpaced (Xml.safeText text).toList

theorem isChar_of_isWordPart {c : Char} (h : State.isWordPart 2 c = true) : Xml.isChar c = true := by
  have hall : ((List.range 32 ++ [0xFFFE, 0xFFFF]).map Char.ofNat).all
      (!State.isWordPart 2 ·) = true := by decide +kernel
  by_contra hc
  have hmem : c.toNat ∈ List.range 32 ++ [0xFFFE, 0xFFFF] := by
    simp only [Xml.isChar, Bool.not_eq_true, Bool.or_eq_false_iff, Bool.and_eq_false_iff,
      decide_eq_false_iff_not, bne_eq_false_iff_eq] at hc
    rw [List.mem_append, List.mem_range]
    simp only [List.mem_cons, List.not_mem_nil, or_false]
    omega
  have hfalse := List.all_eq_true.mp hall c (List.mem_map.mpr ⟨_, hmem, Char.ofNat_toNat c⟩)
  rw [h] at hfalse
  cases hfalse

theorem prints_of_isWord {word : String} (h : IsWord word.toList) : Prints word := by
  have hsafe : Xml.safeText word = word :=
    safeText_of_isSafe fun c hc => isChar_of_isWordPart (h.parts c hc)
  rw [Prints, hsafe]
  refine ⟨?_, singleSpaced_of_noSpace fun c hc => ?_⟩
  · obtain ⟨c, hc, -⟩ := h.start
    intro he
    rw [he] at hc
    cases hc
  · cases hs : isSpace c with
    | false => rfl
    | true => exact absurd (h.parts c hc) (by rw [isWordPart_of_isSpace hs]; exact Bool.false_ne_true)

/-- Words print, and so do literals that have only single spaces in them. -/
theorem spelled_prints {source : String}
    (h : ∀ text ∈ literals source, SingleSpaced (Xml.safeText text).toList) :
    Spelled Prints source := by
  intro tree before c after hsource lexeme hends
  rcases hends.mem_literals hsource with hword | hliteral
  · exact prints_of_isWord hword
  · rcases hends.lexeme with ⟨hword, -⟩ | ⟨quote, hquote, hhead, -⟩
    · exact prints_of_isWord hword
    · refine ⟨?_, h lexeme hliteral⟩
      have hmem : quote ∈ lexeme.toList := List.mem_of_mem_head? hhead
      have hchar : Xml.isChar quote = true := by
        rcases hquote with rfl | rfl <;> decide
      rw [Xml.safeText, String.toList_ofList]
      exact List.ne_nil_of_mem (List.mem_filter.mpr ⟨hmem, hchar⟩)

theorem singleSpaced_text {n : Node} (h : n.Written Prints Feeds) (hn : n.kind = .typeExpr) :
    SingleSpaced (Xml.safeText n.text).toList := by
  refine singleSpaced_joinText fun p hp => ?_
  obtain ⟨hp, htext⟩ := List.mem_filter.mp hp
  have hmay := h p hp
  rw [hn] at hmay
  rcases hmay with ⟨-, hprints⟩ | hd
  · exact hprints
  · rw [hd] at htext
    cases htext

/-! ## Whole sources -/

variable {sources : List String}

theorem written_feeds (h : ∀ source ∈ sources, '\r' ∉ source.toList) :
    (scanEach sources .empty).Everywhere (Written Feeds Feeds) := by
  have hfeeds : ∀ source ∈ sources, Feeds source := fun source hs => feeds_iff.mpr (h source hs)
  have hmarks : ∀ mark ∈ ["*", "+", "-", "&", ":", "(", ")", ",", "=", "/"], Feeds mark := by
    intro mark hm
    have hall : ["*", "+", "-", "&", ":", "(", ")", ",", "=", "/"].all
        (!·.toList.contains '\r') = true := by decide
    exact feeds_iff.mpr (by simpa using List.all_eq_true.mp hall mark hm)
  exact scanEach_written (lexicon_feeds hmarks) hfeeds fun source hs => spelled_feeds (hfeeds source hs)

theorem written_prints (h : ∀ source ∈ sources, '\r' ∉ source.toList)
    (hliterals : ∀ source ∈ sources, ∀ text ∈ literals source,
      SingleSpaced (Xml.safeText text).toList) :
    (scanEach sources .empty).Everywhere (Written Prints Feeds) := by
  have hmarks : ∀ mark ∈ ["*", "+", "-", "&", ":", "(", ")", ",", "=", "/"], Prints mark := by
    intro mark hm
    have hall : ["*", "+", "-", "&", ":", "(", ")", ",", "=", "/"].all (fun mark =>
        !(Xml.safeText mark).toList.isEmpty &&
          decide (SingleSpaced (Xml.safeText mark).toList)) = true := by decide
    simpa [Prints] using List.all_eq_true.mp hall mark hm
  exact scanEach_written (lexicon_feeds hmarks) (fun source hs => feeds_iff.mpr (h source hs))
    fun source hs => spelled_prints (hliterals source hs)

/-- A type without white space but single spaces is printed as it is loaded. -/
theorem respaced_typeText {n : Node} (h : n.Everywhere (Written Prints Feeds))
    (hn : n.isDeclarator = true) :
    respaced (Xml.safeText n.typeText) = Xml.safeText n.typeText := by
  have hkind : (n.kind == .typeExpr) = false := by
    cases hk : n.kind <;> simp_all [isDeclarator]
  rw [respaced_eq_iff, typeText, hkind]
  simp only [Bool.false_eq_true, if_false]
  cases hc : n.child? .typeExpr with
  | none => exact rfl
  | some type =>
    have htype : isKind .typeExpr type = true := List.find?_some hc
    exact singleSpaced_text (h.child (List.mem_of_find?_eq_some hc)).self (eq_of_beq htype)

/-- What a declaration has besides its description: its kind, its attributes and its type. -/
def outline (n : Node) : Kind × Attributes × String := (n.kind, n.attrs, n.typeText)

/-- What is printed of it, where the type is printed in the given way. -/
def printedOutline (spacing : String → String) (n : Node) : Kind × Attributes × String :=
  (n.kind, n.attrs.safe, spacing (Xml.safeText n.typeText))

theorem outline_canon {n : Node} (hn : n.isDeclarator = true) :
    outline n.canon = printedOutline respaced n := by
  have ht : n.kind ≠ .typeExpr := by
    intro hk
    simp [isDeclarator, hk] at hn
  have hd : n.kind ≠ .description := by
    intro hk
    simp [isDeclarator, hk] at hn
  rw [outline, kind_canon, attrs_canon, typeText_canon ht hd]
  rfl

/-- A tree that sources are read into is loaded with the same declarations, and with single spaces in
their types. It is saved as the same document exactly if all types have only single spaces. They do if
the literals do, and then every declaration keeps its type as it is printed. -/
theorem reload_scanEach (h : ∀ source ∈ sources, '\r' ∉ source.toList) :
    ∃ loaded, ofXml (scanEach sources .empty).toXml = .ok loaded ∧
      loaded.declarators.map outline =
        (scanEach sources .empty).declarators.map (printedOutline respaced) ∧
      (loaded.toXml = (scanEach sources .empty).toXml ↔
        ∀ type ∈ (scanEach sources .empty).walk, type.kind = .typeExpr →
          SingleSpaced (Xml.safeText type.text).toList) ∧
      ((∀ source ∈ sources, ∀ text ∈ literals source, SingleSpaced (Xml.safeText text).toList) →
        loaded.toXml = (scanEach sources .empty).toXml ∧
          loaded.declarators.map outline =
            (scanEach sources .empty).declarators.map (printedOutline id)) := by
  have hfeeds := written_feeds h
  have hroot : (scanEach sources .empty).kind = .root :=
    (scanEach_kept sources rfl (State.kept_leaf .root {})).2
  have houtline : (scanEach sources .empty).canon.declarators.map outline =
      (scanEach sources .empty).declarators.map (printedOutline respaced) := by
    rw [declarators_canon hfeeds (by rw [hroot]; rfl), List.map_map]
    exact List.map_congr_left fun d hd => outline_canon (List.mem_filter.mp hd).2
  refine ⟨_, ofXml_of_parse? hroot (plain_toElement _).parse?_toDocument, houtline,
    toXml_canon_iff hfeeds, fun hliterals => ?_⟩
  have hprints := written_prints h hliterals
  refine ⟨(toXml_canon_iff hfeeds).mpr fun type hm => ?_, houtline.trans ?_⟩
  · exact singleSpaced_text (hprints.of_mem_walk hm).self
  · refine List.map_congr_left fun d hd => ?_
    obtain ⟨hm, hd⟩ := List.mem_filter.mp hd
    rw [printedOutline, respaced_typeText (hprints.of_mem_walk hm) hd]
    rfl

/-- Types of several words, and a literal with a single space in it. -/
theorem reload_scanEach_types :
    let sources := ["const  unsigned\n int *first, second = 2;\n", "typedef __typeof__(\"a b\") text_t;"]
    (∀ source ∈ sources, '\r' ∉ source.toList) ∧
      (∀ source ∈ sources, ∀ text ∈ literals source, SingleSpaced (Xml.safeText text).toList) ∧
      ∃ loaded, ofXml (scanEach sources .empty).toXml = .ok loaded ∧
        loaded.toXml = (scanEach sources .empty).toXml ∧
        loaded.declarators.map outline =
          [(.var, { name := some "first" }, "const unsigned int *"),
            (.var, { name := some "second", initial := some "2" }, "const unsigned int"),
            (.typeAlias, { name := some "text_t" }, "__typeof__ ( \"a b\")")] := by
  intro sources
  have hreturns : ∀ source ∈ sources, '\r' ∉ source.toList := by decide +kernel
  have hliterals : ∀ source ∈ sources, ∀ text ∈ literals source,
      SingleSpaced (Xml.safeText text).toList := by decide +kernel
  obtain ⟨loaded, hload, -, -, hkept⟩ := reload_scanEach hreturns
  obtain ⟨hsaved, hdeclarators⟩ := hkept hliterals
  exact ⟨hreturns, hliterals, loaded, hload, hsaved, hdeclarators.trans (by decide +kernel)⟩

/-- One of the two spaces in a literal is lost. -/
theorem reload_scanEach_literal :
    let sources := ["typedef __typeof__(\"a  b\") text_t;"]
    (∀ source ∈ sources, '\r' ∉ source.toList) ∧
      ∃ loaded, ofXml (scanEach sources .empty).toXml = .ok loaded ∧
        loaded.toXml ≠ (scanEach sources .empty).toXml ∧
        (scanEach sources .empty).declarators.map outline =
          [(.typeAlias, { name := some "text_t" }, "__typeof__ ( \"a  b\")")] ∧
        loaded.declarators.map outline =
          [(.typeAlias, { name := some "text_t" }, "__typeof__ ( \"a b\")")] := by
  intro sources
  have hreturns : ∀ source ∈ sources, '\r' ∉ source.toList := by decide +kernel
  have hroot : (scanEach sources .empty).kind = .root :=
    (scanEach_kept sources rfl (State.kept_leaf .root {})).2
  refine ⟨hreturns, _, ofXml_of_parse? hroot (plain_toElement _).parse?_toDocument, ?_,
    by decide +kernel, by decide +kernel⟩
  rw [ne_eq, toXml_canon_iff (written_feeds hreturns)]
  intro htypes
  have hall : (scanEach sources .empty).walk.all (fun type => type.kind != .typeExpr ||
      decide (SingleSpaced (Xml.safeText type.text).toList)) = true := by
    refine List.all_eq_true.mpr fun type hm => ?_
    by_cases hk : type.kind = .typeExpr
    · simp [htypes type hm hk]
    · simp [hk]
  exact absurd hall (by decide +kernel)

end HeaderDocs.Scan
