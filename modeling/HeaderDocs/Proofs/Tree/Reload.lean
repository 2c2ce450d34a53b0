import HeaderDocs.Proofs.Tree.Canon
import HeaderDocs.Proofs.Tree.Written

/-!
# Saving a tree that was loaded

A type is loaded as its words, so when it is saved again, there is one space between each two of them:
`respaced` is what is left of its white space. All else is saved as it was, if the line ends in the tree
are line feeds.

* `typeText_canon`, `declarators_canon`: which types are loaded.
* `toXml_canon_iff`: when the same document is saved again.
-/
namespace HeaderDocs.Node

open HeaderDocs.Text

/-! ## Texts -/

/-- A text with one space between each two words, and no other white space. -/
def respaced (s : String) : String := String.ofList (joined (words s.toList))

theorem respaced_eq_iff {s : String} : respaced s = s ↔ SingleSpaced s.toList := by
  constructor
  · intro h
    have hlist := congrArg String.toList h
    rwa [respaced, String.toList_ofList] at hlist
  · intro h
    rw [respaced, h, String.ofList_toList]

theorem mem_joined {c : Char} {ws : List (List Char)} (h : c ∈ joined ws) :
    c = ' ' ∨ ∃ w ∈ ws, c ∈ w := by
  cases ws with
  | nil => cases h
  | cons w ws =>
    rw [joined, List.mem_append, List.mem_flatMap] at h
    rcases h with h | ⟨v, hv, h⟩
    · exact .inr ⟨w, List.mem_cons_self .., h⟩
    · rcases List.mem_cons.mp h with rfl | h
      · exact .inl rfl
      · exact .inr ⟨v, List.mem_cons_of_mem _ hv, h⟩

theorem mem_respaced {c : Char} {s : String} (h : c ∈ (respaced s).toList) : c = ' ' ∨ c ∈ s.toList := by
  rw [respaced, String.toList_ofList] at h
  rcases mem_joined h with rfl | ⟨w, hw, hc⟩
  · exact .inl rfl
  · exact .inr ((mem_words hw).2 c hc).2

theorem isSafe_respaced {s : String} (h : IsSafe s) : IsSafe (respaced s) := by
  intro c hc
  rcases mem_respaced hc with rfl | hc
  · decide
  · exact h c hc

theorem mem_joinText {c : Char} {pieces : List Node} (h : c ∈ (joinText pieces).toList) :
    c = ' ' ∨ ∃ p ∈ pieces, c ∈ p.content.toList := by
  have hrest : ∀ pieces : List Node, c ∈ (pieces.foldr joinText.separated "").toList →
      c = ' ' ∨ ∃ p ∈ pieces, c ∈ p.content.toList := by
    intro pieces
    induction pieces with
    | nil => nofun
    | cons piece pieces ih =>
      intro h
      rw [List.foldr_cons, joinText.separated, String.toList_append, String.toList_append,
        List.mem_append, List.mem_append] at h
      rcases h with (h | h) | h
      · split at h
        · exact .inl (List.mem_singleton.mp h)
        · cases h
      · exact .inr ⟨piece, List.mem_cons_self .., h⟩
      · rcases ih h with rfl | ⟨p, hp, hc⟩
        · exact .inl rfl
        · exact .inr ⟨p, List.mem_cons_of_mem _ hp, hc⟩
  cases pieces with
  | nil => cases h
  | cons piece pieces =>
    rw [joinText, String.toList_append, List.mem_append] at h
    rcases h with h | h
    · exact .inr ⟨piece, List.mem_cons_self .., h⟩
    · rcases hrest pieces h with rfl | ⟨p, hp, hc⟩
      · exact .inl rfl
      · exact .inr ⟨p, List.mem_cons_of_mem _ hp, hc⟩

/-- Pieces that hold something, and only single spaces, make a text that holds only single spaces. -/
theorem singleSpaced_joinText {pieces : List Node}
    (h : ∀ p ∈ pieces, (Xml.safeText p.content).toList ≠ [] ∧
      SingleSpaced (Xml.safeText p.content).toList) :
    SingleSpaced (Xml.safeText (joinText pieces)).toList := by
  have hrest : ∀ (pieces : List Node) (cs : List Char),
      (∀ p ∈ pieces, (Xml.safeText p.content).toList ≠ [] ∧
        SingleSpaced (Xml.safeText p.content).toList) →
      cs ≠ [] → SingleSpaced cs →
      SingleSpaced (cs ++ (pieces.foldr joinText.separated "").toList.filter Xml.isChar) := by
    intro pieces
    induction pieces with
    | nil =>
      intro cs _ _ hcs
      exact (List.append_nil cs).symm ▸ hcs
    | cons piece pieces ih =>
      intro cs hp hne hcs
      obtain ⟨hpiece, hspaced⟩ := hp piece (List.mem_cons_self ..)
      have hps := fun p hm => hp p (List.mem_cons_of_mem _ hm)
      rw [Xml.safeText, String.toList_ofList] at hpiece hspaced
      rw [List.foldr_cons, joinText.separated, String.toList_append, String.toList_append,
        List.filter_append, List.filter_append, ← List.append_assoc, ← List.append_assoc]
      refine ih _ hps (List.append_ne_nil_of_right_ne_nil _ hpiece) ?_
      split
      · rw [List.append_assoc]
        exact hcs.append_space hspaced hne hpiece
      · exact (List.append_nil cs).symm ▸ hcs.append hspaced
  cases pieces with
  | nil => exact rfl
  | cons piece pieces =>
    obtain ⟨hpiece, hspaced⟩ := h piece (List.mem_cons_self ..)
    rw [Xml.safeText, String.toList_ofList] at hpiece hspaced ⊢
    rw [joinText, String.toList_append, List.filter_append]
    exact hrest pieces _ (fun p hm => h p (List.mem_cons_of_mem _ hm)) hpiece hspaced

/-! ## Types -/

theorem children_canon_type {n : Node} (h : n.kind = .typeExpr) :
    n.canon.children = typeWords (Xml.safeText n.text) := by
  obtain ⟨kind, attrs, content, spaced, children⟩ := n
  cases h
  rfl

theorem text_canon_type {n : Node} (h : n.kind = .typeExpr) :
    n.canon.text = respaced (Xml.safeText n.text) := by
  rw [text, children_canon_type h, typeWords_isText, respaced, ← toList_joinText_typeWords,
    String.ofList_toList]

theorem child?_canon {n : Node} (ht : n.kind ≠ .typeExpr) (hd : n.kind ≠ .description) {kind : Kind}
    (hk : kind.isText = false) : n.canon.child? kind = (n.child? kind).map canon := by
  have hkind : isKind kind ∘ canon = isKind kind := by
    funext c
    simp only [Function.comp, isKind, kind_canon]
  have hpiece : ∀ c : Node, isKind kind c = true → c.kind.isText = false := by
    intro c hc
    rw [eq_of_beq hc, hk]
  have hfind : (n.children.filter (!·.kind.isText)).find? (isKind kind) =
      n.children.find? (isKind kind) := by
    rw [List.find?_filter]
    refine congrArg (n.children.find? ·) (funext fun c => ?_)
    cases hc : isKind kind c with
    | false => simp
    | true => simp [hpiece c hc]
  rw [child?, children_canon ht hd, List.find?_map, hkind, hfind]
  rfl

/-- The type of a declaration is loaded with single spaces. -/
theorem typeText_canon {n : Node} (ht : n.kind ≠ .typeExpr) (hd : n.kind ≠ .description) :
    n.canon.typeText = respaced (Xml.safeText n.typeText) := by
  have hkind : (n.kind == .typeExpr) = false := beq_eq_false_iff_ne.mpr ht
  rw [typeText, typeText, kind_canon, hkind, child?_canon ht hd rfl]
  simp only [Bool.false_eq_true, if_false]
  cases hc : n.child? .typeExpr with
  | none => rfl
  | some type =>
    have hkind : isKind .typeExpr type = true := List.find?_some hc
    exact text_canon_type (eq_of_beq hkind)

/-! ## What is no declaration -/

/-- The nodes that a type or a description holds. -/
def isPiece (n : Node) : Bool := n.kind.isText || n.kind == .description

variable {P Q : String → Prop}

theorem isPiece_of_mayHold {kind : Kind} {c : Node} (h : MayHold P Q kind c)
    (hk : kind = .typeExpr ∨ kind = .description ∨ kind.isText = true) : c.isPiece = true := by
  have hall : c.kind = .word ∨ c.kind = .prose ∨ c.kind = .description := by
    cases kind with
    | typeExpr => exact h.imp And.left .inr
    | description => exact .inr (h.imp And.left id)
    | word => exact .inr (.inr h)
    | prose => exact .inr (.inr h)
    | _ => simp [Kind.isText] at hk
  rcases hall with hc | hc | hc <;>
  · rw [isPiece, hc]
    rfl

theorem isPiece_of_mem_walk {n : Node} (h : n.Everywhere (Written P Q)) (hn : n.isPiece = true) :
    ∀ m ∈ n.walk, m.isPiece = true := by
  induction n using childInduction with
  | h n ih =>
    intro m hm
    rcases mem_walk_iff.mp hm with rfl | ⟨c, hc, hm⟩
    · exact hn
    · refine ih c hc (h.child hc) (isPiece_of_mayHold (h.self c hc) ?_) m hm
      rw [isPiece, Bool.or_eq_true, beq_iff_eq] at hn
      exact hn.elim (fun ht => .inr (.inr ht)) fun hd => .inr (.inl hd)

theorem isPiece_of_mem_walk_type {n : Node} (h : n.Everywhere (Written P Q))
    (hn : n.kind = .typeExpr) : ∀ m ∈ n.walk, m = n ∨ m.isPiece = true := by
  intro m hm
  rcases mem_walk_iff.mp hm with rfl | ⟨c, hc, hm⟩
  · exact .inl rfl
  · exact .inr (isPiece_of_mem_walk (h.child hc)
      (isPiece_of_mayHold (h.self c hc) (.inl hn)) m hm)

/-! ## Declarations with a type -/

/-- A name for a type, a variable or an argument. -/
def isDeclarator (n : Node) : Bool := n.kind == .typeAlias || n.kind == .var || n.kind == .argument

/-- The declarations in a tree that have a type of their own. -/
def declarators (n : Node) : List Node := n.walk.filter isDeclarator

theorem walk_eq (n : Node) : n.walk = n :: n.children.flatMap walk := by
  have hall : ∀ ns : List Node, walkAll ns = ns.flatMap walk := by
    intro ns
    induction ns with
    | nil => rfl
    | cons n ns ih => rw [walkAll, ih, List.flatMap_cons]
  cases n
  rw [walk, hall]

theorem declarators_eq (n : Node) :
    n.declarators = (if n.isDeclarator then [n] else []) ++ n.children.flatMap declarators := by
  have hbelow : (n.children.flatMap walk).filter isDeclarator = n.children.flatMap declarators :=
    List.filter_flatMap
  rw [declarators, walk_eq, List.filter_cons, hbelow]
  split <;> rfl

theorem isDeclarator_of_isPiece {n : Node} (h : n.isPiece = true) : n.isDeclarator = false := by
  rw [isPiece, Bool.or_eq_true, beq_iff_eq] at h
  unfold isDeclarator
  cases hk : n.kind <;> simp_all [Kind.isText]

theorem declarators_of_isPiece {n : Node} (h : n.Everywhere (Written P Q)) (hn : n.isPiece = true) :
    n.declarators = [] := by
  rw [declarators, List.filter_eq_nil_iff]
  intro m hm
  rw [isDeclarator_of_isPiece (isPiece_of_mem_walk h hn m hm)]
  exact Bool.false_ne_true

theorem declarators_of_type {n : Node} (h : n.Everywhere (Written P Q)) (hn : n.kind = .typeExpr) :
    n.declarators = [] := by
  rw [declarators, List.filter_eq_nil_iff]
  intro m hm
  rcases isPiece_of_mem_walk_type h hn m hm with rfl | hm
  · simp [isDeclarator, hn]
  · simp [isDeclarator_of_isPiece hm]

theorem mem_typeWords {c : Node} {s : String} (h : c ∈ typeWords s) :
    c.kind = .word ∧ c.children = [] := by
  unfold typeWords at h
  split at h
  · cases h
  · rcases List.mem_cons.mp h with rfl | h
    · exact ⟨rfl, rfl⟩
    · obtain ⟨w, -, rfl⟩ := List.mem_map.mp h
      exact ⟨rfl, rfl⟩

/-- What is left of a type or a description is made of pieces without children. -/
theorem everywhere_written_canon {n : Node} (h : n.kind = .typeExpr ∨ n.kind = .description) :
    n.canon.Everywhere (Written (fun _ => True) fun _ => True) := by
  rcases h with ht | hd
  · refine everywhere_iff.mpr ⟨fun c hc => ?_, fun c hc => everywhere_written_leaf ?_⟩
    · rw [children_canon_type ht] at hc
      rw [kind_canon, ht]
      exact .inl ⟨(mem_typeWords hc).1, trivial⟩
    · rw [children_canon_type ht] at hc
      exact (mem_typeWords hc).2
  · rw [canon_of_description hd]
    generalize onChars normalizeNewlines (Xml.safeText n.text) = prose
    have hmade : (descriptionOf prose).Everywhere (Written (fun _ => True) fun _ => True) :=
      everywhere_written_descriptionOf trivial
    exact everywhere_written_congr hmade rfl rfl

/-- The declarations of a tree are loaded in the same order. -/
theorem declarators_canon {n : Node} (h : n.Everywhere (Written P Q)) (hn : n.kind.isText = false) :
    n.canon.declarators = n.declarators.map canon := by
  induction n using childInduction with
  | h n ih =>
    by_cases ht : n.kind = .typeExpr
    · rw [declarators_of_type h ht,
        declarators_of_type (everywhere_written_canon (.inl ht)) ((kind_canon n).trans ht)]
      rfl
    · by_cases hd : n.kind = .description
      · have hpiece : n.isPiece = true := by simp [isPiece, hd]
        have hpiece' : n.canon.isPiece = true := by simp [isPiece, kind_canon, hd]
        rw [declarators_of_isPiece h hpiece,
          declarators_of_isPiece (everywhere_written_canon (.inr hd)) hpiece']
        rfl
      · have hself : n.canon.isDeclarator = n.isDeclarator := by simp only [isDeclarator, kind_canon]
        have hbelow : ∀ cs : List Node, (∀ c ∈ cs, c ∈ n.children) →
            ((cs.filter (!·.kind.isText)).map canon).flatMap declarators =
              (cs.flatMap declarators).map canon := by
          intro cs hcs
          induction cs with
          | nil => rfl
          | cons c cs ihcs =>
            have hc := hcs c (List.mem_cons_self ..)
            have hrest := ihcs fun d hd => hcs d (List.mem_cons_of_mem _ hd)
            rw [List.flatMap_cons, List.map_append, ← hrest, List.filter_cons]
            cases htext : c.kind.isText with
            | true =>
              rw [declarators_of_isPiece (h.child hc) (by simp [isPiece, htext])]
              rfl
            | false =>
              rw [← ih c hc (h.child hc) htext]
              rfl
        rw [declarators_eq, declarators_eq n, children_canon ht hd, hself,
          hbelow n.children fun _ hc => hc, List.map_append]
        split <;> rfl

/-! ## Line ends -/

/-- The lines of a text end in line feeds. -/
abbrev Feeds : String → Prop := Made (· ≠ '\r')

theorem onChars_normalizeNewlines_of_feeds {s : String} (h : Feeds s) :
    onChars normalizeNewlines s = s := by
  rw [onChars, normalizeNewlines_eq_self fun hc => h _ hc rfl, String.ofList_toList]

theorem feeds_safeText {s : String} (h : Feeds s) : Feeds (Xml.safeText s) := by
  intro c hc
  rw [Xml.safeText, String.toList_ofList] at hc
  exact h c (List.mem_filter.mp hc).1

theorem feeds_respaced {s : String} (h : Feeds s) : Feeds (respaced s) := by
  intro c hc
  rcases mem_respaced hc with rfl | hc
  · decide
  · exact h c hc

theorem feeds_text {n : Node} (h : n.Written Feeds Feeds)
    (hn : n.kind = .typeExpr ∨ n.kind = .description) : Feeds n.text := by
  intro c hc
  rcases mem_joinText hc with rfl | ⟨p, hp, hc⟩
  · decide
  · obtain ⟨hp, htext⟩ := List.mem_filter.mp hp
    have hmay := h p hp
    rcases hn with hn | hn <;>
    · rw [hn] at hmay
      rcases hmay with ⟨-, hfeeds⟩ | hd
      · exact hfeeds c hc
      · rw [hd] at htext
        cases htext

/-! ## Documents -/

theorem toXml_safe (a : Attributes) : a.safe.toXml = a.toXml := by
  obtain ⟨name, scope, base, initial, direction⟩ := a
  have hsafe : ∀ s, Xml.safeText (Xml.safeText s) = Xml.safeText s := fun s =>
    safeText_of_isSafe (isSafe_safeText s)
  cases name <;> cases scope <;> cases base <;> cases initial <;> cases direction <;>
    simp [Attributes.toXml, Attributes.toList, Attributes.safe, hsafe]

theorem toElement_leaf {n : Node} (h : n.kind = .typeExpr ∨ n.kind = .description) :
    n.toElement = { name := { name := n.kind.name }, attrs := n.attrs.toXml
                    text := Xml.safeText n.text, children := [] } := by
  obtain ⟨kind, attrs, content, spaced, children⟩ := n
  rcases h with rfl | rfl <;> rfl

theorem toElement_branch {n : Node} (ht : n.kind ≠ .typeExpr) (hd : n.kind ≠ .description) :
    n.toElement = { name := { name := n.kind.name }, attrs := n.attrs.toXml, text := ""
                    children := (n.children.filter (!·.kind.isText)).map toElement } := by
  obtain ⟨kind, attrs, content, spaced, children⟩ := n
  have ht : (kind == .typeExpr) = false := beq_eq_false_iff_ne.mpr ht
  have hd : (kind == .description) = false := beq_eq_false_iff_ne.mpr hd
  simp only [toElement, ht, hd, Bool.or_self, Bool.false_eq_true, if_false, toElements_eq]

theorem toElement_canon_type {n : Node} (h : n.kind = .typeExpr) :
    n.canon.toElement = { name := { name := n.kind.name }, attrs := n.attrs.toXml
                          text := respaced (Xml.safeText n.text), children := [] } := by
  rw [toElement_leaf (.inl ((kind_canon n).trans h)), kind_canon, attrs_canon, toXml_safe,
    text_canon_type h, safeText_of_isSafe (isSafe_respaced (isSafe_safeText _))]

theorem toElement_canon_description {n : Node} (h : n.kind = .description) (hfeeds : Feeds n.text) :
    n.canon.toElement = n.toElement := by
  have htext : n.canon.text = Xml.safeText n.text := by
    rw [canon_of_description h, text_withAttrs, text_descriptionOf,
      onChars_normalizeNewlines_of_feeds (feeds_safeText hfeeds)]
  rw [toElement_leaf (.inr ((kind_canon n).trans h)), toElement_leaf (.inr h), kind_canon,
    attrs_canon, toXml_safe, htext, safeText_of_isSafe (isSafe_safeText _)]

theorem toElement_canon_branch {n : Node} (ht : n.kind ≠ .typeExpr) (hd : n.kind ≠ .description) :
    n.canon.toElement = { name := { name := n.kind.name }, attrs := n.attrs.toXml, text := ""
                          children := (n.children.filter (!·.kind.isText)).map fun c =>
                            c.canon.toElement } := by
  have hkinds : ∀ cs : List Node, (cs.map canon).filter (!·.kind.isText) =
      (cs.filter (!·.kind.isText)).map canon := by
    intro cs
    rw [List.filter_map]
    simp only [Function.comp_def, kind_canon]
  have hchildren : (n.canon.children.filter (!·.kind.isText)).map toElement =
      (n.children.filter (!·.kind.isText)).map fun c => c.canon.toElement := by
    rw [children_canon ht hd, hkinds, List.filter_filter, List.map_map]
    simp only [Bool.and_self]
    rfl
  have hkind := kind_canon n
  rw [toElement_branch (hkind ▸ ht) (hkind ▸ hd), hchildren, hkind, attrs_canon, toXml_safe]

/-- A tree whose types have only single spaces is saved as it was. -/
theorem toElement_canon {n : Node} (h : n.Everywhere (Written Feeds Feeds))
    (htypes : ∀ m ∈ n.walk, m.kind = .typeExpr → SingleSpaced (Xml.safeText m.text).toList) :
    n.canon.toElement = n.toElement := by
  induction n using childInduction with
  | h n ih =>
    by_cases ht : n.kind = .typeExpr
    · rw [toElement_canon_type ht, toElement_leaf (.inl ht),
        respaced_eq_iff.mpr (htypes n n.self_mem_walk ht)]
    · by_cases hd : n.kind = .description
      · exact toElement_canon_description hd (feeds_text h.self (.inr hd))
      · rw [toElement_canon_branch ht hd, toElement_branch ht hd]
        refine congrArg _ (List.map_congr_left fun c hc => ?_)
        have hc := (List.mem_filter.mp hc).1
        exact ih c hc (h.child hc) fun m hm => htypes m (mem_walk_iff.mpr (.inr ⟨c, hc, hm⟩))

theorem children_reread (e : Xml.Element) (level : Nat) :
    (e.reread level).children = e.children.map (Xml.Element.reread (level + 1)) := by
  have hall : ∀ es : List Xml.Element,
      Xml.rereadAll (level + 1) es = es.map (Xml.Element.reread (level + 1)) := by
    intro es
    induction es with
    | nil => rfl
    | cons e es ih => rw [Xml.rereadAll, ih, List.map_cons]
  obtain ⟨name, attrs, text, children⟩ := e
  cases children with
  | nil => rfl
  | cons child children => exact hall _

theorem singleSpaced_of_reread {n : Node} (h : n.Everywhere (Written Feeds Feeds)) {level : Nat}
    (he : n.canon.toElement.reread level = n.toElement.reread level) :
    ∀ m ∈ n.walk, m.kind = .typeExpr → SingleSpaced (Xml.safeText m.text).toList := by
  induction n using childInduction generalizing level with
  | h n ih =>
    intro m hm hmt
    have hnotPiece : m.isPiece = false := by simp [isPiece, hmt, Kind.isText]
    by_cases ht : n.kind = .typeExpr
    · rcases isPiece_of_mem_walk_type h ht m hm with rfl | hpiece
      · have hfeeds := feeds_safeText (feeds_text h.self (.inl ht))
        rw [toElement_canon_type ht, toElement_leaf (.inl ht)] at he
        have htext := congrArg Xml.Element.text he
        simp only [Xml.Element.reread] at htext
        rw [onChars_normalizeNewlines_of_feeds hfeeds,
          onChars_normalizeNewlines_of_feeds (feeds_respaced hfeeds)] at htext
        exact respaced_eq_iff.mp htext
      · exact absurd (hnotPiece.symm.trans hpiece) Bool.false_ne_true
    · by_cases hd : n.kind = .description
      · have hpiece := isPiece_of_mem_walk h (by simp [isPiece, hd]) m hm
        exact absurd (hnotPiece.symm.trans hpiece) Bool.false_ne_true
      · rw [toElement_canon_branch ht hd, toElement_branch ht hd] at he
        have hchildren := congrArg Xml.Element.children he
        simp only [children_reread, List.map_map] at hchildren
        rcases mem_walk_iff.mp hm with rfl | ⟨c, hc, hm⟩
        · exact absurd hmt ht
        · cases htext : c.kind.isText with
          | true =>
            have hpiece := isPiece_of_mem_walk (h.child hc) (by simp [isPiece, htext]) m hm
            exact absurd (hnotPiece.symm.trans hpiece) Bool.false_ne_true
          | false =>
            have hkept : c ∈ n.children.filter (!·.kind.isText) :=
              List.mem_filter.mpr ⟨hc, by simp [htext]⟩
            exact ih c hc (h.child hc) (List.map_inj_left.mp hchildren c hkept) m hm hmt

/-- The same document is saved again exactly if the types in it have only single spaces. -/
theorem toXml_canon_iff {tree : Node} (h : tree.Everywhere (Written Feeds Feeds)) :
    tree.canon.toXml = tree.toXml ↔
      ∀ type ∈ tree.walk, type.kind = .typeExpr → SingleSpaced (Xml.safeText type.text).toList := by
  constructor
  · intro he
    have hparse := (plain_toElement tree.canon).parse?_toDocument
    rw [show tree.canon.toElement.toDocument = tree.toElement.toDocument from he,
      (plain_toElement tree).parse?_toDocument] at hparse
    exact singleSpaced_of_reread h (Option.some.inj hparse).symm
  · intro htypes
    exact congrArg Xml.Element.toDocument (toElement_canon h htypes)

end HeaderDocs.Node
