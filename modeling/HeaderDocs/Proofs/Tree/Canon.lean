import HeaderDocs.Proofs.Text.Newline
import HeaderDocs.Proofs.Text.Words
import HeaderDocs.Proofs.Tree.Everywhere
import HeaderDocs.Proofs.Xml.RoundTrip
import HeaderDocs.Tree.Description
import HeaderDocs.Tree.Saved

/-!
# What saving and loading keeps of a tree

`canon` says what is left of a tree after it was saved and loaded again: texts lose the characters
that no document may hold, pieces of text are kept only in types and descriptions, a type becomes
its words and a description one piece of prose.

* `ofElement?_reread`: the element of a node is read as the node that is left of it.
* `canon_canon`: nothing more is lost the second time.
* `ofXml_toXml`: a saved tree is loaded as what is left of it.
-/
namespace HeaderDocs

open HeaderDocs.Text

/-- Attributes without the characters that no document may hold. -/
def Attributes.safe (a : Attributes) : Attributes where
  name := a.name.map Xml.safeText
  scope := a.scope.map Xml.safeText
  base := a.base.map Xml.safeText
  initial := a.initial.map Xml.safeText
  direction := a.direction.map Xml.safeText

namespace Node

mutual

/-- What is left of a node that was saved and loaded. -/
def canon : Node → Node
  | ⟨kind, attrs, content, spaced, children⟩ =>
    let text := Xml.safeText (text ⟨kind, attrs, content, spaced, children⟩)
    if kind == .typeExpr then { kind, attrs := attrs.safe, children := typeWords text }
    else if kind == .description then
      { descriptionOf (onChars normalizeNewlines text) with attrs := attrs.safe }
    else { kind, attrs := attrs.safe, children := canonAll children }

/-- What is left of a list of nodes: pieces of text are dropped. -/
def canonAll : List Node → List Node
  | [] => []
  | n :: ns => if n.kind.isText then canonAll ns else n.canon :: canonAll ns

end

/-! ## Texts that documents may hold -/

/-- All characters of a text may stand in a document. -/
def IsSafe (s : String) : Prop := ∀ c ∈ s.toList, Xml.isChar c = true

theorem isSafe_safeText (s : String) : IsSafe (Xml.safeText s) := by
  intro c hc
  rw [Xml.safeText, String.toList_ofList] at hc
  exact (List.mem_filter.mp hc).2

theorem safeText_of_isSafe {s : String} (h : IsSafe s) : Xml.safeText s = s := by
  rw [Xml.safeText, List.filter_eq_self.mpr h, String.ofList_toList]

theorem isSafe_normalizeNewlines {s : String} (h : IsSafe s) :
    IsSafe (onChars normalizeNewlines s) := by
  intro c hc
  rw [toList_onChars] at hc
  rcases mem_normalizeNewlines hc with rfl | hc
  · decide
  · exact h c hc

theorem safe_safe (a : Attributes) : a.safe.safe = a.safe := by
  have hmap : ∀ s? : Option String,
      (s?.map Xml.safeText).map Xml.safeText = s?.map Xml.safeText := by
    intro s?
    cases s? with
    | none => rfl
    | some s => simp only [Option.map_some, safeText_of_isSafe (isSafe_safeText s)]
  simp only [Attributes.safe, hmap]

/-! ## Attributes -/

theorem attributesOf_toXml (a : Attributes) : attributesOf a.toXml = a.safe := by
  obtain ⟨name, scope, base, initial, direction⟩ := a
  cases name <;> cases scope <;> cases base <;> cases initial <;> cases direction <;> rfl

theorem plain_toXml (a : Attributes) : ∀ attr ∈ a.toXml, Xml.Attr.Plain attr := by
  intro attr hattr
  obtain ⟨⟨name, value?⟩, hmem, he⟩ := List.mem_filterMap.mp hattr
  obtain ⟨value, -, rfl⟩ := Option.map_eq_some_iff.mp he
  have hname : Xml.isName name.toList = true ∧ name ≠ "xmlns" := by
    simp only [Attributes.toList, List.mem_cons, Prod.mk.injEq, List.not_mem_nil, or_false] at hmem
    rcases hmem with ⟨rfl, -⟩ | ⟨rfl, -⟩ | ⟨rfl, -⟩ | ⟨rfl, -⟩ | ⟨rfl, -⟩ <;> decide
  exact ⟨rfl, hname.1, hname.2, isSafe_safeText value⟩

/-- The attributes of an element are those that are set, in a fixed order. -/
theorem map_toXml_sublist (entries : List (String × Option String)) :
    ((entries.filterMap fun (name, value) => value.map fun value =>
      (({ name } : Xml.QName), Xml.safeText value)).map (·.1)).Sublist
      (entries.map fun entry => ({ name := entry.1 } : Xml.QName)) := by
  induction entries with
  | nil => exact List.Sublist.slnil
  | cons entry entries ih =>
    obtain ⟨name, value?⟩ := entry
    cases value? with
    | none => exact ih.cons _
    | some value => exact ih.cons_cons _

theorem nodup_toXml (a : Attributes) : (a.toXml.map (·.1)).Nodup := by
  have hnames : (a.toList.map fun entry => ({ name := entry.1 } : Xml.QName)) =
      [{ name := "name" }, { name := "scope" }, { name := "parent" }, { name := "default" },
        { name := "direction" }] := rfl
  refine List.Nodup.sublist (map_toXml_sublist a.toList) ?_
  rw [hnames]
  decide

/-! ## Loading what was saved -/

theorem typeWords_normalizeNewlines (s : String) :
    typeWords (onChars normalizeNewlines s) = typeWords s := by
  have hwords : wordsOf (onChars normalizeNewlines s) = wordsOf s := by
    rw [wordsOf, wordsOf, toList_onChars, words_normalizeNewlines]
  rw [typeWords, typeWords, hwords]

theorem descriptionOf_eq (text : String) : descriptionOf text =
    { kind := .description, children := if text.isEmpty then [] else [prose text] } := by
  have hempty : (text == "") = text.isEmpty := by
    rw [Bool.eq_iff_iff, beq_iff_eq, String.isEmpty_iff]
  rw [descriptionOf, hempty]

theorem isName_name (kind : Kind) : Xml.isName kind.name.toList = true := by
  cases kind <;> decide

theorem canonAll_eq (ns : List Node) : canonAll ns = (ns.filter (!·.kind.isText)).map canon := by
  induction ns with
  | nil => rfl
  | cons n ns ih =>
    cases hn : n.kind.isText with
    | true => simp [canonAll, hn, ih]
    | false => simp [canonAll, hn, ih]

/-- Nodes that are neither types nor descriptions keep what is left of their children. -/
theorem children_canon {n : Node} (ht : n.kind ≠ .typeExpr) (hd : n.kind ≠ .description) :
    n.canon.children = (n.children.filter (!·.kind.isText)).map canon := by
  obtain ⟨kind, attrs, content, spaced, children⟩ := n
  have ht : (kind == .typeExpr) = false := beq_eq_false_iff_ne.mpr ht
  have hd : (kind == .description) = false := beq_eq_false_iff_ne.mpr hd
  simp only [canon, ht, hd, Bool.false_eq_true, if_false]
  exact canonAll_eq children

theorem toElements_eq (ns : List Node) :
    toElements ns = (ns.filter (!·.kind.isText)).map toElement := by
  induction ns with
  | nil => rfl
  | cons n ns ih =>
    cases hn : n.kind.isText with
    | true => simp [toElements, hn, ih]
    | false => simp [toElements, hn, ih]

/-- The element of a node can be written as it is. -/
theorem plain_toElement (n : Node) : n.toElement.Plain := by
  induction n using childInduction with
  | h n ih =>
    obtain ⟨kind, attrs, content, spaced, children⟩ := n
    simp only [toElement]
    split
    · exact .mk (isName_name kind) (plain_toXml attrs) (nodup_toXml attrs) (isSafe_safeText _)
        (by simp)
    · refine .mk (isName_name kind) (plain_toXml attrs) (nodup_toXml attrs) (by simp) fun e he => ?_
      rw [toElements_eq] at he
      obtain ⟨c, hc, rfl⟩ := List.mem_map.mp he
      exact ih c (List.mem_of_mem_filter hc)

/-- Elements that are neither types nor descriptions are read by their children. -/
theorem ofElement?_of_kind {kind : Kind} (ht : kind ≠ .typeExpr) (hd : kind ≠ .description)
    (attrs : List (Xml.QName × String)) (text : String) (children : List Xml.Element) :
    ofElement? ⟨{ name := kind.name }, attrs, text, children⟩ =
      some { kind, attrs := attributesOf attrs, children := ofElements children } := by
  unfold ofElement?
  simp only [Option.isNone_none, if_true, Kind.ofName?_name]

/-- The element of a node with children, as it is read back. -/
theorem ofElement?_reread_children {kind : Kind} (ht : kind ≠ .typeExpr) (hd : kind ≠ .description)
    (attrs : Attributes) (children : List Xml.Element) (level : Nat) :
    ofElement? (Xml.Element.reread level ⟨{ name := kind.name }, attrs.toXml, "", children⟩) =
      some { kind, attrs := attrs.safe, children := ofElements (Xml.rereadAll (level + 1) children) } := by
  cases children with
  | nil =>
    simp only [Xml.Element.reread, ofElement?_of_kind ht hd, attributesOf_toXml, Xml.rereadAll]
  | cons e es =>
    simp only [Xml.Element.reread, ofElement?_of_kind ht hd, attributesOf_toXml]

theorem ofElements_rereadAll {ns : List Node} {level : Nat}
    (h : ∀ n ∈ ns, ofElement? (n.toElement.reread level) = some n.canon) :
    ofElements (Xml.rereadAll level (toElements ns)) = canonAll ns := by
  induction ns with
  | nil => rfl
  | cons n ns ih =>
    rw [List.forall_mem_cons] at h
    simp only [toElements, canonAll]
    split
    · exact ih h.2
    · simp only [Xml.rereadAll, ofElements, h.1, ih h.2]

/-- The element of a node is read back as what is left of the node. -/
theorem ofElement?_reread (n : Node) (level : Nat) :
    ofElement? (n.toElement.reread level) = some n.canon := by
  induction n using childInduction generalizing level with
  | h n ih =>
    obtain ⟨kind, attrs, content, spaced, children⟩ := n
    by_cases ht : kind = .typeExpr
    · subst ht
      simp only [toElement, canon, Xml.Element.reread, ofElement?, Kind.ofName?_name,
        attributesOf_toXml, typeWords_normalizeNewlines, beq_self_eq_true, Bool.true_or, if_true,
        Option.isNone_none]
    · by_cases hd : kind = .description
      · subst hd
        rw [canon, descriptionOf_eq]
        simp only [toElement, Xml.Element.reread, ofElement?, Kind.ofName?_name,
          attributesOf_toXml, beq_self_eq_true, Bool.or_true, if_true, Option.isNone_none]
        rfl
      · have hkind : (kind == .typeExpr || kind == .description) = false := by simp [ht, hd]
        simp only [toElement, hkind, Bool.false_eq_true, if_false]
        rw [ofElement?_reread_children ht hd, ofElements_rereadAll fun c hc => ih c hc (level + 1)]
        simp [canon, ht, hd]

/-! ## Saving and loading twice -/

theorem toList_joinText_typeWords (s : String) :
    (joinText (typeWords s)).toList = joined (words s.toList) := by
  have hrest : ∀ ws : List (List Char),
      (((ws.map String.ofList).map (word · true)).foldr joinText.separated "").toList =
        ws.flatMap (' ' :: ·) := by
    intro ws
    induction ws with
    | nil => rfl
    | cons w ws ih =>
      have hword : ((word (String.ofList w) true).kind == .word &&
          (word (String.ofList w) true).spaced) = true := rfl
      rw [List.map_cons, List.map_cons, List.foldr_cons, joinText.separated, if_pos hword,
        String.toList_append, String.toList_append, ih, List.flatMap_cons]
      simp [word]
  unfold typeWords wordsOf
  cases words s.toList with
  | nil => rfl
  | cons w ws =>
    simp only [List.map_cons, joinText, String.toList_append, hrest]
    simp [word, joined]

theorem typeWords_isText (s : String) : (typeWords s).filter (·.kind.isText) = typeWords s := by
  rw [List.filter_eq_self]
  intro n hn
  unfold typeWords at hn
  split at hn
  · cases hn
  · rcases List.mem_cons.mp hn with rfl | hn
    · rfl
    · obtain ⟨w, -, rfl⟩ := List.mem_map.mp hn
      rfl

theorem typeWords_joinText_typeWords {s : String} (h : IsSafe s) :
    typeWords (Xml.safeText (joinText (typeWords s))) = typeWords s := by
  have hsafe : IsSafe (joinText (typeWords s)) := by
    intro c hc
    rw [toList_joinText_typeWords] at hc
    have hjoined : ∀ ws : List (List Char), (∀ w ∈ ws, ∀ c ∈ w, c ∈ s.toList) →
        c ∈ joined ws → c = ' ' ∨ c ∈ s.toList := by
      intro ws hws hc
      cases ws with
      | nil => cases hc
      | cons w ws =>
        rw [joined, List.mem_append, List.mem_flatMap] at hc
        rcases hc with hc | ⟨v, hv, hc⟩
        · exact .inr (hws w (List.mem_cons_self ..) c hc)
        · rcases List.mem_cons.mp hc with rfl | hc
          · exact .inl rfl
          · exact .inr (hws v (List.mem_cons_of_mem _ hv) c hc)
    rcases hjoined _ (fun w hw d hd => ((mem_words hw).2 d hd).2) hc with rfl | hc
    · decide
    · exact h c hc
  have hwords : wordsOf (joinText (typeWords s)) = wordsOf s := by
    rw [wordsOf, toList_joinText_typeWords, words_joined_words, wordsOf]
  rw [safeText_of_isSafe hsafe, typeWords, hwords, typeWords]

theorem kind_canon (n : Node) : n.canon.kind = n.kind := by
  obtain ⟨kind, attrs, content, spaced, children⟩ := n
  unfold canon
  dsimp only
  split
  · rfl
  · split
    · rename_i hd
      exact (eq_of_beq hd).symm
    · rfl

theorem attrs_canon (n : Node) : n.canon.attrs = n.attrs.safe := by
  obtain ⟨kind, attrs, content, spaced, children⟩ := n
  unfold canon
  dsimp only
  split
  · rfl
  · split
    · rfl
    · rfl

theorem canon_of_description {n : Node} (h : n.kind = .description) :
    n.canon = { descriptionOf (onChars normalizeNewlines (Xml.safeText n.text)) with
      attrs := n.attrs.safe } := by
  obtain ⟨kind, attrs, content, spaced, children⟩ := n
  cases h
  rfl

theorem text_congr {m n : Node} (h : m.children = n.children) : m.text = n.text := by
  rw [text, text, h]

theorem text_withAttrs (n : Node) (attrs : Attributes) : text { n with attrs } = n.text :=
  text_congr rfl

theorem canon_canon_description {n : Node} (h : n.kind = .description) :
    n.canon.canon = n.canon := by
  have hsafe := isSafe_normalizeNewlines (isSafe_safeText n.text)
  have htext : n.canon.text = onChars normalizeNewlines (Xml.safeText n.text) := by
    rw [canon_of_description h, text_withAttrs, text_descriptionOf]
  have hidem : onChars normalizeNewlines (onChars normalizeNewlines (Xml.safeText n.text)) =
      onChars normalizeNewlines (Xml.safeText n.text) := by
    rw [onChars, toList_onChars, normalizeNewlines_idem, onChars]
  have hattrs : n.canon.attrs.safe = n.attrs.safe := by
    rw [canon_of_description h]
    exact safe_safe n.attrs
  rw [canon_of_description ((kind_canon n).trans h), htext, safeText_of_isSafe hsafe, hidem, hattrs,
    ← canon_of_description h]

theorem canonAll_canonAll {ns : List Node} (h : ∀ n ∈ ns, n.canon.canon = n.canon) :
    canonAll (canonAll ns) = canonAll ns := by
  induction ns with
  | nil => rfl
  | cons n ns ih =>
    rw [List.forall_mem_cons] at h
    simp only [canonAll]
    split
    · exact ih h.2
    · rename_i hn
      rw [canonAll, kind_canon, if_neg hn, h.1, ih h.2]

/-- What is left of a node is left again when it is saved and loaded once more. -/
theorem canon_canon (n : Node) : n.canon.canon = n.canon := by
  induction n using childInduction with
  | h n ih =>
    obtain ⟨kind, attrs, content, spaced, children⟩ := n
    by_cases ht : kind = .typeExpr
    · subst ht
      simp only [canon, beq_self_eq_true, if_true, text, typeWords_isText, safe_safe]
      rw [typeWords_joinText_typeWords (isSafe_safeText _)]
    · by_cases hd : kind = .description
      · subst hd
        exact canon_canon_description rfl
      · have ht' : (kind == .typeExpr) = false := by simp [ht]
        have hd' : (kind == .description) = false := by simp [hd]
        simp only [canon, ht', hd', Bool.false_eq_true, if_false, safe_safe, canonAll_canonAll ih]

/-! ## Saved trees -/

theorem name_reread (e : Xml.Element) (level : Nat) : (e.reread level).name = e.name := by
  obtain ⟨name, attrs, text, children⟩ := e
  cases children with
  | nil => rfl
  | cons child children => rfl

/-- A document that is read as the element of a tree is loaded as what is left of the tree. -/
theorem ofXml_of_parse? {tree : Node} (h : tree.kind = .root) {document : String}
    (hp : Xml.parse? document = some (tree.toElement.reread 0)) : ofXml document = .ok tree.canon := by
  have hname : (tree.toElement.reread 0).name = { name := Kind.root.name } := by
    rw [name_reread, toElement_name, h]
  unfold ofXml
  rw [hp]
  simp only [hname, beq_self_eq_true, if_true, ofElement?_reread]

/-- A tree that is saved is loaded as what is left of it, from which nothing more is lost. -/
theorem ofXml_toXml (tree : Node) (h : tree.kind = .root) :
    ofXml tree.toXml = .ok tree.canon ∧ tree.canon.canon = tree.canon :=
  ⟨ofXml_of_parse? h (plain_toElement tree).parse?_toDocument, canon_canon tree⟩

/-- A variable of which parts are not kept as they are. -/
def unkept : Node :=
  { kind := .root
    children := [prose "lost", { kind := .var, attrs := { name := some "a\x01b" }, children := [
      { kind := .typeExpr, children := [word "unsigned" false, word " int" true] },
      descriptionOf "x\r\ny"] }] }

theorem ofXml_toXml_unkept :
    unkept.kind = .root ∧ unkept.canon.canon = unkept.canon ∧ ofXml unkept.toXml = .ok
      { kind := .root
        children := [{ kind := .var, attrs := { name := some "ab" }, children := [
          { kind := .typeExpr, children := [word "unsigned" false, word "int" true] },
          descriptionOf "x\ny"] }] } :=
  ⟨rfl, (ofXml_toXml unkept rfl).2, (ofXml_toXml unkept rfl).1⟩

end Node

end HeaderDocs
