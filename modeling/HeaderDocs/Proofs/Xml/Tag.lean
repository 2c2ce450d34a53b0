import HeaderDocs.Proofs.Xml.Escape
import Mathlib.Data.List.TakeWhile

/-!
# Tags are read back

The tags of an element whose names have no prefix (`Attr.Plain` for attributes) are read as the
element's name and attributes, whatever follows them.

* `readStartTag?_append`: start tags and the tags of empty elements.
* `readEndTag?_name`: end tags.
-/
namespace HeaderDocs.Xml

open HeaderDocs.Text

/-! ## Names -/

theorem isName_cases {cs : List Char} (h : isName cs = true) :
    ∃ c rest, cs = c :: rest ∧ isNameStart c = true ∧ ∀ d ∈ rest, isNameChar d = true := by
  unfold isName readName? at h
  cases cs with
  | nil => cases h
  | cons c rest =>
    refine ⟨c, rest, rfl, ?_⟩
    by_cases hc : isNameStart c = true
    · simp only [hc, if_true, Option.any_some, List.isEmpty_iff, List.dropWhile_eq_nil_iff] at h
      exact ⟨hc, h⟩
    · rw [Bool.not_eq_true] at hc
      simp [hc] at h

/-- A name ends before a character that is part of none. -/
theorem readName?_append {cs : List Char} (h : isName cs = true) {d : Char}
    (hd : isNameChar d = false) (rest : List Char) :
    readName? (cs ++ d :: rest) = some (cs, d :: rest) := by
  obtain ⟨c, cs, rfl, hc, hcs⟩ := isName_cases h
  rw [List.cons_append, readName?, if_pos hc, List.takeWhile_append_of_pos hcs,
    List.dropWhile_append_of_pos hcs, List.takeWhile_cons_of_neg (by simp [hd]),
    List.dropWhile_cons_of_neg (by simp [hd]), List.append_nil]

/-- A name without a prefix ends before a character that is neither part of a name nor a colon. -/
theorem readQName?_append {cs : List Char} (h : isName cs = true) {d : Char}
    (hd : isNameChar d = false) (hcolon : d ≠ ':') (rest : List Char) :
    readQName? (cs ++ d :: rest) = some ({ name := String.ofList cs }, d :: rest) := by
  unfold readQName?
  rw [readName?_append h hd]
  split
  · rename_i he
    cases he
  · rename_i he
    simp only [Option.some.injEq, Prod.mk.injEq, List.cons.injEq] at he
    exact absurd he.2.1 hcolon
  · rename_i he
    cases he
    rfl

theorem ne_of_isNameStart {c : Char} (h : isNameStart c = true) (d : Char)
    (hd : isNameStart d = false) : c ≠ d := by
  rintro rfl
  rw [hd] at h
  cases h

theorem isSpace_of_isNameStart {c : Char} (h : isNameStart c = true) : isSpace c = false := by
  have hne : ∀ d, isNameStart d = false → (c == d) = false :=
    fun d hd => beq_eq_false_iff_ne.mpr (ne_of_isNameStart h d hd)
  simp only [isSpace, hne ' ' rfl, hne '\t' rfl, hne '\n' rfl, hne '\r' rfl, Bool.or_false]

theorem skipSpace_name {cs : List Char} (h : isName cs = true) (rest : List Char) :
    skipSpace (cs ++ rest) = cs ++ rest := by
  obtain ⟨c, cs, rfl, hc, -⟩ := isName_cases h
  rw [skipSpace, List.cons_append, List.dropWhile_cons_of_neg (by simp [isSpace_of_isNameStart hc])]

/-! ## Attributes -/

/-- An attribute whose name has no prefix and binds none, with a value that a document may hold. -/
structure Attr.Plain (attr : QName × String) : Prop where
  unqualified : attr.1.qualifier = none
  isName : isName attr.1.name.toList = true
  bindsNothing : attr.1.name ≠ "xmlns"
  value : ∀ c ∈ attr.2.toList, isChar c = true

theorem toList_renderAttr (attr : QName × String) :
    (renderAttr attr).toList =
      ' ' :: (attr.1.name.toList ++ '=' :: '"' :: ((escapeAttr attr.2).toList ++ ['"'])) := by
  simp only [renderAttr, String.toList_append]
  simp

def attrPieces (attr : QName × String) : QName × List Piece := (attr.1, attr.2.toList.map attrPiece)

theorem readAttr?_renderAttr {attr : QName × String} (h : Attr.Plain attr) (rest : List Char) :
    readAttr? (attr.1.name.toList ++ '=' :: '"' :: ((escapeAttr attr.2).toList ++ '"' :: rest)) =
      some (attrPieces attr, rest) := by
  obtain ⟨hquoted, hlt, hpieces⟩ := readQuoted?_escapeAttr attr.2 rest
  have hname : ({ name := attr.1.name } : QName) = attr.1 := by
    rw [← h.unqualified]
  unfold readAttr?
  rw [readQName?_append h.isName rfl (by decide)]
  simp only [String.ofList_toList, hname]
  rw [show skipSpace ('=' :: '"' :: ((escapeAttr attr.2).toList ++ '"' :: rest)) =
    '=' :: '"' :: ((escapeAttr attr.2).toList ++ '"' :: rest) from rfl]
  have hskip : skipSpace ('"' :: ((escapeAttr attr.2).toList ++ '"' :: rest)) =
      '"' :: ((escapeAttr attr.2).toList ++ '"' :: rest) := rfl
  rw [List.cons_append] at hquoted
  simp only [hskip, hquoted, hlt, hpieces, Bool.false_eq_true, if_false, Option.map_some]
  rfl

/-! ## What follows in a start tag -/

theorem readInTag?_renderAttr {attr : QName × String} (h : Attr.Plain attr) (rest : List Char) :
    readInTag? ((renderAttr attr).toList ++ rest) = some (.items [attrPieces attr] rest) := by
  obtain ⟨c, cs, hcs, hc, -⟩ := isName_cases h.isName
  have hread := readAttr?_renderAttr h rest
  have hskip := skipSpace_name h.isName
    ('=' :: '"' :: ((escapeAttr attr.2).toList ++ '"' :: rest))
  have htext : (renderAttr attr).toList ++ rest =
      ' ' :: (attr.1.name.toList ++ '=' :: '"' :: ((escapeAttr attr.2).toList ++ '"' :: rest)) := by
    simp [toList_renderAttr]
  have hne := ne_of_isNameStart hc
  rw [htext]
  unfold readInTag?
  rw [show ∀ cs, skipSpace (' ' :: cs) = skipSpace cs from fun _ => rfl, hskip]
  rw [hcs, List.cons_append] at hread ⊢
  split
  · rename_i he
    exact absurd (List.cons.inj he).1 (hne _ rfl)
  · rename_i he
    exact absurd (List.cons.inj he).1 (hne _ rfl)
  · rw [hread]
    rfl

/-- The attributes of an element and the end of its start tag. -/
theorem readMany_readInTag? {attrs : List (QName × String)} (h : ∀ a ∈ attrs, Attr.Plain a)
    {close rest : List Char} {empty : Bool} (hclose : readInTag? close = some (.finish empty rest)) :
    readMany readInTag? (attrs.flatMap (fun a => (renderAttr a).toList) ++ close) =
      some (attrs.map attrPieces, empty, rest) := by
  induction attrs with
  | nil => exact readMany_finish hclose
  | cons a attrs ih =>
    rw [List.flatMap_cons, List.append_assoc, List.map_cons, ← List.singleton_append]
    refine readMany_items (readInTag?_renderAttr (h a (List.mem_cons_self ..)) _) ?_
      (ih fun b hb => h b (List.mem_cons_of_mem _ hb))
    simp only [toList_renderAttr, List.length_append, List.length_cons]
    omega

/-! ## Tags -/

theorem attrs_head (attrs : List (QName × String)) {d : Char} (hd : d = ' ' ∨ d = '>')
    (close : List Char) :
    ∃ e rest, attrs.flatMap (fun a => (renderAttr a).toList) ++ d :: close = e :: rest ∧
      (e = ' ' ∨ e = '>') := by
  cases attrs with
  | nil => exact ⟨d, close, rfl, hd⟩
  | cons a attrs =>
    rw [List.flatMap_cons, toList_renderAttr]
    exact ⟨' ', _, rfl, .inl rfl⟩

/-- The start tag of an element, whose end says whether the element is empty. -/
theorem readStartTag?_append {name : String} {attrs : List (QName × String)}
    (hname : isName name.toList = true) (h : ∀ a ∈ attrs, Attr.Plain a) {d : Char}
    {close rest : List Char} {empty : Bool} (hd : d = ' ' ∨ d = '>')
    (hclose : readInTag? (d :: close) = some (.finish empty rest)) :
    readStartTag? (name.toList ++ (attrs.flatMap (fun a => (renderAttr a).toList) ++ d :: close)) =
      some (.items (.startTag { name } (attrs.map attrPieces) ::
        if empty then [.endTag { name }] else []) rest) := by
  obtain ⟨e, tail, he, hspace⟩ := attrs_head attrs hd close
  have hmany := readMany_readInTag? h hclose
  unfold readStartTag?
  rw [he] at hmany ⊢
  rw [readQName?_append hname (by rcases hspace with rfl | rfl <;> rfl)
    (by rcases hspace with rfl | rfl <;> decide)]
  simp only [hmany, Option.map_some, String.ofList_toList]

theorem readEndTag?_name {name : String} (hname : isName name.toList = true) (rest : List Char) :
    readEndTag? (name.toList ++ '>' :: rest) = some (.items [.endTag { name }] rest) := by
  unfold readEndTag?
  rw [readQName?_append hname rfl (by decide), String.ofList_toList]
  rfl

end HeaderDocs.Xml
