import HeaderDocs.Proofs.Xml.Content

/-!
# Documents are read back

An element with names that need no prefix and with characters that documents may hold
(`Element.Plain`) is read back from the document that it is written as. Two things are different
then (`Element.reread`): line ends in its text are line feeds, and an element with children has the
indentation of the first one as its text.

* `Element.Plain.leads`: an element in its place among others.
* `Element.Plain.parse?_toDocument`: a whole document.
-/
namespace HeaderDocs.Xml

open HeaderDocs.Text

/-- An element that a document can hold as it is: names without prefixes, no attribute twice, and
only characters that documents may hold. -/
inductive Element.Plain : Element → Prop where
  | mk {name : String} {attrs : List (QName × String)} {text : String} {children : List Element}
    (hname : isName name.toList = true) (hattrs : ∀ a ∈ attrs, Attr.Plain a)
    (hnodup : (attrs.map (·.1)).Nodup) (htext : ∀ c ∈ text.toList, isChar c = true)
    (hchildren : ∀ e ∈ children, Element.Plain e) : Element.Plain ⟨{ name }, attrs, text, children⟩

mutual

/-- An element as it is read back after it was written at a level. -/
def Element.reread (level : Nat) : Element → Element
  | ⟨name, attrs, text, children⟩ =>
    match children with
    | [] => ⟨name, attrs, onChars normalizeNewlines text, []⟩
    | child :: children =>
      ⟨name, attrs, newline (level + 1), rereadAll (level + 1) (child :: children)⟩

def rereadAll (level : Nat) : List Element → List Element
  | [] => []
  | e :: es => e.reread level :: rereadAll level es

end

/-! ## What is written, as lists of characters -/

theorem toList_newline (level : Nat) :
    (newline level).toList = '\n' :: List.replicate (2 * level) ' ' := by
  simp [newline]

theorem mem_newline {c : Char} {level : Nat} (h : c ∈ (newline level).toList) :
    c = '\n' ∨ c = ' ' := by
  rw [toList_newline, List.mem_cons] at h
  rcases h with rfl | h
  · exact .inl rfl
  · exact .inr (List.eq_of_mem_replicate h)

variable {name text : String} {attrs : List (QName × String)} {level : Nat}

theorem toList_render_empty :
    (Element.render level ⟨{ name }, attrs, "", []⟩).toList =
      '<' :: (name.toList ++ (attrs.flatMap (fun a => (renderAttr a).toList) ++
        [' ', '/', '>'])) := by
  simp [Element.render, String.toList_join, List.flatMap_map]

theorem toList_render_text (h : text.isEmpty = false) :
    (Element.render level ⟨{ name }, attrs, text, []⟩).toList =
      '<' :: (name.toList ++ (attrs.flatMap (fun a => (renderAttr a).toList) ++ '>' ::
        (text.toList.flatMap (fun c => (escapeTextChar c).toList) ++
          '<' :: '/' :: (name.toList ++ ['>'])))) := by
  simp [Element.render, String.toList_join, List.flatMap_map, toList_escapeText, h]

theorem toList_render_children (child : Element) (children : List Element) :
    (Element.render level ⟨{ name }, attrs, text, child :: children⟩).toList =
      '<' :: (name.toList ++ (attrs.flatMap (fun a => (renderAttr a).toList) ++ '>' ::
        ((renderAll (level + 1) (child :: children)).toList ++ ((newline level).toList ++
          '<' :: '/' :: (name.toList ++ ['>']))))) := by
  simp [Element.render, String.toList_join, List.flatMap_map]

theorem Element.Plain.render_head {e : Element} (h : e.Plain) (level : Nat) :
    ∃ c tail, (e.render level).toList = '<' :: c :: tail ∧ isNameStart c = true := by
  obtain @⟨name, attrs, text, children, hname, -, -, -, -⟩ := h
  obtain ⟨c, cs, hcs, hc, -⟩ := isName_cases hname
  cases children with
  | nil =>
    cases hempty : text.isEmpty with
    | true =>
      have htext : text = "" := String.isEmpty_iff.mp hempty
      rw [htext, toList_render_empty, hcs]
      exact ⟨c, _, rfl, hc⟩
    | false =>
      rw [toList_render_text hempty, hcs]
      exact ⟨c, _, rfl, hc⟩
  | cons child children =>
    rw [toList_render_children, hcs]
    exact ⟨c, _, rfl, hc⟩

/-! ## Elements -/

/-- What an open element has taken in after some children were read, each on a line of its own. -/
def OpenElement.adoptAll (level : Nat) (es : List Element) (p : OpenElement) : OpenElement :=
  es.foldl (fun p e => (p.write (newline level).toList).adopt (e.reread level)) p

/-- Only the line end before the first child is kept. -/
theorem OpenElement.adoptAll_of_children (level : Nat) (es : List Element) {p : OpenElement}
    (h : p.children ≠ []) :
    p.adoptAll level es = { p with children := (rereadAll level es).reverse ++ p.children } := by
  induction es generalizing p with
  | nil => rfl
  | cons e es ih =>
    have hwrite : p.write (newline level).toList = p := by
      unfold OpenElement.write
      rw [if_neg (by simpa using h)]
    rw [OpenElement.adoptAll, List.foldl_cons, hwrite]
    refine (ih (p := p.adopt (e.reread level)) (List.cons_ne_nil _ _)).trans ?_
    simp [OpenElement.adopt, rereadAll]

/-- The line end before the first child is kept as text. -/
theorem adoptAll_opened (name : String) (attrs : List (QName × String)) (level : Nat)
    (child : Element) (children : List Element) :
    (opened name attrs).adoptAll level (child :: children) =
      { opened name attrs with
        text := (newline level).toList.reverse
        children := (rereadAll level (child :: children)).reverse } := by
  rw [OpenElement.adoptAll, List.foldl_cons]
  refine (OpenElement.adoptAll_of_children level children
    (p := ((opened name attrs).write (newline level).toList).adopt (child.reread level))
    (List.cons_ne_nil _ _)).trans ?_
  simp [OpenElement.adopt, OpenElement.write, opened, rereadAll]

/-- A line end and indentation before a tag. -/
theorem leads_newline (p : OpenElement) (outer : List OpenElement) (level : Nat)
    (tail : List Char) :
    Leads (inside p outer) ((newline level).toList ++ '<' :: tail)
      (inside (p.write (newline level).toList) outer) ('<' :: tail) := by
  have hplain : normalizeNewlines (newline level).toList = (newline level).toList := by
    refine normalizeNewlines_eq_self fun h => ?_
    rcases mem_newline h with h | h
    · cases h
    · cases h
  have hne : (newline level).toList ≠ [] := by simp [toList_newline]
  have hmarkup : ∀ c ∈ (newline level).toList, c ≠ '<' ∧ c ≠ '&' ∧ c ≠ '>' := by
    intro c hc
    rcases mem_newline hc with rfl | rfl <;> decide
  have hleads := leads_plainText p outer hne hmarkup (.inr ⟨tail, .inl rfl⟩)
  rw [hplain] at hleads
  exact hleads

/-- Reading an element back, whatever follows it. -/
def Rereads (e : Element) : Prop :=
  ∀ (level : Nat) (outer : List OpenElement) (rest : List Char),
    (∀ q, outer.head? = some q → q.bindings = []) →
    Leads { open? := outer } ((e.render level).toList ++ rest)
      (finished (e.reread level) outer) rest

theorem leads_renderAll {es : List Element} (hplain : ∀ e ∈ es, e.Plain)
    (h : ∀ e ∈ es, Rereads e) (level : Nat) {p : OpenElement} (hp : p.bindings = [])
    (outer : List OpenElement) (rest : List Char) :
    Leads (inside p outer) ((renderAll level es).toList ++ rest)
      (inside (p.adoptAll level es) outer) rest := by
  induction es generalizing p with
  | nil => exact Leads.refl _ _
  | cons e es ih =>
    have hwritten : (p.write (newline level).toList).bindings = [] := by
      unfold OpenElement.write
      split
      · exact hp
      · exact hp
    obtain ⟨c, tail, htail, -⟩ := (hplain e (List.mem_cons_self ..)).render_head level
    have hfirst := h e (List.mem_cons_self ..) level (p.write (newline level).toList :: outer)
      ((renderAll level es).toList ++ rest) (fun q hq => Option.some.inj hq ▸ hwritten)
    have hrest := ih (p := (p.write (newline level).toList).adopt (e.reread level))
      (fun d hd => hplain d (List.mem_cons_of_mem _ hd))
      (fun d hd => h d (List.mem_cons_of_mem _ hd)) hwritten
    rw [renderAll, String.toList_append, String.toList_append, List.append_assoc, List.append_assoc]
    rw [htail] at hfirst ⊢
    exact (leads_newline p outer level _).trans (hfirst.trans hrest)

theorem Element.Plain.rereads {e : Element} (h : e.Plain) : Rereads e := by
  induction h with
  | @mk name attrs text children hname hattrs hnodup htext hchildren ih =>
    intro level outer rest houter
    have hend : ∀ p : OpenElement, p.written = { name } →
        Leads (inside p outer) ('<' :: '/' :: (name.toList ++ '>' :: rest))
          (finished p.toElement outer) rest := fun p hp => leads_end hname hp rest
    cases children with
    | nil =>
      cases hempty : text.isEmpty with
      | true =>
        have htext : text = "" := String.isEmpty_iff.mp hempty
        subst htext
        rw [toList_render_empty]
        simp only [List.cons_append, List.append_assoc, List.nil_append]
        exact leads_empty hname hattrs hnodup houter rest
      | false =>
        have hopen := leads_open hname hattrs hnodup houter
          (text.toList.flatMap (fun c => (escapeTextChar c).toList) ++
            '<' :: '/' :: (name.toList ++ '>' :: rest))
        have htext := leads_text (opened name attrs) outer text.toList
          ('/' :: (name.toList ++ '>' :: rest))
        have hreread : ((opened name attrs).write (normalizeNewlines text.toList)).toElement =
            Element.reread level ⟨{ name }, attrs, text, []⟩ := by
          simp [OpenElement.write, OpenElement.toElement, opened, Element.reread, onChars]
        rw [toList_render_text hempty, ← hreread]
        simp only [List.cons_append, List.append_assoc, List.nil_append]
        exact hopen.trans (htext.trans (hend _ rfl))
    | cons child children =>
      have hopen := leads_open hname hattrs hnodup houter
        ((renderAll (level + 1) (child :: children)).toList ++ ((newline level).toList ++
          '<' :: '/' :: (name.toList ++ '>' :: rest)))
      have hbindings : (opened name attrs).bindings = [] := rfl
      have hall := leads_renderAll hchildren ih (level + 1) hbindings outer
        ((newline level).toList ++ '<' :: '/' :: (name.toList ++ '>' :: rest))
      have hnewline := leads_newline ((opened name attrs).adoptAll (level + 1) (child :: children))
        outer level ('/' :: (name.toList ++ '>' :: rest))
      have hreread : (((opened name attrs).adoptAll (level + 1) (child :: children)).write
          (newline level).toList).toElement =
          Element.reread level ⟨{ name }, attrs, text, child :: children⟩ := by
        rw [adoptAll_opened]
        simp [OpenElement.write, OpenElement.toElement, opened, Element.reread, rereadAll]
      have hwritten : (((opened name attrs).adoptAll (level + 1) (child :: children)).write
          (newline level).toList).written = { name } := by
        rw [adoptAll_opened]
        simp [OpenElement.write, opened, rereadAll]
      rw [toList_render_children, ← hreread]
      simp only [List.cons_append, List.append_assoc, List.nil_append]
      exact hopen.trans (hall.trans (hnewline.trans (hend _ hwritten)))

/-! ## Characters of a document -/

theorem isChar_of_isNameChar {c : Char} (h : isNameChar c = true) : isChar c = true := by
  cases hc : isChar c with
  | true => rfl
  | false =>
    -- what a document may not hold is part of no name
    have hbad : c.toNat < 32 ∨ c.toNat = 0xFFFE ∨ c.toNat = 0xFFFF := by
      simp only [isChar, Bool.or_eq_false_iff, Bool.and_eq_false_iff, decide_eq_false_iff_not,
        bne_eq_false_iff_eq] at hc
      omega
    have hlow : ∀ n < 32, isNameChar (Char.ofNat n) = false := by decide
    have hc : isNameChar (Char.ofNat c.toNat) = true := by rw [Char.ofNat_toNat, h]
    rcases hbad with hlt | he | he
    · rw [hlow _ hlt] at hc
      cases hc
    · rw [he] at hc
      exact absurd hc (by decide)
    · rw [he] at hc
      exact absurd hc (by decide)

theorem all_isChar_of_isName {cs : List Char} (h : isName cs = true) : cs.all isChar = true := by
  obtain ⟨c, rest, rfl, hc, hrest⟩ := isName_cases h
  rw [List.all_eq_true]
  intro d hd
  rcases List.mem_cons.mp hd with rfl | hd
  · refine isChar_of_isNameChar ?_
    rw [isNameChar, hc, Bool.true_or]
  · exact isChar_of_isNameChar (hrest d hd)

theorem all_isChar_escapeTextChar {c : Char} (h : isChar c = true) :
    (escapeTextChar c).toList.all isChar = true := by
  cases hc : isEscaped c with
  | true =>
    rcases isEscaped_cases hc with rfl | rfl | rfl <;> decide
  | false => rw [toList_escapeTextChar hc, List.all_cons, h, List.all_nil, Bool.and_true]

theorem all_isChar_escapeAttrChar {c : Char} (h : isChar c = true) :
    (escapeAttrChar c).toList.all isChar = true := by
  revert h
  refine escapeAttrChar_cases (P := fun c =>
    isChar c = true → (escapeAttrChar c).toList.all isChar = true) ?_ ?_ ?_ ?_ ?_ ?_ ?_ ?_ c
  all_goals try exact fun _ => by decide
  intro c _ _ _ _ _ _ _ hescape _ h
  rw [hescape, List.all_cons, h, List.all_nil, Bool.and_true]

theorem all_isChar_renderAttr {attr : QName × String} (h : Attr.Plain attr) :
    (renderAttr attr).toList.all isChar = true := by
  have hvalue : (escapeAttr attr.2).toList.all isChar = true := by
    rw [toList_escapeAttr, List.all_flatMap, List.all_eq_true]
    exact fun c hc => all_isChar_escapeAttrChar (h.value c hc)
  rw [toList_renderAttr]
  simp only [List.all_cons, List.all_append, all_isChar_of_isName h.isName, hvalue, List.all_nil,
    Bool.true_and, Bool.and_true]
  decide

theorem all_isChar_newline (level : Nat) : (newline level).toList.all isChar = true := by
  rw [List.all_eq_true]
  intro c hc
  rcases mem_newline hc with rfl | rfl <;> decide

/-- A plain element is written with characters that documents may hold. -/
theorem Element.Plain.all_isChar {e : Element} (h : e.Plain) :
    ∀ level, (e.render level).toList.all isChar = true := by
  induction h with
  | @mk name attrs text children hname hattrs hnodup htext hchildren ih =>
    intro level
    have hn := all_isChar_of_isName hname
    have ha : (attrs.flatMap (fun a => (renderAttr a).toList)).all isChar = true := by
      rw [List.all_flatMap, List.all_eq_true]
      exact fun a ha => all_isChar_renderAttr (hattrs a ha)
    have ht : (text.toList.flatMap (fun c => (escapeTextChar c).toList)).all isChar = true := by
      rw [List.all_flatMap, List.all_eq_true]
      exact fun c hc => all_isChar_escapeTextChar (htext c hc)
    have hall : ∀ es : List Element, (∀ e ∈ es, ∀ level, (e.render level).toList.all isChar = true) →
        ∀ level, (renderAll level es).toList.all isChar = true := by
      intro es hes level
      induction es with
      | nil => rfl
      | cons e es ihes =>
        have he := hes e (List.mem_cons_self ..) level
        have hrest := ihes fun d hd => hes d (List.mem_cons_of_mem _ hd)
        simp only [renderAll, String.toList_append, List.all_append, all_isChar_newline, he, hrest,
          Bool.and_true]
    cases children with
    | nil =>
      cases hempty : text.isEmpty with
      | true =>
        have htext : text = "" := String.isEmpty_iff.mp hempty
        subst htext
        rw [toList_render_empty]
        simp only [List.all_cons, List.all_append, hn, ha, List.all_nil]
        decide
      | false =>
        rw [toList_render_text hempty]
        simp only [List.all_cons, List.all_append, hn, ha, ht, List.all_nil]
        decide
    | cons child children =>
      rw [toList_render_children]
      simp only [List.all_cons, List.all_append, hn, ha, hall _ ih, all_isChar_newline, List.all_nil]
      decide

/-! ## Documents -/

theorem readSetting?_version (rest : List Char) :
    readSetting? "version"
      ([' ', 'v', 'e', 'r', 's', 'i', 'o', 'n', '=', '"', '1', '.', '0', '"'] ++ rest) =
      some (['1', '.', '0'], rest) := rfl

/-- The first line of a document, which declares its version and its encoding. -/
def documentHead : List Char :=
  ['<', '?', 'x', 'm', 'l'] ++
    ([' ', 'v', 'e', 'r', 's', 'i', 'o', 'n', '=', '"', '1', '.', '0', '"'] ++
      ([' ', 'e', 'n', 'c', 'o', 'd', 'i', 'n', 'g', '=', '"', 'U', 'T', 'F', '-', '8', '"'] ++
        ['?', '>', '\n']))

theorem toList_toDocument (e : Element) :
    e.toDocument.toList = documentHead ++ ((e.render 0).toList ++ ['\n']) := by
  have hhead : "<?xml version=\"1.0\" encoding=\"UTF-8\"?>\n".toList = documentHead := by
    simp [documentHead]
  have hlast : "\n".toList = ['\n'] := rfl
  unfold Element.toDocument
  simp only [String.toList_append, List.append_assoc, hhead, hlast]

/-- Nothing but the first line stands before a tag with a name. -/
theorem readProlog?_documentHead {c : Char} (h : isNameStart c = true) (rest : List Char) :
    readProlog? (documentHead ++ '<' :: c :: rest) = some ({}, '<' :: c :: rest) := by
  have hne := ne_of_isNameStart h
  have hkeyword : ∀ rest, readKeyword? "<?xml" (['<', '?', 'x', 'm', 'l'] ++ rest) = some rest :=
    fun _ => rfl
  have hencoding : ∀ rest, readSetting? "encoding"
      ([' ', 'e', 'n', 'c', 'o', 'd', 'i', 'n', 'g', '=', '"', 'U', 'T', 'F', '-', '8', '"'] ++
        rest) = some (['U', 'T', 'F', '-', '8'], rest) := fun _ => rfl
  have hstandalone : ∀ rest, readSetting? "standalone" ('?' :: rest) = none := fun _ => rfl
  have hclose : ∀ rest, readKeyword? "?>" (skipSpace ('?' :: '>' :: rest)) = some rest :=
    fun _ => rfl
  have hdeclaration : readDeclaration?
      ([' ', 'v', 'e', 'r', 's', 'i', 'o', 'n', '=', '"', '1', '.', '0', '"'] ++
        ([' ', 'e', 'n', 'c', 'o', 'd', 'i', 'n', 'g', '=', '"', 'U', 'T', 'F', '-', '8', '"'] ++
          (['?', '>', '\n'] ++ '<' :: c :: rest))) = some (false, '\n' :: '<' :: c :: rest) := by
    unfold readDeclaration?
    rw [readSetting?_version]
    simp only [Option.bind_eq_bind, Option.bind_some, hencoding]
    rw [if_pos (by decide)]
    simp only [List.cons_append, List.nil_append, hstandalone, hclose, Option.bind_some]
    rfl
  have hmisc : readMany readMisc? ('\n' :: '<' :: c :: rest) = some ([], (), '<' :: c :: rest) := by
    have htag : readMisc? ('<' :: c :: rest) = some (.finish () ('<' :: c :: rest)) := by
      unfold readMisc?
      split
      · rename_i he
        exact absurd (List.cons.inj (List.cons.inj he).2).1 (hne _ rfl)
      · rename_i he
        exact absurd (List.cons.inj (List.cons.inj he).2).1 (hne _ rfl)
      · rename_i he
        cases he
        rfl
      · rename_i he
        cases he
    have hspace : readMisc? ('\n' :: '<' :: c :: rest) = some (.items [] ('<' :: c :: rest)) := rfl
    exact readMany_items hspace (by simp) (readMany_finish htag)
  have hdoctype : readKeyword? "<!DOCTYPE" ('<' :: c :: rest) = none := by
    have hbang : ('!' == c) = false := beq_eq_false_iff_ne.mpr (hne '!' rfl).symm
    have hlist : "<!DOCTYPE".toList = ['<', '!', 'D', 'O', 'C', 'T', 'Y', 'P', 'E'] := rfl
    rw [readKeyword?, hlist]
    simp [List.isPrefixOf?, hbang]
  unfold readProlog?
  rw [documentHead, List.append_assoc, List.append_assoc, List.append_assoc, hkeyword]
  dsimp only
  rw [if_neg (by simp [isNameChar, isNameStart, isAsciiLetter, isAsciiDigit]), hdeclaration]
  simp only [hmisc, hdoctype, Option.bind_eq_bind, Option.bind_some]
  rfl

/-- After the root element there is only a line end. -/
theorem content?_newline (e : Element) : content? (finished e []) ['\n'] = some e := by
  have htokens : tokens? ['\n'] = some [.text ['\n'] true] := rfl
  have hspace : ['\n'].all isSpace = true := rfl
  simp only [content?, htokens, Option.bind_some, Entities.expand?, Option.map_some, build?,
    finished, addText?, hspace, Bool.and_self, if_true, List.isEmpty_nil]

/-- A document is read back as the element it was written for, with the line ends of its text
rewritten and the indentation of children as text. -/
theorem Element.Plain.parse?_toDocument {e : Element} (h : e.Plain) :
    parse? e.toDocument = some (e.reread 0) := by
  have hchars : e.toDocument.toList.all isChar = true := by
    rw [toList_toDocument, List.all_append, List.all_append, h.all_isChar 0]
    decide
  have hcontent := h.rereads 0 [] ['\n'] nofun _ (content?_newline _)
  obtain ⟨c, tail, htail, hc⟩ := h.render_head 0
  have hprolog := readProlog?_documentHead hc (tail ++ ['\n'])
  have hbody : (e.render 0).toList ++ ['\n'] = '<' :: c :: (tail ++ ['\n']) := by
    rw [htail]
    rfl
  have hmark : withoutMark e.toDocument.toList = e.toDocument.toList := by
    rw [toList_toDocument]
    rfl
  unfold parse?
  dsimp only
  rw [hmark, if_pos hchars, toList_toDocument, hbody, hprolog]
  rw [hbody, content?, Option.bind_assoc] at hcontent
  exact hcontent

end HeaderDocs.Xml
