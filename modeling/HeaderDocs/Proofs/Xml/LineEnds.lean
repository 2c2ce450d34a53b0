import HeaderDocs.Proofs.Xml.RoundTrip

/-!
# Documents with other line ends

A document whose line ends are rewritten is the document of an element whose texts have their line
ends rewritten. It is read back as before.

* `Element.Plain.rewritesLineEnds`: rewriting line ends in what is written for an element.
* `Element.Plain.parse?_normalizeNewlines`: a whole document.
-/
namespace HeaderDocs.Xml

open HeaderDocs.Text

mutual

def Element.withLineFeeds : Element → Element
  | ⟨name, attrs, text, children⟩ =>
    ⟨name, attrs, onChars normalizeNewlines text, withLineFeedsAll children⟩

def withLineFeedsAll : List Element → List Element
  | [] => []
  | e :: es => e.withLineFeeds :: withLineFeedsAll es

end

theorem mem_withLineFeedsAll {e : Element} {es : List Element} (h : e ∈ withLineFeedsAll es) :
    ∃ e' ∈ es, e = e'.withLineFeeds := by
  induction es with
  | nil => cases h
  | cons e' es ih =>
    rcases List.mem_cons.mp h with rfl | h
    · exact ⟨e', List.mem_cons_self .., rfl⟩
    · obtain ⟨e'', he'', rfl⟩ := ih h
      exact ⟨e'', List.mem_cons_of_mem _ he'', rfl⟩

theorem Element.Plain.withLineFeeds {e : Element} (h : e.Plain) : e.withLineFeeds.Plain := by
  induction h with
  | @mk name attrs text children hname hattrs hnodup htext hchildren ih =>
    refine .mk hname hattrs hnodup ?_ ?_
    · intro c hc
      rw [toList_onChars] at hc
      rcases mem_normalizeNewlines hc with rfl | hc
      · decide
      · exact htext c hc
    · intro e he
      obtain ⟨e', he', rfl⟩ := mem_withLineFeedsAll he
      exact ih e' he'

theorem rereadAll_withLineFeedsAll {es : List Element} {level : Nat}
    (h : ∀ e ∈ es, e.withLineFeeds.reread level = e.reread level) :
    rereadAll level (withLineFeedsAll es) = rereadAll level es := by
  induction es with
  | nil => rfl
  | cons e es ih =>
    rw [List.forall_mem_cons] at h
    simp only [withLineFeedsAll, rereadAll, h.1, ih h.2]

/-- What is read back has line feeds only. -/
theorem reread_withLineFeeds : ∀ (e : Element) (level : Nat),
    e.withLineFeeds.reread level = e.reread level
  | ⟨name, attrs, text, children⟩, level => by
    cases children with
    | nil =>
      simp only [Element.withLineFeeds, withLineFeedsAll, Element.reread, onChars, String.toList_ofList,
        normalizeNewlines_idem]
    | cons child children =>
      have hall := @rereadAll_withLineFeedsAll (child :: children) (level + 1) fun e _ =>
        reread_withLineFeeds e (level + 1)
      rw [withLineFeedsAll] at hall
      simp only [Element.withLineFeeds, withLineFeedsAll, Element.reread, hall]

/-! ## Writing with line feeds -/

/-- A part without carriage returns stays. -/
theorem normalizeNewlines_append_of_notMem {cs : List Char} (h : '\r' ∉ cs) (ds : List Char) :
    normalizeNewlines (cs ++ ds) = cs ++ normalizeNewlines ds := by
  induction cs with
  | nil => rfl
  | cons c cs ih =>
    rw [List.mem_cons, not_or] at h
    rw [List.cons_append, normalizeNewlines_cons (Ne.symm h.1), ih h.2, List.cons_append]

theorem normalizeNewlines_eq_nil {cs : List Char} (h : normalizeNewlines cs = []) : cs = [] := by
  cases cs with
  | nil => rfl
  | cons c cs =>
    by_cases hc : c = '\r'
    · rw [hc, normalizeNewlines_cr] at h
      cases h
    · rw [normalizeNewlines_cons hc] at h
      cases h

theorem cr_notMem_escapeTextChar {c : Char} (h : c ≠ '\r') : '\r' ∉ (escapeTextChar c).toList := by
  cases he : isEscaped c with
  | true => rcases isEscaped_cases he with rfl | rfl | rfl <;> decide
  | false =>
    rw [toList_escapeTextChar he, List.mem_singleton]
    exact Ne.symm h

/-- Only what starts with a line feed is written with a line feed first. -/
theorem head?_escape_ne {cs : List Char} (h : ∀ rest, cs = '\n' :: rest → False) :
    (cs.flatMap fun c => (escapeTextChar c).toList).head? ≠ some '\n' := by
  cases cs with
  | nil =>
    intro he
    cases he
  | cons c cs =>
    cases hc : isEscaped c with
    | true =>
      obtain ⟨tail, htail⟩ := escapeTextChar_head hc
      rw [List.flatMap_cons, htail]
      intro he
      cases he
    | false =>
      rw [List.flatMap_cons, toList_escapeTextChar hc]
      simp only [List.cons_append, List.head?_cons]
      rintro ⟨⟩
      exact h cs rfl

theorem normalizeNewlines_escape (cs : List Char) :
    normalizeNewlines (cs.flatMap fun c => (escapeTextChar c).toList) =
      (normalizeNewlines cs).flatMap fun c => (escapeTextChar c).toList := by
  induction cs using normalizeNewlines.induct with
  | case1 => rfl
  | case2 cs ih =>
    rw [normalizeNewlines, List.flatMap_cons, List.flatMap_cons, List.flatMap_cons, ← ih]
    rfl
  | case3 cs hcs ih =>
    rw [normalizeNewlines, List.flatMap_cons, List.flatMap_cons, ← ih]
    · rw [show (escapeTextChar '\r').toList = ['\r'] from rfl, List.singleton_append,
        normalizeNewlines_cr, if_neg (head?_escape_ne hcs)]
      rfl
    · exact hcs
  | case4 c cs _ hc ih =>
    have hne : c ≠ '\r' := fun he => hc he
    rw [normalizeNewlines_cons hne, List.flatMap_cons, List.flatMap_cons, ← ih]
    exact normalizeNewlines_append_of_notMem (cr_notMem_escapeTextChar hne) _

theorem cr_notMem_of_isName {cs : List Char} (h : isName cs = true) : '\r' ∉ cs := by
  intro hmem
  obtain ⟨c, rest, rfl, hc, hrest⟩ := isName_cases h
  rcases List.mem_cons.mp hmem with rfl | hmem
  · exact absurd hc (by decide)
  · exact absurd (hrest _ hmem) (by decide)

theorem cr_notMem_renderAttr {attr : QName × String} (h : Attr.Plain attr) :
    '\r' ∉ (renderAttr attr).toList := by
  have hvalue : '\r' ∉ (escapeAttr attr.2).toList := by
    intro hmem
    rw [toList_escapeAttr] at hmem
    obtain ⟨c, -, hc⟩ := List.mem_flatMap.mp hmem
    exact (mem_escapeAttrChar hc).2.2 rfl
  rw [toList_renderAttr]
  simp [cr_notMem_of_isName h.isName, hvalue]

theorem cr_notMem_tag {name : String} {attrs : List (QName × String)}
    (hname : isName name.toList = true) (hattrs : ∀ a ∈ attrs, Attr.Plain a) :
    '\r' ∉ '<' :: (name.toList ++ attrs.flatMap fun a => (renderAttr a).toList) := by
  have hall : '\r' ∉ attrs.flatMap fun a => (renderAttr a).toList := by
    intro hmem
    obtain ⟨a, ha, hmem⟩ := List.mem_flatMap.mp hmem
    exact cr_notMem_renderAttr (hattrs a ha) hmem
  simp [cr_notMem_of_isName hname, hall]

/-- Rewriting the line ends of what is written for an element, whatever follows it. -/
def RewritesLineEnds (e : Element) : Prop :=
  ∀ (level : Nat) (rest : List Char), normalizeNewlines ((e.render level).toList ++ rest) =
    (e.withLineFeeds.render level).toList ++ normalizeNewlines rest

theorem cr_notMem_newline (level : Nat) : '\r' ∉ (newline level).toList := by
  intro hmem
  rcases mem_newline hmem with h | h
  · cases h
  · cases h

theorem normalizeNewlines_renderAll {es : List Element} (h : ∀ e ∈ es, RewritesLineEnds e)
    (level : Nat) (rest : List Char) :
    normalizeNewlines ((renderAll level es).toList ++ rest) =
      (renderAll level (withLineFeedsAll es)).toList ++ normalizeNewlines rest := by
  induction es with
  | nil => rfl
  | cons e es ih =>
    have hfirst := h e (List.mem_cons_self ..)
    have hrest := ih fun d hd => h d (List.mem_cons_of_mem _ hd)
    simp only [withLineFeedsAll, renderAll, String.toList_append, List.append_assoc]
    rw [normalizeNewlines_append_of_notMem (cr_notMem_newline level), hfirst, hrest]

theorem Element.Plain.rewritesLineEnds {e : Element} (h : e.Plain) : RewritesLineEnds e := by
  induction h with
  | @mk name attrs text children hname hattrs hnodup htext hchildren ih =>
    intro level rest
    have hopen : ∀ d ds, d ≠ '\r' →
        normalizeNewlines ('<' :: (name.toList ++
          (attrs.flatMap (fun a => (renderAttr a).toList) ++ d :: ds))) =
        '<' :: (name.toList ++ (attrs.flatMap (fun a => (renderAttr a).toList) ++
          d :: normalizeNewlines ds)) := by
      intro d ds hd
      have := normalizeNewlines_append_of_notMem (cr_notMem_tag hname hattrs) (d :: ds)
      rw [normalizeNewlines_cons hd] at this
      simpa using this
    have hclose : normalizeNewlines ('<' :: '/' :: (name.toList ++ '>' :: rest)) =
        '<' :: '/' :: (name.toList ++ '>' :: normalizeNewlines rest) := by
      rw [normalizeNewlines_cons (by decide), normalizeNewlines_cons (by decide),
        normalizeNewlines_append_of_notMem (cr_notMem_of_isName hname),
        normalizeNewlines_cons (by decide)]
    cases children with
    | nil =>
      cases hempty : text.isEmpty with
      | true =>
        obtain rfl : text = "" := String.isEmpty_iff.mp hempty
        have hfeeds : Element.withLineFeeds ⟨{ name }, attrs, "", []⟩ = ⟨{ name }, attrs, "", []⟩ :=
          rfl
        rw [hfeeds, toList_render_empty]
        simp only [List.cons_append, List.append_assoc, List.nil_append]
        rw [hopen _ _ (by decide), normalizeNewlines_cons (by decide),
          normalizeNewlines_cons (by decide)]
      | false =>
        have hfeeds : (onChars normalizeNewlines text).isEmpty = false := by
          rw [Bool.eq_false_iff, ne_eq, String.isEmpty_iff] at hempty ⊢
          intro he
          have hnil : normalizeNewlines text.toList = [] := by
            have := toList_onChars normalizeNewlines text
            rw [he] at this
            exact this.symm
          exact hempty (String.toList_eq_nil_iff.mp (normalizeNewlines_eq_nil hnil))
        rw [Element.withLineFeeds, withLineFeedsAll, toList_render_text hempty,
          toList_render_text hfeeds, toList_onChars]
        simp only [List.cons_append, List.append_assoc, List.nil_append]
        rw [hopen _ _ (by decide), normalizeNewlines_append _ (by simp), normalizeNewlines_escape,
          hclose]
    | cons child children =>
      have hall := normalizeNewlines_renderAll ih (level + 1)
        ((newline level).toList ++ '<' :: '/' :: (name.toList ++ '>' :: rest))
      rw [withLineFeedsAll] at hall
      rw [Element.withLineFeeds, withLineFeedsAll, toList_render_children, toList_render_children]
      simp only [List.cons_append, List.append_assoc, List.nil_append]
      rw [hopen _ _ (by decide), hall, normalizeNewlines_append_of_notMem (cr_notMem_newline level),
        hclose]

/-- A document with other line ends is read back all the same. -/
theorem Element.Plain.parse?_normalizeNewlines {e : Element} (h : e.Plain) :
    parse? (onChars normalizeNewlines e.toDocument) = some (e.reread 0) := by
  have hhead : '\r' ∉ documentHead := by decide
  have hlist : normalizeNewlines e.toDocument.toList = e.withLineFeeds.toDocument.toList := by
    rw [toList_toDocument, toList_toDocument,
      normalizeNewlines_append_of_notMem hhead, h.rewritesLineEnds]
    rfl
  rw [onChars, hlist, String.ofList_toList, h.withLineFeeds.parse?_toDocument,
    reread_withLineFeeds]

end HeaderDocs.Xml
