import HeaderDocs.Proofs.Text.Newline
import HeaderDocs.Proofs.Text.Occurrence
import HeaderDocs.Proofs.Xml.Tag
import HeaderDocs.Xml.Document
import Mathlib.Data.List.Basic

/-!
# Content is read back

`Leads b cs b' rest` says that reading the content `cs` from the builder `b` on comes down to reading
`rest` from `b'` on. It composes, so that what is written for an element is followed piece by piece.

* `Leads.items`: what one reading of a token contributes.
* `leads_text`: escaped text before a tag.
* `leads_open`, `leads_empty`, `leads_end`: tags.
-/
namespace HeaderDocs.Xml

open HeaderDocs.Text

/-- The root element that is read from content, where some elements are open already. -/
def content? (b : Builder) (cs : List Char) : Option Element :=
  ((tokens? cs).bind (({} : Entities).expand? 0)).bind (build? {} · b)

/-- Reading the content comes down to reading the rest from another builder on. -/
def Leads (b : Builder) (cs : List Char) (b' : Builder) (rest : List Char) : Prop :=
  ∀ e, content? b' rest = some e → content? b cs = some e

namespace Leads

variable {b b' b'' : Builder} {cs rest tail : List Char}

theorem refl (b : Builder) (cs : List Char) : Leads b cs b cs := fun _ h => h

theorem trans (h : Leads b cs b' rest) (h' : Leads b' rest b'' tail) : Leads b cs b'' tail :=
  fun e he => h e (h' e he)

/-- Tokens that are read, expanded and built at once. -/
theorem items {tokens : List Token} (expanded : List Token)
    (hread : readToken? cs = some (.items tokens rest))
    (hlt : rest.length < cs.length)
    (hexpand : ∀ more more', ({} : Entities).expand? 0 more = some more' →
      ({} : Entities).expand? 0 (tokens ++ more) = some (expanded ++ more'))
    (hbuild : ∀ more, build? {} (expanded ++ more) b = build? {} more b') :
    Leads b cs b' rest := by
  intro e he
  unfold content? at he ⊢
  obtain ⟨more', hmore', he⟩ := Option.bind_eq_some_iff.mp he
  obtain ⟨more, hmore, hexp⟩ := Option.bind_eq_some_iff.mp hmore'
  obtain ⟨⟨found, last, after⟩, hfound, rfl⟩ := Option.map_eq_some_iff.mp hmore
  have htokens : tokens? cs = some (tokens ++ found) := by
    simp only [tokens?, readMany_items hread hlt hfound, Option.map_some]
  rw [htokens, Option.bind_some, hexpand _ _ hexp, Option.bind_some, hbuild]
  exact he

end Leads

/-! ## Text -/

/-- Text without markup is one token, up to the next tag or reference. -/
theorem readToken?_text {cs : List Char} (hne : cs ≠ [])
    (h : ∀ c ∈ cs, c ≠ '<' ∧ c ≠ '&' ∧ c ≠ '>') {rest : List Char}
    (hrest : rest = [] ∨ ∃ tail, rest = '<' :: tail ∨ rest = '&' :: tail) :
    readToken? (cs ++ rest) = some (.items [.text (normalizeNewlines cs) true] rest) := by
  have hstop : rest.takeWhile (fun c => c != '<' && c != '&') = [] := by
    rcases hrest with rfl | ⟨tail, rfl | rfl⟩
    · rfl
    · rfl
    · rfl
  have htake : (cs ++ rest).takeWhile (fun c => c != '<' && c != '&') = cs := by
    rw [List.takeWhile_append_of_pos, hstop, List.append_nil]
    intro c hc
    simp [(h c hc).1, (h c hc).2.1]
  have htext : readText? (cs ++ rest) =
      some (.items [.text (normalizeNewlines cs) true] rest) := by
    have hcontains : contains [']', ']', '>'] cs = false :=
      contains_eq_false (c := '>') (by decide) fun hc => (h _ hc).2.2 rfl
    simp only [readText?, htake, hcontains, Bool.false_eq_true, if_false, List.drop_left]
  obtain ⟨c, cs, rfl⟩ := List.exists_cons_of_ne_nil hne
  obtain ⟨hlt, hamp, -⟩ := h c (List.mem_cons_self ..)
  rw [List.cons_append] at htext ⊢
  unfold readToken?
  split
  · rename_i he
    cases he
  · rename_i he
    exact absurd (List.cons.inj he).1 hlt
  · rename_i he
    exact absurd (List.cons.inj he).1 hlt
  · rename_i he
    exact absurd (List.cons.inj he).1 hlt
  · rename_i he
    exact absurd (List.cons.inj he).1 hlt
  · rename_i he
    exact absurd (List.cons.inj he).1 hlt
  · rename_i he
    exact absurd (List.cons.inj he).1 hamp
  · exact htext

/-! ## Open elements -/

/-- A builder in which an element is open. -/
abbrev inside (p : OpenElement) (outer : List OpenElement) : Builder := { open? := p :: outer }

namespace OpenElement

/-- An element with more text, which is kept only before its first child. -/
def write (cs : List Char) (p : OpenElement) : OpenElement :=
  if p.children.isEmpty then { p with text := cs.reverse ++ p.text } else p

/-- An element with one more child. -/
def adopt (child : Element) (p : OpenElement) : OpenElement :=
  { p with children := child :: p.children }

theorem write_nil (p : OpenElement) : p.write [] = p := by
  unfold write
  split <;> rfl

theorem write_append (cs ds : List Char) (p : OpenElement) :
    p.write (cs ++ ds) = (p.write cs).write ds := by
  unfold write
  by_cases h : p.children.isEmpty = true
  · simp [h]
  · simp [h]

end OpenElement

variable {p : OpenElement} {outer : List OpenElement}

theorem addText?_inside (cs : List Char) (plain : Bool) :
    addText? cs plain (inside p outer) = some (inside (p.write cs) outer) := by
  simp only [addText?, OpenElement.write]
  split <;> rfl

theorem build?_text (cs : List Char) (plain : Bool) (more : List Token) :
    build? {} (.text cs plain :: more) (inside p outer) =
      build? {} more (inside (p.write cs) outer) := by
  rw [build?]
  simp only [addText?_inside]

variable (p outer)

theorem leads_plainText {cs : List Char} (hne : cs ≠ [])
    (h : ∀ c ∈ cs, c ≠ '<' ∧ c ≠ '&' ∧ c ≠ '>') {rest : List Char}
    (hrest : rest = [] ∨ ∃ tail, rest = '<' :: tail ∨ rest = '&' :: tail) :
    Leads (inside p outer) (cs ++ rest) (inside (p.write (normalizeNewlines cs)) outer) rest := by
  refine Leads.items [.text (normalizeNewlines cs) true] (readToken?_text hne h hrest) ?_ ?_ ?_
  · have := List.length_pos_of_ne_nil hne
    rw [List.length_append]
    omega
  · intro more more' hmore
    simp only [List.singleton_append, Entities.expand?, hmore, Option.map_some]
  · intro more
    exact build?_text _ _ more

theorem leads_reference {c : Char} (name : List Char)
    (hescape : (escapeTextChar c).toList = '&' :: (name ++ [';']))
    (hname : isName name = true) (hpre : Entities.predefined? name = some c) (rest : List Char) :
    Leads (inside p outer) ((escapeTextChar c).toList ++ rest) (inside (p.write [c]) outer) rest := by
  obtain ⟨n, ns, rfl, hn, -⟩ := isName_cases hname
  have hread : readToken? ((escapeTextChar c).toList ++ rest) =
      some (.items [.entity (n :: ns)] rest) := by
    have hreference : readReference? (n :: (ns ++ ';' :: rest)) =
        some (.entity (n :: ns), rest) := by
      have hreadName := readName?_append hname (d := ';') rfl rest
      rw [List.cons_append] at hreadName
      unfold readReference?
      split
      · rename_i he
        rw [(List.cons.inj he).1] at hn
        cases hn
      · rename_i he
        rw [(List.cons.inj he).1] at hn
        cases hn
      · simp only [hreadName]
    rw [hescape, List.cons_append, List.append_assoc, List.cons_append, List.singleton_append,
      readToken?, hreference]
    rfl
  refine Leads.items [.text [] false, .text [c] false] hread ?_ ?_ ?_
  · rw [hescape]
    simp only [List.length_append, List.length_cons]
    omega
  · intro more more' hmore
    have htokens : ({} : Entities).entityTokens? 0 (n :: ns) = some [.text [c] false] := by
      rw [Entities.entityTokens?, hpre]
      intro _ _ _ hdepth
      cases hdepth
    simp only [Entities.expand?, htokens, hmore, Option.map_some,
      List.cons_append, List.nil_append]
  · intro more
    rw [List.cons_append, List.singleton_append, build?_text, build?_text, OpenElement.write_nil]

/-- Whether a character is written as a reference in text. -/
def isEscaped (c : Char) : Bool := c == '&' || c == '<' || c == '>'

theorem isEscaped_cases {c : Char} (h : isEscaped c = true) : c = '&' ∨ c = '<' ∨ c = '>' := by
  simpa only [isEscaped, Bool.or_eq_true, beq_iff_eq, or_assoc] using h

theorem leads_escaped {c : Char} (h : isEscaped c = true) (rest : List Char) :
    Leads (inside p outer) ((escapeTextChar c).toList ++ rest) (inside (p.write [c]) outer) rest := by
  rcases isEscaped_cases h with rfl | rfl | rfl
  · exact leads_reference p outer ['a', 'm', 'p'] rfl rfl rfl rest
  · exact leads_reference p outer ['l', 't'] rfl rfl rfl rest
  · exact leads_reference p outer ['g', 't'] rfl rfl rfl rest

theorem toList_escapeTextChar {c : Char} (h : isEscaped c = false) :
    (escapeTextChar c).toList = [c] := by
  simp only [isEscaped, Bool.or_eq_false_iff, beq_eq_false_iff_ne] at h
  unfold escapeTextChar
  split
  · exact absurd rfl h.1.1
  · exact absurd rfl h.1.2
  · exact absurd rfl h.2
  · exact String.toList_singleton c

theorem flatMap_escapeTextChar {cs : List Char} (h : ∀ c ∈ cs, isEscaped c = false) :
    cs.flatMap (fun c => (escapeTextChar c).toList) = cs := by
  induction cs with
  | nil => rfl
  | cons c cs ih =>
    rw [List.flatMap_cons, toList_escapeTextChar (h c (List.mem_cons_self ..)),
      ih fun d hd => h d (List.mem_cons_of_mem _ hd), List.singleton_append]

/-- A run of text without markup, which may be empty. -/
theorem leads_run {cs : List Char} (h : ∀ c ∈ cs, isEscaped c = false) {rest : List Char}
    (hrest : ∃ tail, rest = '<' :: tail ∨ rest = '&' :: tail) :
    Leads (inside p outer) (cs ++ rest) (inside (p.write (normalizeNewlines cs)) outer) rest := by
  cases cs with
  | nil =>
    rw [normalizeNewlines, OpenElement.write_nil]
    exact Leads.refl _ _
  | cons c cs =>
    refine leads_plainText p outer (List.cons_ne_nil _ _) ?_ (.inr hrest)
    intro d hd
    have hesc := h d hd
    simp only [isEscaped, Bool.or_eq_false_iff, beq_eq_false_iff_ne] at hesc
    exact ⟨hesc.1.2, hesc.1.1, hesc.2⟩

theorem escapeTextChar_head {c : Char} (h : isEscaped c = true) :
    ∃ tail, (escapeTextChar c).toList = '&' :: tail := by
  rcases isEscaped_cases h with rfl | rfl | rfl
  · exact ⟨_, rfl⟩
  · exact ⟨_, rfl⟩
  · exact ⟨_, rfl⟩

theorem ne_of_isEscaped {c d : Char} (h : isEscaped c = true) (hd : isEscaped d = false) :
    c ≠ d := by
  rintro rfl
  rw [h] at hd
  cases hd

/-- Escaped text before a tag is read as the text, with all line ends written as line feeds. -/
theorem leads_text (cs tail : List Char) :
    Leads (inside p outer) (cs.flatMap (fun c => (escapeTextChar c).toList) ++ '<' :: tail)
      (inside (p.write (normalizeNewlines cs)) outer) ('<' :: tail) := by
  -- a run of characters that are written as themselves, and then perhaps a reference
  induction hn : cs.length using Nat.strongRecOn generalizing cs p with
  | ind n ih =>
    obtain ⟨run, rest, hcs, hrun, hrest⟩ : ∃ run rest, cs = run ++ rest ∧
        (∀ c ∈ run, isEscaped c = false) ∧ ∀ c, rest.head? = some c → isEscaped c = true := by
      refine ⟨cs.takeWhile (!isEscaped ·), cs.dropWhile (!isEscaped ·),
        (List.takeWhile_append_dropWhile ..).symm, ?_, ?_⟩
      · intro c hc
        simpa using List.mem_takeWhile_imp hc
      · intro c hc
        have := List.head?_dropWhile_not (!isEscaped ·) cs
        rw [hc] at this
        simpa using this
    subst hcs
    rw [List.flatMap_append, flatMap_escapeTextChar hrun, List.append_assoc]
    cases rest with
    | nil =>
      rw [List.flatMap_nil, List.nil_append, List.append_nil]
      exact leads_run p outer hrun ⟨tail, .inl rfl⟩
    | cons c rest =>
      have hc := hrest c rfl
      obtain ⟨more, hmore⟩ := escapeTextChar_head hc
      have hwrite : p.write (normalizeNewlines (run ++ c :: rest)) =
          ((p.write (normalizeNewlines run)).write [c]).write (normalizeNewlines rest) := by
        have hlf : (c :: rest).head? ≠ some '\n' := by
          simpa using ne_of_isEscaped hc rfl
        rw [normalizeNewlines_append run hlf, normalizeNewlines_cons (ne_of_isEscaped hc rfl),
          ← List.singleton_append, OpenElement.write_append, OpenElement.write_append]
      have hlt : rest.length < n := by
        rw [← hn, List.length_append, List.length_cons]
        omega
      rw [hwrite, List.flatMap_cons, List.append_assoc]
      have hescaped := leads_escaped (p.write (normalizeNewlines run)) outer hc
        (rest.flatMap (fun c => (escapeTextChar c).toList) ++ '<' :: tail)
      rw [hmore] at hescaped ⊢
      exact (leads_run p outer hrun ⟨_, .inr rfl⟩).trans (hescaped.trans (ih _ hlt _ rest rfl))

variable {p outer}

/-! ## Tags -/

/-- The element that a start tag opens. -/
def opened (name : String) (attrs : List (QName × String)) : OpenElement :=
  { written := { name }, name := { name }, attrs, bindings := [] }

theorem mapM_eq_some {α β : Type} {f : α → Option β} {g : α → β} {l : List α}
    (h : ∀ a ∈ l, f a = some (g a)) : l.mapM f = some (l.map g) := by
  induction l with
  | nil => rfl
  | cons a l ih =>
    rw [List.mapM_cons, h a (List.mem_cons_self ..), ih fun b hb => h b (List.mem_cons_of_mem _ hb)]
    rfl

theorem hasDuplicates_eq_false {names : List QName} (h : names.Nodup) :
    hasDuplicates names = false := by
  induction names with
  | nil => rfl
  | cons name names ih =>
    rw [List.nodup_cons] at h
    simp [hasDuplicates, h.1, ih h.2]

theorem bindingOf?_of_plain {attr : QName × String} (h : Attr.Plain attr) :
    bindingOf? attr.1 = none := by
  have hne : (attr.1.name == "xmlns") = false := beq_eq_false_iff_ne.mpr h.bindsNothing
  simp [bindingOf?, h.unqualified, hne]

theorem bind?_of_plain {attrs : List (QName × String)} (h : ∀ a ∈ attrs, Attr.Plain a)
    (bindings : Bindings) : bind? bindings attrs = some bindings := by
  induction attrs with
  | nil => rfl
  | cons a attrs ih =>
    obtain ⟨name, value⟩ := a
    have hname := bindingOf?_of_plain (h _ (List.mem_cons_self ..))
    simp only [bind?, hname]
    exact ih fun b hb => h b (List.mem_cons_of_mem _ hb)

/-- A start tag without prefixes opens an element with just its name and attributes. -/
theorem start?_of_plain {name : String} {attrs : List (QName × String)}
    (h : ∀ a ∈ attrs, Attr.Plain a) (hnodup : (attrs.map (·.1)).Nodup) {outer : List OpenElement}
    (houter : ∀ q, outer.head? = some q → q.bindings = []) :
    start? {} { name } (attrs.map attrPieces) { open? := outer } =
      some { open? := opened name attrs :: outer } := by
  have hbindings : (outer.head?.map (·.bindings)).getD [] = [] := by
    cases hq : outer.head? with
    | none => rfl
    | some q => exact houter q hq
  have hgiven : (attrs.map attrPieces).mapM (givenAttr? {} { name }) =
      some (attrs.map fun a => (a.1, a.2.toList)) := by
    rw [List.mapM_map]
    refine mapM_eq_some fun a _ => ?_
    simp only [Function.comp_apply, givenAttr?, attrPieces, Entities.attributeValue?]
    rw [show ({} : Entities).declared.length = 0 from rfl, value?_map_attrPiece]
    rfl
  have hwritten : (attrs.map fun a => (a.1, a.2.toList)).map
      (fun a => (a.1, String.ofList a.2)) = attrs := by
    rw [List.map_map]
    simp [Function.comp_def]
  have hdefaults : ({} : Entities).defaults { name } ((attrs.map fun a => (a.1, a.2.toList)).map
      (·.1)) = [] := rfl
  have hnamed : (attrs.filter (bindingOf? ·.1 |>.isNone)).mapM (resolvedAttr? []) = some attrs := by
    rw [List.filter_eq_self.mpr fun a ha => by rw [bindingOf?_of_plain (h a ha)]; rfl]
    refine (mapM_eq_some (g := id) fun a ha => ?_).trans (by rw [List.map_id])
    simp only [resolvedAttr?, attrName?, (h a ha).unqualified]
    rfl
  unfold start?
  simp only [Option.isSome_none, Bool.and_false, Bool.false_eq_true, if_false, hgiven,
    Option.bind_eq_bind, Option.bind_some, hdefaults, List.append_nil, hwritten, hbindings,
    bind?_of_plain h, hnamed, elementName?, List.find?_nil, hasDuplicates_eq_false hnodup,
    Bool.or_self]
  rfl

/-- A builder after an element has ended inside of others, or as the root element. -/
def finished (e : Element) : List OpenElement → Builder
  | [] => { root := some e }
  | q :: outer => inside (q.adopt e) outer

theorem end?_inside {name : QName} (hname : p.written = name) : end? name (inside p outer) =
    some (finished p.toElement outer) := by
  have hne : (p.written != name) = false := by simp [hname]
  cases outer with
  | nil => simp [end?, hne, finished]
  | cons q outer => simp [end?, hne, finished, OpenElement.adopt]

/-- A tag with a name in it is neither an end tag nor a comment, section or instruction. -/
theorem readToken?_startTag {name : String} (h : isName name.toList = true) (rest : List Char) :
    readToken? ('<' :: (name.toList ++ rest)) = readStartTag? (name.toList ++ rest) := by
  obtain ⟨c, cs, hcs, hc, -⟩ := isName_cases h
  have hne := ne_of_isNameStart hc
  rw [hcs, List.cons_append]
  unfold readToken?
  split
  · rename_i he
    cases he
  · rename_i he
    exact absurd (List.cons.inj (List.cons.inj he).2).1 (hne _ rfl)
  · rename_i he
    exact absurd (List.cons.inj (List.cons.inj he).2).1 (hne _ rfl)
  · rename_i he
    exact absurd (List.cons.inj (List.cons.inj he).2).1 (hne _ rfl)
  · rename_i he
    exact absurd (List.cons.inj (List.cons.inj he).2).1 (hne _ rfl)
  · rename_i he
    cases he
    rfl
  · rename_i he
    cases he
  · rename_i hother _
    exact absurd rfl (hother _)

variable {name : String} {attrs : List (QName × String)}

/-- The start tag of an element that is not empty. -/
theorem leads_open (hname : isName name.toList = true) (h : ∀ a ∈ attrs, Attr.Plain a)
    (hnodup : (attrs.map (·.1)).Nodup) (houter : ∀ q, outer.head? = some q → q.bindings = [])
    (rest : List Char) :
    Leads { open? := outer }
      ('<' :: (name.toList ++ (attrs.flatMap (fun a => (renderAttr a).toList) ++ '>' :: rest)))
      (inside (opened name attrs) outer) rest := by
  have hread := readStartTag?_append hname h (.inr rfl) (show readInTag? ('>' :: rest) =
    some (.finish false rest) from rfl)
  refine Leads.items [.startTag { name } (attrs.map attrPieces)]
    ((readToken?_startTag hname _).trans hread) ?_ ?_ ?_
  · simp only [List.length_cons, List.length_append]
    omega
  · intro more more' hmore
    simp only [Bool.false_eq_true, if_false, List.cons_append, List.nil_append, Entities.expand?,
      hmore, Option.map_some]
  · intro more
    rw [List.singleton_append, build?]
    simp only [start?_of_plain h hnodup houter]

theorem leads_empty (hname : isName name.toList = true) (h : ∀ a ∈ attrs, Attr.Plain a)
    (hnodup : (attrs.map (·.1)).Nodup) (houter : ∀ q, outer.head? = some q → q.bindings = [])
    (rest : List Char) :
    Leads { open? := outer }
      ('<' :: (name.toList ++
        (attrs.flatMap (fun a => (renderAttr a).toList) ++ ' ' :: '/' :: '>' :: rest)))
      (finished (opened name attrs).toElement outer) rest := by
  have hread := readStartTag?_append hname h (.inl rfl) (show readInTag? (' ' :: '/' :: '>' :: rest) =
    some (.finish true rest) from rfl)
  refine Leads.items [.startTag { name } (attrs.map attrPieces), .endTag { name }]
    ((readToken?_startTag hname _).trans hread) ?_ ?_ ?_
  · simp only [List.length_cons, List.length_append]
    omega
  · intro more more' hmore
    simp only [if_true, List.cons_append, List.nil_append, Entities.expand?, hmore,
      Option.map_some]
  · intro more
    rw [List.cons_append, List.singleton_append, build?]
    simp only [start?_of_plain h hnodup houter]
    have hwritten : (opened name attrs).written = { name } := rfl
    rw [build?]
    simp only [end?_inside hwritten]

theorem leads_end (hname : isName name.toList = true) (hp : p.written = { name })
    (rest : List Char) :
    Leads (inside p outer) ('<' :: '/' :: (name.toList ++ '>' :: rest))
      (finished p.toElement outer) rest := by
  refine Leads.items [.endTag { name }] (readEndTag?_name hname rest) ?_ ?_ ?_
  · simp only [List.length_cons, List.length_append]
    omega
  · intro more more' hmore
    simp only [List.cons_append, List.nil_append, Entities.expand?, hmore, Option.map_some]
  · intro more
    rw [List.singleton_append, build?]
    simp only [end?_inside hp]

end HeaderDocs.Xml
