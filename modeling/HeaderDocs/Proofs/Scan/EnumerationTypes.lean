import HeaderDocs.Proofs.Scan.Aliases
import HeaderDocs.Proofs.Scan.Checked.Scopes
import HeaderDocs.Proofs.Scan.EnumerationBodies
import HeaderDocs.Proofs.Scan.NamedTypes

/-!
# Names for enumerations

`typedef enum E \x7b … \x7d T;` gives a name to the type that it defines. What is recorded as the
type of the name is the run before the body, with what the body has appended to it.

* `OpenScope.AwaitsAlias.node_run`: what the end of such a declaration records.
* `typeText_scan_enumeration`: the type is that before the body exactly if the body has no marks and
  literals that are appended.
-/
namespace HeaderDocs.Scan

open HeaderDocs.Text

/-! ## Children of a kind -/

/-- A node of another kind changes nothing about the children of a kind, except for where they
stand. -/
theorem childrenOf_record_perm {k : Kind} {scope node : Node} (hk : node.kind ≠ k) :
    ((record scope node).childrenOf k).Perm (scope.childrenOf k) := by
  have hcons : ∀ (n : Node) (cs : List Node), n.kind ≠ k →
      (n :: cs).filter (Node.isKind k) = cs.filter (Node.isKind k) := by
    intro n cs hn
    rw [List.filter_cons, if_neg (by simpa [Node.isKind] using hn)]
  unfold record Node.insert?
  split
  · rfl
  · cases hins : scope.insertion? node with
    | none => rfl
    | some ins =>
      obtain ⟨name, -, -, hreplaced, hposition, -⟩ := Node.insertion?_cases hins
      have hkind : ins.node.kind ≠ k := by
        rw [Node.kind_eq_of_key (Node.Insertion.node_eq hins).1]
        exact hk
      have hrest : ((ins.rest scope.children).filter (Node.isKind k)).Perm
          (scope.childrenOf k) := by
        unfold Node.Insertion.rest
        cases hr : ins.replaced with
        | none => rfl
        | some i =>
          obtain ⟨hlt, hnamed, -⟩ := List.findIdx?_eq_some_iff_getElem.mp (hreplaced.symm.trans hr)
          simp only [Node.isNamed, Bool.and_eq_true, beq_iff_eq] at hnamed
          have hperm := (List.getElem_cons_eraseIdx_perm hlt).filter (Node.isKind k)
          rwa [hcons _ _ (by rw [hnamed.1]; exact hk)] at hperm
      have hperm := (List.perm_insertIdx ins.node (ins.rest scope.children)
        (hposition ▸ List.findIdx_le_length)).filter (Node.isKind k)
      rw [hcons _ _ hkind] at hperm
      exact hperm.trans hrest

theorem childrenOf_record_self {scope node : Node} (hnone : scope.childrenOf node.kind = [])
    (hpublic : node.isPrivate = false) {name : String} (hname : node.name = some name) :
    (record scope node).childrenOf node.kind =
      if Node.isRecordable name then [node] else [] := by
  split
  · rename_i hrecordable
    have hnew : ∀ c ∈ scope.children, c.label? ≠ node.label? := by
      intro c hc h
      have hlabel : node.label? = some (node.kind, name) := by rw [Node.label?, hname]; rfl
      have hnamed := Node.isNamed_iff_label?.mpr (h.trans hlabel)
      simp only [Node.isNamed, Bool.and_eq_true] at hnamed
      exact List.filter_eq_nil_iff.mp hnone c hc hnamed.1
    have hperm := (perm_record_new hpublic hname hrecordable hnew).filter (Node.isKind node.kind)
    rw [List.filter_cons, if_pos (by simp [Node.isKind]),
      show scope.children.filter (Node.isKind node.kind) = [] from hnone] at hperm
    exact List.perm_singleton.mp hperm
  · rename_i hrecordable
    rw [record_of_not_recordable hname (Bool.eq_false_iff.mpr hrecordable), hnone]

/-! ## The name -/

/-- Recording a node neither starts nor ends a function header or the definition of a record. -/
theorem isSome_commit (s : OpenScope) (node : Node) :
    (s.commit node).1.context.header.isSome = s.context.header.isSome ∧
      (s.commit node).1.context.record.isSome = s.context.record.isSome := by
  refine OpenScope.commitTo_context
    (P := fun c => c.header.isSome = s.context.header.isSome ∧
      c.record.isSome = s.context.record.isSome) ⟨rfl, rfl⟩ ?_ ?_ node
  · rintro i c ⟨hheader, hrecord⟩
    simp [Context.afterInsert, hheader, hrecord]
  · rintro i removed c ⟨hheader, hrecord⟩
    simp [Context.afterRemove, hheader, hrecord]

namespace OpenScope

variable {s : OpenScope}

theorem word_defined (hbraces : s.context.braces = 0) (hheader : s.context.header = none)
    (hrun : s.context.run ≠ []) (halias : s.context.typeAlias.isSome = true) (name : String) :
    s.word name ';' = s.declareDefined name := by
  have hstart : s.context.startRun = s.context := Context.startRun_of_run hrun
  unfold OpenScope.word OpenScope.declarationWord OpenScope.endDeclarator
  simp [hbraces, hrun, hheader, halias, OpenScope.update, hstart, Context.inArguments]

theorem childrenOf_nameAside_perm (name : String) {place : Option Place}
    (hplace : ∀ p, place = some p → p.Sound s.node) :
    ((s.nameAside name place).1.node.childrenOf .typeAlias).Perm (s.node.childrenOf .typeAlias) := by
  unfold OpenScope.nameAside
  split
  · rename_i node
    split
    · obtain ⟨n, hn, hscope, -⟩ := hplace _ rfl
      cases hn
      dsimp only
      rw [node_commit]
      refine childrenOf_record_perm fun hkind => ?_
      rw [Node.kind_withName] at hkind
      rw [hkind] at hscope
      cases hscope
    · exact .refl _
  · exact .refl _

theorem header_nameAside (name : String) (place : Option Place) :
    (s.nameAside name place).1.context.header.isSome = s.context.header.isSome := by
  unfold OpenScope.nameAside
  split
  · split
    · exact (isSome_commit s _).1
    · rfl
  · rfl

theorem declareDefined_enumeration {t : OpenScope} {name : String} (ht : s.declareAwaited name = t)
    (hrecord : t.context.record = none) :
    let v := (t.update ({ · with record := none })).nameAside name t.context.enumeration
    (s.declareDefined name).node = v.1.node ∧
      (s.declareDefined name).context.header = v.1.context.header := by
  unfold OpenScope.declareDefined
  rw [ht]
  dsimp only
  rw [hrecord, show t.nameAside name none = (t, none) from rfl]
  exact ⟨rfl, rfl⟩

/-- The node of the name behind a definition. -/
def awaitedNode (s : OpenScope) (a : Node) (name : String) : Node :=
  (a.withName name).withChildren (s.context.run.closeUp.toType :: a.children)

theorem name_awaitedNode (a : Node) (name : String) : (s.awaitedNode a name).name = some name := rfl

theorem declareAwaited_eq {a : Node} (halias : s.context.typeAlias = some a) (name : String) :
    s.declareAwaited name = (s.commit (s.awaitedNode a name)).1.update
      ({ · with claim := OpenScope.claimOn (s.commit (s.awaitedNode a name)).2 }) := by
  unfold OpenScope.declareAwaited
  rw [halias]
  rfl

theorem declareDefined_names {a : Node} (halias : s.context.typeAlias = some a)
    (hheader : s.context.header = none) (hrecord : s.context.record = none) (name : String) :
    let t := (s.commit (s.awaitedNode a name)).1
    (s.declareDefined name).context.header = none ∧ (s.declareDefined name).context.run = [] ∧
      ∃ u : OpenScope, u.node = t.node ∧
        (s.declareDefined name).node = (u.nameAside name t.context.enumeration).1.node := by
  have hawaited := declareAwaited_eq halias name
  obtain ⟨hcheader, hcrecord⟩ := isSome_commit s (s.awaitedNode a name)
  rw [hheader, Option.isSome_none, Option.isSome_eq_false_iff, Option.isNone_iff_eq_none] at hcheader
  rw [hrecord, Option.isSome_none, Option.isSome_eq_false_iff, Option.isNone_iff_eq_none] at hcrecord
  generalize (s.commit (s.awaitedNode a name)).1 = t at hawaited hcheader hcrecord ⊢
  obtain ⟨hnode, hlast⟩ := declareDefined_enumeration hawaited hcrecord
  have hended : ∀ o : Option Header, o.isSome = t.context.header.isSome → o = none := fun o ho => by
    simpa [hcheader] using ho
  refine ⟨hlast.trans (hended _ (header_nameAside _ _)), rfl, _, ?_, hnode⟩
  rfl

end OpenScope

/-- A definition has ended, and the name for its type may come. -/
structure OpenScope.AwaitsAlias (run : Run) (s : OpenScope) : Prop where
  braces : s.context.braces = 0
  header : s.context.header = none
  record : s.context.record = none
  joinable : s.context.joinable = false
  typeAlias : s.context.typeAlias = some { kind := .typeAlias }
  run : s.context.run = run
  unnamed : s.node.childrenOf .typeAlias = []

namespace OpenScope.AwaitsAlias

variable {run : Run} {s : OpenScope}

theorem declareDefined (h : s.AwaitsAlias run) (hsound : s.Sound) (name : String) :
    (s.declareDefined name).context.header = none ∧ (s.declareDefined name).context.run = [] ∧
      (s.declareDefined name).node.childrenOf .typeAlias =
        if Node.isRecordable name then [aliasNode name run] else [] := by
  obtain ⟨hheader, hended, u, hu, hnode⟩ :=
    declareDefined_names h.typeAlias h.header h.record name
  refine ⟨hheader, hended, ?_⟩
  have hawaited : s.awaitedNode { kind := .typeAlias } name = aliasNode name run := by
    rw [awaitedNode, h.run]
    rfl
  have hplace := (hsound.declareAwaited name).sound.context.enumeration
  rw [declareAwaited_eq h.typeAlias, hawaited] at hplace
  rw [hawaited] at hu hnode
  have halias : u.node.childrenOf .typeAlias =
      if Node.isRecordable name then [aliasNode name run] else [] := by
    rw [hu, node_commit]
    exact childrenOf_record_self h.unnamed (isPrivate_aliasNode _ _) rfl
  have hperm := childrenOf_nameAside_perm (s := u) name (hu ▸ hplace)
  rw [hnode]
  rw [halias] at hperm
  split at hperm
  · rename_i hrecordable
    rw [if_pos hrecordable]
    exact List.perm_singleton.mp hperm
  · rename_i hrecordable
    rw [if_neg hrecordable]
    exact List.perm_nil.mp hperm

theorem word (h : s.AwaitsAlias run) (hrun : run ≠ []) (hsound : s.Sound) (name : String) :
    (s.word name ';').context.header = none ∧ (s.word name ';').context.run = [] ∧
      (s.word name ';').node.childrenOf .typeAlias =
        if Node.isRecordable name then [aliasNode name run] else [] := by
  rw [word_defined h.braces h.header (by rwa [h.run]) (by rw [h.typeAlias]; rfl)]
  exact h.declareDefined hsound name

end OpenScope.AwaitsAlias

/-- A semicolon where nothing is being declared records nothing. -/
theorem node_semicolon {s : OpenScope} (hheader : s.context.header = none)
    (hrun : s.context.run = []) : s.semicolon.node = s.node := by
  unfold OpenScope.semicolon
  rw [OpenScope.endHeader_of_none hheader, OpenScope.endRun_of_nil hrun]
  rfl

/-- The end of a declaration behind the body of an enumeration. -/
theorem OpenScope.AwaitsAlias.node_run {run : Run} {s : OpenScope} (h : s.AwaitsAlias run)
    (hrun : run ≠ []) (hsound : s.Sound) (name : Name) :
    (({ scope := s } : State).run (' ' :: (name.text.toList ++ [';']))).result.node.childrenOf
        .typeAlias =
      if Node.isRecordable name.text then [aliasNode name.text run] else [] := by
  have hspace : ({ scope := s } : State).step ' ' = { scope := s } :=
    State.run_gap (s := s) (c := s.context) h.joinable (by decide : IsGap [' '])
  have hpart : State.isWordPart s.context.parens ';' = false := by
    simp [State.isWordPart]
    decide
  have hread : ({ scope := s } : State).run (' ' :: (name.text.toList ++ [';'])) =
      ((State.reading s s.context).update (·.word name.text ';')).plain ';' := by
    change (({ scope := s } : State).step ' ').run _ = _
    rw [hspace]
    exact State.run_name h.joinable name hpart []
  obtain ⟨hheader, hended, halias⟩ := h.word hrun hsound name.text
  rw [hread, ← halias]
  refine congrArg (Node.childrenOf · .typeAlias) ?_
  exact node_semicolon (s := (s.word name.text ';').update ({ · with joinable := false }))
    hheader hended

/-! ## The body -/

namespace State.InEnumeration

variable {opening : Run} {b : EnumerationText} {s : State}

/-- The brace that ends the body is read in plain mode. -/
theorem step_closing (hopening : opening ≠ []) (h : s.InEnumeration opening b)
    (hlayer : b.layer = .code ∨ b.layer = .slash) :
    ∃ t : State, s.step '\x7d' = t.plain '\x7d' ∧ t.mode = .plain ∧ t.enclosing = [] ∧
      t.scope.InEnumeration opening (b.marked || b.layer == .slash) := by
  obtain ⟨⟨hmode, -⟩, henclosing, hscope, -⟩ := h
  have hcode : (Layer.code == .slash) = false := rfl
  cases hm : s.mode with
  | plain =>
    have hl : b.layer = .code := by rw [← hmode, hm]; rfl
    rw [hl, hcode, Bool.or_false]
    exact ⟨s, by rw [State.step, hm], hm, henclosing, hscope⟩
  | slash =>
    have hl : b.layer = .slash := by rw [← hmode, hm]; rfl
    have hjoin := hscope.context.withComment s.scope.context.comment false
    rw [hl, BEq.rfl, Bool.or_true]
    have hslash := hscope.update (f := fun c => { c with joinable := false }.pushMark "/")
      (hjoin.pushMark hopening (by decide))
    let t : State :=
      (s.enter .plain).update (·.update fun c => { c with joinable := false }.pushMark "/")
    refine ⟨t, ?_, rfl, henclosing, hslash⟩
    rw [State.step, hm]
    rfl
  | word text =>
    have hl : b.layer = .code := by rw [← hmode, hm]; rfl
    have hpart : State.isWordPart s.scope.context.parens '\x7d' = false := by
      simp [State.isWordPart]
      decide
    rw [hl, hcode, Bool.or_false]
    refine ⟨(s.enter .plain).update (·.word (String.ofList text.reverse) '\x7d'), ?_, rfl,
      henclosing, hscope.word _ _⟩
    rw [State.step, hm]
    exact if_neg (by simp [hpart])
  | _ =>
    rw [hm] at hmode
    rcases hlayer with hl | hl <;> rw [hl] at hmode <;> cases hmode

/-- What is left of the body when it ends. -/
theorem close (hopening : opening ≠ []) (h : s.InEnumeration opening b)
    (hlayer : b.layer = .code ∨ b.layer = .slash) :
    ∃ more : Run, (∀ f ∈ more, f.text ≠ "") ∧
      ((b.marked || b.layer == .slash) = true ↔ more ≠ []) ∧
      ∃ scope : OpenScope, s.step '\x7d' = { scope } ∧ scope.AwaitsAlias (opening ++ more) := by
  obtain ⟨t, hstep, hmode, henclosing, hscope⟩ := h.step_closing hopening hlayer
  obtain ⟨more, hrun, htexts, hmarked⟩ := hscope.context.run
  have hbraces := hscope.context.braces
  refine ⟨more, htexts, hmarked,
    (t.scope.update ({ · with joinable := false })).update .afterBlock, ?_, ?_⟩
  · obtain ⟨mode, scope, enclosing⟩ := t
    cases hmode
    cases henclosing
    rw [hstep, show ∀ t : State, t.plain '\x7d' =
      (t.update (·.update ({ · with joinable := false }))).closeBrace from fun _ => rfl,
      State.closeBrace_eq, if_pos]
    · rfl
    · exact hbraces ▸ Nat.one_pos
  · have hunnamed : t.scope.node.childrenOf .typeAlias = [] :=
      List.filter_eq_nil_iff.mpr fun c hc => by simpa [Node.isKind] using hscope.unnamed c hc
    refine ⟨?_, ?_, ?_, ?_, ?_, ?_, hunnamed⟩ <;>
      simp [OpenScope.update, Context.afterBlock, Context.afterBody, hbraces,
        hscope.context.header, hscope.context.typeAlias, hrun]

end State.InEnumeration

/-! ## Declarations -/

def enumerationType (tag : Option Name) : String :=
  match tag with
  | some tag => "enum " ++ tag.text
  | none => "enum"

/-- The definition of an enumeration and a name for it. -/
def enumerationAlias (tag : Option Name) (body : String) (name : Name) : String :=
  "typedef " ++ enumerationType tag ++ " \x7b" ++ body ++ "\x7d " ++ name.text ++ ";"

def enumerationRun (tag : Option Name) : Run :=
  ⟨"enum", false⟩ :: tag.toList.map fun tag => ⟨tag.text, true⟩

theorem text_enumerationRun (tag : Option Name) (more : Run) :
    Run.text (enumerationRun tag ++ more) = enumerationType tag ++ more.tailText := by
  have hne : enumerationRun tag ≠ [] := List.cons_ne_nil _ _
  rw [Run.text_append hne]
  cases tag with
  | none => rfl
  | some tag => simp [enumerationRun, enumerationType, Run.text_cons, Run.tailText_cons,
      ← String.append_assoc]

/-- The scope of an empty documentation in which a definition with `typedef` begins. -/
theorem commitNamed_empty {c : Context} (hheader : c.header = none) (hrecord : c.record = none)
    (henumeration : c.enumeration = none) (node : Node) :
    ∃ claim, (({ OpenScope.begin .empty .source with context := c } : OpenScope).commitNamed
        node).1.context = { c with claim } ∧
      ((({ OpenScope.begin .empty .source with context := c } : OpenScope).commitNamed
        node).1.node = .empty ∨
        (({ OpenScope.begin .empty .source with context := c } : OpenScope).commitNamed
          node).1.node = record .empty node) := by
  unfold OpenScope.commitNamed
  split
  · exact ⟨c.claim, rfl, .inl rfl⟩
  · obtain ⟨claim, hcontext⟩ := @context_commit (.begin .empty .source) c hheader hrecord
      henumeration node
    exact ⟨claim, hcontext, .inr (node_commit _)⟩

/-- What is being read when the body begins. -/
theorem inEnumeration_openEnumeration (tag : Option Name) (run : Run)
    (claim : Option (List Claim)) :
    ((State.openEnumeration true (⟨"enum", true⟩ :: tag.toList.map fun tag => ⟨tag.text, true⟩)
        { OpenScope.begin .empty .source with context := { run, claim } }).update fun c =>
          { c with braces := c.braces + 1, claim := none }).InEnumeration
            (enumerationRun tag) false := by
  unfold State.openEnumeration
  extract_lets _ _ _ node _ scope
  obtain ⟨claim', hcontext, hnode⟩ := @commitNamed_empty scope.context rfl rfl rfl node
  rw [show { OpenScope.begin .empty .source with context := scope.context } = scope from rfl]
    at hcontext hnode
  generalize scope.commitNamed node = committed at hcontext hnode
  obtain ⟨u, path⟩ := committed
  dsimp only at hcontext hnode ⊢
  have hkind : node.kind = .enumType := Node.kind_describe _ _
  have hchildren : u.node.kind = .root ∧ u.node.childrenOf .typeAlias = [] := by
    rcases hnode with hnode | hnode <;> rw [hnode]
    · exact ⟨rfl, rfl⟩
    · refine ⟨kind_record _ _, List.perm_nil.mp (childrenOf_record_perm ?_)⟩
      rw [hkind]
      decide
  refine ⟨?_, hchildren.1, fun d hd => ?_⟩
  · rw [OpenScope.update, OpenScope.update, hcontext]
    exact ⟨rfl, rfl, rfl, rfl, rfl, fun _ he => absurd he (Option.some_ne_none _).symm,
      ⟨[], (List.append_nil _).symm, by simp, by simp⟩, fun _ => rfl⟩
  · simpa [Node.isKind] using List.filter_eq_nil_iff.mp hchildren.2 d hd

theorem inEnumeration_opening (tag : Option Name) :
    ((State.start .empty).run ("typedef " ++ enumerationType tag ++ " \x7b").toList).InEnumeration
      (enumerationRun tag) {} := by
  let typedef : Name := ⟨"typedef", by decide +kernel⟩
  let enum : Name := ⟨"enum", by decide +kernel⟩
  let words : List Name := typedef :: enum :: tag.toList
  have htext : ("typedef " ++ enumerationType tag ++ " \x7b").toList =
      spacedOut words ++ ['\x7b'] := by
    cases tag <;> simp [words, typedef, enum, spacedOut, enumerationType]
  have hrun : wordsRun false words =
      ⟨"typedef", false⟩ :: ⟨"enum", true⟩ :: tag.toList.map fun tag => ⟨tag.text, true⟩ := rfl
  have hread : (State.start .empty).run (spacedOut words ++ ['\x7b']) =
      (State.reading (.begin .empty .source) { run := wordsRun false words }).run ['\x7b'] :=
    @run_spacedOut (.begin .empty .source) 0 [] none rfl false (fun _ => rfl) words ['\x7b']
  have hopen : ∀ rest : Run, (State.reading (.begin .empty .source)
        { run := ⟨"typedef", false⟩ :: ⟨"enum", true⟩ :: rest }).run ['\x7b'] =
      (State.reading (.begin .empty .source)
        { run := ⟨"typedef", false⟩ :: ⟨"enum", true⟩ :: rest }).openBlock
          (State.openEnumeration true (⟨"enum", true⟩ :: rest)) := by
    intro rest
    change (State.reading (.begin .empty .source)
      { run := ⟨"typedef", false⟩ :: ⟨"enum", true⟩ :: rest }).openBrace = _
    unfold State.openBrace
    simp [State.reading, State.splitAlias, Run.texts, State.recordKind?]
  rw [htext, hread, hrun, hopen]
  exact ⟨State.readsIn_code rfl, rfl, inEnumeration_openEnumeration tag _ none, fun _ => rfl⟩

theorem tailText_eq_empty_iff {run : Run} (h : ∀ f ∈ run, f.text ≠ "") :
    run.tailText = "" ↔ run = [] := by
  cases run with
  | nil => simp
  | cons f run =>
    have hne : f.text ≠ "" := h f (List.mem_cons_self ..)
    simp [Run.tailText_cons, hne]

/-- The last character of the type is one of a word, and nothing in it is a parenthesis. -/
theorem enumerationType_chars (tag : Option Name) :
    '(' ∉ (enumerationType tag).toList ∧
      ∃ c, (enumerationType tag).toList.getLast? = some c ∧ isWordChar c = true := by
  cases tag with
  | none => exact ⟨by decide, 'm', by decide, by decide +kernel⟩
  | some tag =>
    obtain ⟨hne, hchars⟩ := tag.chars
    refine ⟨?_, tag.text.toList.getLast hne, ?_, hchars _ (List.getLast_mem hne)⟩
    · simp [enumerationType, tag.notMem (by decide +kernel : isWordChar '(' = false)]
    · simp [enumerationType, List.getLast?_cons, List.getLast?_eq_some_getLast hne]

/-- Without what the body appends, the declaration is shown without the body. -/
theorem signature_enumeration {tag : Option Name} {name : String} {n tree : Node}
    (hkind : n.kind = .typeAlias) (hname : n.name = some name)
    (htype : n.typeText = enumerationType tag) :
    ({ node := n, above := [tree] } : Located).signature =
      "typedef " ++ enumerationType tag ++ " " ++ name ++ ";" := by
  obtain ⟨hopen, c, hlast, hc⟩ := enumerationType_chars tag
  have hnone : breakOn? ['(', '*', ')'] (enumerationType tag).toList = none := by
    by_contra hsome
    obtain ⟨parts, hparts⟩ := Option.ne_none_iff_exists'.mp hsome
    exact hopen ((infix_of_breakOn? hparts).subset (List.mem_cons_self ..))
  have hjoin : joinDeclared (enumerationType tag) name = enumerationType tag ++ " " ++ name := by
    have hstar : c ≠ '*' ∧ c ≠ '&' := by
      constructor <;>
      · rintro rfl
        exact absurd hc (by decide +kernel)
    simp [joinDeclared, hlast, hstar]
  have hshown : n.shownName = name := by rw [Node.shownName, hname]; rfl
  unfold Located.signature Node.aliasSignature
  simp only [hkind, htype, hnone, hjoin, hshown]
  simp [← String.append_assoc]

/-- The name is recorded with a type that goes on with what the body has appended, which is nothing
exactly if no mark of the body is appended. -/
theorem childrenOf_scan_enumerationAlias (tag : Option Name) (name : Name) {body : String}
    {marked : Bool} (hbody : marksType? body.toList = some marked) :
    ∃ more : Run, (∀ f ∈ more, f.text ≠ "") ∧ (marked = true ↔ more ≠ []) ∧
      (scan (enumerationAlias tag body name) .empty).childrenOf .typeAlias =
        if Node.isRecordable name.text then [aliasNode name.text (enumerationRun tag ++ more)]
        else [] := by
  obtain ⟨b, hread, hlayer, hmarked⟩ := marksType?_eq_some_iff.mp hbody
  have hne : enumerationRun tag ≠ [] := List.cons_ne_nil _ _
  obtain ⟨more, htexts, hmore, scope, hstep, hawaits⟩ :=
    ((inEnumeration_opening tag).run hne hread).close hne hlayer
  rw [hmarked] at hmore
  let opening := ("typedef " ++ enumerationType tag ++ " \x7b").toList
  have hsound : scope.Sound := by
    have hrun := (@State.sound_start .empty rfl (State.kept_leaf .root {})).run
      (opening ++ body.toList ++ ['\x7d'])
    rw [State.run_append, State.run_append] at hrun
    change State.Sound _ ((((State.start .empty).run opening).run body.toList).step '\x7d') at hrun
    rw [hstep] at hrun
    exact hrun.1
  have hsource : (enumerationAlias tag body name).toList =
      opening ++ (body.toList ++ '\x7d' :: ' ' :: (name.text.toList ++ [';'])) := by
    simp [enumerationAlias, opening]
  refine ⟨more, htexts, hmore, ?_⟩
  rw [← hawaits.node_run (by simp [enumerationRun]) hsound name]
  unfold scan scanWithEvents
  rw [hsource, State.run_append, State.run_append]
  change ((State.step _ '\x7d').run _).result.node.childrenOf _ = _
  rw [hstep]

/-- A name for an enumeration is recorded if it has no leading underscore. Its type is what stands
before the body exactly if no mark of the body, outside of words, is one of `( * + - / & :`, and no
literal is in it. -/
theorem typeText_scan_enumeration (tag : Option Name) (name : Name) {body : String} {marked : Bool}
    (hbody : marksType? body.toList = some marked) :
    let tree := scan (enumerationAlias tag body name) .empty
    (name.text.toList.head? = some '_' → tree.childrenOf .typeAlias = []) ∧
      (name.text.toList.head? ≠ some '_' → ∃ n, tree.childrenOf .typeAlias = [n] ∧
        n.name = some name.text ∧
        ((n.typeText = enumerationType tag ∧
          ({ node := n, above := [tree] } : Located).signature =
            "typedef " ++ enumerationType tag ++ " " ++ name.text ++ ";") ↔ marked = false)) := by
  intro tree
  obtain ⟨more, htexts, hmore, halias⟩ := childrenOf_scan_enumerationAlias tag name hbody
  change tree.childrenOf .typeAlias = _ at halias
  refine ⟨fun hname => ?_, fun hname => ?_⟩
  · rw [halias, if_neg]
    rw [name.isRecordable_iff]
    exact fun h => h hname
  · rw [halias, if_pos (name.isRecordable_iff.mpr hname)]
    refine ⟨_, rfl, rfl, ?_⟩
    have htype : (aliasNode name.text (enumerationRun tag ++ more)).typeText =
        enumerationType tag ++ more.tailText := by
      rw [typeText_aliasNode, text_enumerationRun]
    have hsame : (aliasNode name.text (enumerationRun tag ++ more)).typeText = enumerationType tag ↔
        marked = false := by
      rw [htype, String.append_eq_left_iff, tailText_eq_empty_iff htexts, ← Bool.not_eq_true, hmore,
        not_not]
    rw [← hsame]
    exact ⟨And.left, fun h => ⟨h, signature_enumeration rfl rfl h⟩⟩

/-- A body with a comment, a shift and brackets. -/
theorem typeText_scan_enumeration_shift :
    let tag : Name := ⟨"E", by decide +kernel⟩
    let name : Name := ⟨"T", by decide +kernel⟩
    let body := " A = 1, /** Twice (2 * A). */ B[2] = A << 1, "
    let tree := scan (enumerationAlias (some tag) body name) .empty
    marksType? body.toList = some false ∧ ∃ n, tree.childrenOf .typeAlias = [n] ∧
      n.typeText = "enum E" ∧
      ({ node := n, above := [tree] } : Located).signature = "typedef enum E T;" := by
  intro tag name body tree
  have hbody : marksType? body.toList = some false := by decide +kernel
  obtain ⟨n, hn, -, htype⟩ :=
    (typeText_scan_enumeration (some tag) name hbody).2 (by decide +kernel)
  exact ⟨hbody, n, hn, htype.mpr rfl⟩

/-- The plus of a value is taken for a part of the type. -/
theorem typeText_scan_enumeration_sum :
    let tag : Name := ⟨"E", by decide +kernel⟩
    let name : Name := ⟨"T", by decide +kernel⟩
    let tree := scan (enumerationAlias (some tag) " A = 1 + 2 " name) .empty
    enumerationAlias (some tag) " A = 1 + 2 " name = "typedef enum E \x7b A = 1 + 2 \x7d T;" ∧
      (tree.childrenOf .typeAlias).map (·.typeText) = ["enum E +"] ∧
      ¬ ∃ n, tree.childrenOf .typeAlias = [n] ∧ n.typeText = "enum E" := by
  intro tag name tree
  have htypes : (tree.childrenOf .typeAlias).map (·.typeText) = ["enum E +"] := by decide +kernel
  refine ⟨by decide +kernel, htypes, ?_⟩
  rintro ⟨n, hn, htype⟩
  rw [hn, List.map_singleton, htype] at htypes
  exact absurd htypes (by decide)

end HeaderDocs.Scan
