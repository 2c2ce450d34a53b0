import HeaderDocs.Proofs.Scan.BlockComments
import HeaderDocs.Proofs.Scan.EnumerationComments
import HeaderDocs.Proofs.Scan.FieldLines
import HeaderDocs.Proofs.Scan.RecordBodies

/-!
# Records with a name for the type

A record behind `typedef` is recorded by its tag before its body is read. Without a tag it is kept
aside, and takes the name of the type, which is recorded first. The comment before the declaration
describes both the record and the name.

* `OpenScope.declareDefined_record`: the name behind a record.
* `scan_recordAlias`: a source that is one such declaration.
-/
namespace HeaderDocs.Scan

open HeaderDocs.Text

/-! ## Two nodes -/

/-- Recording a node of another kind or name beside one that is there. -/
theorem record_beside {a b : Node} (hpublic : b.isPrivate = false) {name : String}
    (hname : b.name = some name) (hrecordable : Node.isRecordable name = true)
    (hlabel : a.label? ≠ b.label?) :
    ∃ children, children.Perm [a, b] ∧
      record (Node.empty.withChildren [a]) b = Node.empty.withChildren children := by
  have hnew : ∀ c ∈ (Node.empty.withChildren [a]).children, c.label? ≠ b.label? := by
    simpa [Node.withChildren] using hlabel
  have hperm : (record (Node.empty.withChildren [a]) b).children.Perm [b, a] :=
    perm_record_new hpublic hname hrecordable hnew
  refine ⟨_, hperm.trans (.swap a b []), ?_⟩
  rw [record_new hpublic hname hrecordable hnew]
  rfl

/-! ## The name behind a record -/

namespace OpenScope

variable {s : OpenScope}

/-- Recording a node leaves a context alone in which neither a function nor an enumeration is being
read. -/
theorem commit_ended (hheader : s.context.header = none) (henumeration : s.context.enumeration = none)
    (node : Node) : (s.commit node).1.context.header = none ∧
      (s.commit node).1.context.enumeration = none := by
  refine OpenScope.commitTo_context (P := fun c => c.header = none ∧ c.enumeration = none)
    ⟨hheader, henumeration⟩ ?_ ?_ node
  · rintro i c ⟨hheader, henumeration⟩
    simp [Context.afterInsert, hheader, henumeration]
  · rintro i removed c ⟨hheader, henumeration⟩
    simp [Context.afterRemove, hheader, henumeration]

theorem nameAside_ended (hheader : s.context.header = none)
    (henumeration : s.context.enumeration = none) (name : String) (place : Option Place) :
    (s.nameAside name place).1.context.header = none ∧
      (s.nameAside name place).1.context.enumeration = none := by
  unfold OpenScope.nameAside
  split
  · split
    · exact commit_ended hheader henumeration _
    · exact ⟨hheader, henumeration⟩
  · exact ⟨hheader, henumeration⟩

theorem declareDefined_eq {u : OpenScope} {name : String} (hu : s.declareAwaited name = u)
    (henumeration : (u.nameAside name u.context.record).1.context.enumeration = none) :
    (s.declareDefined name).node = (u.nameAside name u.context.record).1.node ∧
      (s.declareDefined name).context.header =
        (u.nameAside name u.context.record).1.context.header := by
  unfold declareDefined
  rw [hu]
  dsimp only
  generalize u.nameAside name u.context.record = v at henumeration ⊢
  rw [show (v.1.update ({ · with record := v.2 })).context.enumeration = none from henumeration]
  exact ⟨rfl, rfl⟩

theorem declareDefined_record {a : Node} (halias : s.context.typeAlias = some a)
    (hheader : s.context.header = none) (henumeration : s.context.enumeration = none)
    (name : String) :
    let t := (s.commit (s.awaitedNode a name)).1
    (s.declareDefined name).context.header = none ∧ (s.declareDefined name).context.run = [] ∧
      ∃ u : OpenScope, u.node = t.node ∧
        (s.declareDefined name).node = (u.nameAside name t.context.record).1.node := by
  have hawaited := declareAwaited_eq halias name
  obtain ⟨ht, htenumeration⟩ := commit_ended hheader henumeration (s.awaitedNode a name)
  generalize s.commit (s.awaitedNode a name) = t at hawaited ht htenumeration ⊢
  obtain ⟨hv, hvenumeration⟩ := nameAside_ended (s := t.1.update ({ · with claim := claimOn t.2 }))
    ht htenumeration name t.1.context.record
  obtain ⟨hnode, hlast⟩ := declareDefined_eq hawaited hvenumeration
  exact ⟨hlast.trans hv, rfl, t.1.update ({ · with claim := claimOn t.2 }), rfl, hnode⟩

end OpenScope

/-! ## Declarations -/

/-- A record that is defined behind `typedef`, with the comment before it. -/
structure RecordAlias where
  comment : Option BlockComment := none
  keyword : RecordKeyword
  tag : Option Name := none
  name : Name
  fields : List FieldLine

theorem isName_typedef : isName "typedef".toList = true := by decide

def typedefWord : Name := ⟨"typedef", isName_typedef⟩

namespace RecordAlias

variable (d : RecordAlias)

/-- The text of the comment, if it says something. -/
def raw? : Option String := rawText? d.comment

/-- The text that describes the record, which is empty without a comment. -/
def about : String := (Comment.normalize (d.raw?.getD "")).text

def words : List Name := typedefWord :: d.keyword.name :: d.tag.toList

def Spelled (cs : List Char) : Prop :=
  ∃ leading before words body between trailing, IsGap leading ∧ IsGap before ∧
    WordsText d.words words ∧ FieldsText d.fields body ∧ IsGap between ∧ IsGap trailing ∧
    cs = leading ++ (d.comment.elim [] (·.chars) ++ (before ++ (words ++ '\x7b' :: (body ++ '\x7d' ::
      (between ++ (d.name.text.toList ++ ';' :: trailing))))))

def recordName : Name := d.tag.getD d.name

def typeRun : Run := ⟨d.keyword.name.text, false⟩ :: d.tag.toList.map (⟨·.text, true⟩)

/-- The node of the name for the type, which has a description only if there is a comment. -/
def aliasNode : Node :=
  { kind := .typeAlias
    attrs := { name := some d.name.text }
    children := d.typeRun.toType ::
      d.raw?.toList.map fun raw => Node.descriptionOf (Comment.normalize raw).text }

structure DocumentedBy (home : Node) : Prop where
  kind : home.kind = d.keyword.kind
  name : home.name = some d.recordName.text
  ascending : (home.children.filterMap (·.name)).Pairwise (· < ·)
  /-- The record has its description, and a variable for the last field of each public name whose
  comment does not hide it. -/
  mem_iff : ∀ n, n ∈ home.children ↔ n = Node.descriptionOf d.about ∨
    ∃ l, lastField? d.fields l.name.text = some l ∧ l.isShown = true ∧
      n = l.toNode d.keyword.access

/-- The run before the body, without `typedef`. -/
def openingRun : Run := ⟨d.keyword.name.text, true⟩ :: d.tag.toList.map (⟨·.text, true⟩)

def openedNode : Node := State.openedNode d.keyword.kind true d.openingRun d.raw?

theorem name_openedNode : d.openedNode.name = d.tag.map (·.text) := by
  rw [openedNode, State.name_openedNode, openingRun]
  cases d.tag with
  | none => rfl
  | some tag => simp [Run.texts, tag.withoutColons_text]

def around (p : Place) : Context :=
  { run := d.typeRun
    typeAlias := State.aliasOf true d.raw?
    record := some p }

/-- Where the record is while its body is read. -/
structure IsHeld (home scope : Node) (p : Place) : Prop where
  untagged : d.tag = none → scope = .empty ∧ p = .aside home
  tagged : d.tag ≠ none → scope = Node.empty.withChildren [home] ∧ p = .inScope 0

theorem IsHeld.fill {d : RecordAlias} {home scope : Node} {p : Place} (h : d.IsHeld home scope p)
    (home' : Node) : d.IsHeld home' (p.fillIn home' scope) (p.fill home') := by
  refine ⟨fun htag => ?_, fun htag => ?_⟩
  · obtain ⟨rfl, rfl⟩ := h.untagged htag
    exact ⟨rfl, rfl⟩
  · obtain ⟨rfl, rfl⟩ := h.tagged htag
    exact ⟨rfl, rfl⟩

/-- The name that waits for its declarator becomes the name for the type. -/
theorem awaitedNode_eq {s : OpenScope} {p : Place} {claim : Option (List Claim)} :
    ({ s with context := { d.around p with claim } } : OpenScope).awaitedNode
      (Node.describeIf { kind := .typeAlias } d.raw?) d.name.text = d.aliasNode := by
  unfold aliasNode
  cases d.raw? with
  | none => rfl
  | some raw =>
    rw [Node.describeIf, describe_undescribed (by decide : Kind.typeAlias ≠ .argument)
      fun c hc => absurd hc List.not_mem_nil]
    rfl

theorem descriptionText_aliasNode : d.aliasNode.descriptionText = d.about := by
  unfold aliasNode about
  cases d.raw? with
  | none => rfl
  | some raw => exact Node.text_descriptionOf _

end RecordAlias

namespace State

variable {d : RecordAlias}

/-- The record before its body, in its place: recorded at once if it has a tag, and otherwise kept
aside. -/
theorem beginRecord_alias (hpublic : Comment.isPrivate d.about = false)
    (htag : ∀ tag ∈ d.tag, Node.isRecordable tag.text = true) (claim : Option (List Claim)) :
    ∃ (outer : OpenScope) (p : Place), d.IsHeld d.openedNode outer.node p ∧
      beginRecord d.keyword.kind true d.openingRun { OpenScope.begin .empty .source with
          context := { run := wordsRun false d.words, comment := d.raw?, claim } } =
        ({ outer with context := d.around p }, d.openedNode) := by
  let c : Context := { run := wordsRun false d.words, comment := d.raw?, claim }
  have hopened : openedNode d.keyword.kind true d.openingRun c.comment = d.openedNode := rfl
  have hhidden : d.openedNode.isPrivate = false := isPrivate_openedNode.trans hpublic
  have haround : ∀ p, c.around true d.openingRun p = d.around p := fun _ => rfl
  have hname := d.name_openedNode
  cases htagged : d.tag with
  | none =>
    rw [htagged] at hname
    have hbegin := beginRecord_unnamed d.keyword.kind true d.openingRun
      (s := .begin .empty .source) (c := c) (hopened ▸ hhidden) (fun _ he => by rw [hopened, hname] at he; cases he)
    rw [hopened, haround] at hbegin
    exact ⟨.begin .empty .source, .aside d.openedNode, ⟨fun _ => ⟨rfl, rfl⟩, by simp [htagged]⟩, hbegin⟩
  | some tag =>
    rw [htagged] at hname
    have hrecordable := htag tag htagged
    obtain ⟨outer, i, home, hgains, hhome, hkey, hchildren, hbegin⟩ :=
      beginRecord_named d.keyword.kind true d.openingRun
        (s := .begin .empty .source) (c := c) ⟨rfl, rfl, rfl, rfl, rfl, rfl⟩
        (hopened ▸ hhidden) (hopened ▸ hname) hrecordable
    rw [hopened] at hgains hkey hchildren
    rw [haround] at hbegin
    have hnode : outer.node = Node.empty.withChildren [d.openedNode] :=
      hgains.node.trans (record_empty hhidden hname hrecordable)
    obtain ⟨rfl, rfl⟩ : i = 0 ∧ home = d.openedNode := by
      rw [hnode] at hhome
      cases i with
      | zero => exact ⟨rfl, (Option.some.inj hhome).symm⟩
      | succ i => cases hhome
    exact ⟨outer, .inScope 0, ⟨by simp [htagged], fun _ => ⟨hnode, rfl⟩⟩, hbegin⟩

theorem openBrace_alias {t : State} {claim : Option (List Claim)} :
    (t.inContext { run := wordsRun false d.words, comment := d.raw?, claim }).step '\x7b' =
      (t.inContext { run := wordsRun false d.words, comment := d.raw?, claim }).openRecord
        d.keyword.kind true d.openingRun := by
  rw [step_openBrace rfl]
  refine openBrace_record rfl ?_ rfl
  unfold RecordAlias.words RecordAlias.openingRun
  cases d.tag <;> rfl

theorem run_recordBody (hpublic : Comment.isPrivate d.about = false)
    (htag : ∀ tag ∈ d.tag, Node.isRecordable tag.text = true)
    {leading before words body : List Char} (hleading : IsGap leading) (hbefore : IsGap before)
    (hwords : WordsText d.words words) (hbody : FieldsText d.fields body) :
    ∃ (s : OpenScope) (p : Place) (home : Node), d.IsHeld home s.node p ∧
      home.key = d.openedNode.key ∧ HoldsFields d.about d.keyword.access d.fields home ∧
      (start .empty).run (leading ++ (d.comment.elim [] (·.chars) ++ (before ++
        (words ++ '\x7b' :: (body ++ ['\x7d']))))) = reading s (d.around p) := by
  obtain ⟨claim, hread⟩ := run_words (t := start .empty) (c := { comment := d.raw? })
    ⟨rfl, rfl, rfl, rfl, rfl, rfl⟩ rfl hwords awaits_nil
    (fun _ w hw => Option.some.inj hw ▸ (by decide)) ('\x7b' :: (body ++ ['\x7d']))
  obtain ⟨outer, p, hheld, hbegin⟩ := beginRecord_alias hpublic htag claim
  let t : State :=
    { scope := .begin d.openedNode .record, enclosing := [{ outer with context := d.around p }] }
  have hopen : (reading (.begin .empty .source)
      { run := wordsRun false d.words, comment := d.raw?, claim }).step '\x7b' = t := by
    refine (openBrace_alias (t := start .empty)).trans ?_
    rw [openRecord_eq]
    exact congrArg (fun r : OpenScope × Node =>
      ({ scope := .begin r.2 .record, enclosing := [r.1] } : State)) hbegin
  have hkind : d.openedNode.kind = d.keyword.kind := kind_openedNode
  have ht : t = t.inContext { access := d.keyword.access, joinable := false } := by
    rw [← d.keyword.ofScope_eq hkind]
    rfl
  have hnil : HoldsFields d.about d.keyword.access [] t.scope.node :=
    .nil kept_openedNode (hkind ▸ d.keyword.isScope_kind) children_openedNode
  obtain ⟨inner, joinable, hplace, hkey, hhome, hlines⟩ := run_fields
    (by rw [show t.scope.node.kind = _ from hkind]; cases d.keyword <;> decide) hnil false hbody
  obtain ⟨s, hnode, -, hclose⟩ := step_closesRecord
    { inner with context := { access := d.keyword.access, joinable } }
    { outer with context := d.around p } []
    hplace.origin hplace.attached (hplace.suspended rfl) rfl rfl
  refine ⟨s, p.fill inner.node, inner.node, hnode ▸ hheld.fill inner.node, hkey, hhome, ?_⟩
  rw [run_leading d.comment hleading hbefore]
  refine hread.trans ?_
  change ((reading (.begin .empty .source)
    { run := wordsRun false d.words, comment := d.raw?, claim }).step '\x7b').run _ = _
  rw [hopen, ht, run_append, hlines]
  exact hclose

end State

/-! ## The name behind the body -/

namespace OpenScope

variable {d : RecordAlias} {s : OpenScope} {p : Place} {home : Node}

/-- The name for the type and the record, once both are recorded. -/
theorem declareDefined_alias (hheld : d.IsHeld home s.node p) (hkey : home.key = d.openedNode.key)
    (hhome : HoldsFields d.about d.keyword.access d.fields home)
    (hpublic : Comment.isPrivate d.about = false) (hname : Node.isRecordable d.name.text = true)
    (claim : Option (List Claim)) :
    let s' := ({ s with context := { d.around p with claim } } : OpenScope).declareDefined d.name.text
    s'.context.header = none ∧ s'.context.run = [] ∧ ∃ home' children,
      s'.node = Node.empty.withChildren children ∧ children.Perm [d.aliasNode, home'] ∧
        d.DocumentedBy home' := by
  let t : OpenScope := { s with context := { d.around p with claim } }
  let a : Node := Node.describeIf { kind := .typeAlias } d.raw?
  have hawaited : t.awaitedNode a d.name.text = d.aliasNode := d.awaitedNode_eq
  obtain ⟨hheader, hrun, u, hu, hnode⟩ := declareDefined_record (s := t) (a := a) rfl rfl rfl d.name.text
  rw [hawaited] at hu hnode
  refine ⟨hheader, hrun, ?_⟩
  have hnamed : home.name = d.tag.map (·.text) := (Node.name_eq_of_key hkey).trans d.name_openedNode
  have hkind : home.kind = d.keyword.kind := (Node.kind_eq_of_key hkey).trans State.kind_openedNode
  have hshown : ∀ name, (home.withName name).isPrivate = false := fun name =>
    (congrArg Comment.isPrivate hhome.descriptionText).trans hpublic
  have hhidden : d.aliasNode.isPrivate = false :=
    (congrArg Comment.isPrivate d.descriptionText_aliasNode).trans hpublic
  have hfollows : Context.FollowsPlace (·.record) := ⟨fun _ _ => rfl, fun _ _ _ => rfl⟩
  have hrecord : u.node = record s.node d.aliasNode := hu.trans (node_commit d.aliasNode)
  have hother : ∀ n : Node, n.kind = d.keyword.kind → d.aliasNode.label? ≠ n.label? := by
    intro n hn he
    have hsame : n.kind = .typeAlias := Node.kind_of_label? (he.symm.trans rfl)
    rw [hn] at hsame
    cases hkeyword : d.keyword <;> rw [hkeyword] at hsame <;> cases hsame
  cases htagged : d.tag with
  | none =>
    obtain ⟨hempty, rfl⟩ := hheld.untagged htagged
    rw [htagged] at hnamed
    rw [place_commit_aside hfollows rfl, node_nameAside hnamed, hrecord, hempty,
      record_empty hhidden rfl hname] at hnode
    obtain ⟨children, hperm, hchildren⟩ := record_beside (hshown d.name.text) rfl hname
      (hother (home.withName d.name.text) hkind)
    refine ⟨home.withName d.name.text, children, hnode.trans hchildren, hperm, hkind, ?_,
      hhome.ascending, hhome.mem_iff⟩
    rw [RecordAlias.recordName, htagged]
    rfl
  | some tag =>
    obtain ⟨hsingle, rfl⟩ := hheld.tagged (by simp [htagged])
    rw [htagged] at hnamed
    obtain ⟨j, hj⟩ := place_commit_inScope hfollows (s := t) (e := 0) (m := home) rfl
      (by rw [show t.node = _ from hsingle]; rfl) (hother home hkind).symm
    obtain ⟨children, hperm, hchildren⟩ := record_beside hhidden rfl hname
      (hother home hkind).symm
    rw [hj, show (u.nameAside d.name.text (some (.inScope j))).1 = u from rfl, hrecord, hsingle,
      hchildren] at hnode
    refine ⟨home, children, hnode, hperm.trans (.swap _ _ []), hkind, ?_, hhome.ascending,
      hhome.mem_iff⟩
    rw [hnamed, RecordAlias.recordName, htagged]
    rfl

end OpenScope

/-! ## A source -/

namespace RecordAlias

variable (d : RecordAlias)

def typeText : String := d.keyword.name.text ++ d.tag.elim "" (" " ++ ·.text)

theorem typeText_aliasNode : d.aliasNode.typeText = d.typeText := by
  have htext : d.aliasNode.typeText = Run.text d.typeRun := (Run.text_toType _).symm ▸ rfl
  rw [htext, typeRun, typeText, Run.text_cons]
  cases d.tag with
  | none => simp [Run.tailText]
  | some tag => simp [Run.tailText_cons]

end RecordAlias

namespace State

theorem result_recordAlias {d : RecordAlias} (hpublic : Comment.isPrivate d.about = false)
    (htag : ∀ tag ∈ d.tag, Node.isRecordable tag.text = true)
    (hname : Node.isRecordable d.name.text = true) {cs : List Char} (hcs : d.Spelled cs) :
    ∃ home children, ((start .empty).run cs).result.node = Node.empty.withChildren children ∧
      children.Perm [d.aliasNode, home] ∧ d.DocumentedBy home := by
  obtain ⟨leading, before, words, body, between, trailing, hleading, hbefore, hwords, hbody, hbetween,
    htrailing, rfl⟩ := hcs
  obtain ⟨s, p, home, hheld, hkey, hhome, hread⟩ :=
    run_recordBody hpublic htag hleading hbefore hwords hbody
  obtain ⟨claim, hgap⟩ := run_gap_inContext (t := { scope := s }) (c := d.around p) rfl none hbetween
    (d.name.text.toList ++ ';' :: trailing)
  obtain ⟨hheader, hrun, home', children, hnode, hperm, hdocumented⟩ :=
    OpenScope.declareDefined_alias hheld hkey hhome hpublic hname claim
  let c : Context := { d.around p with claim }
  let v : State := { scope := ({ s with context := c } : OpenScope).declareDefined d.name.text }
  have hword : ({ s with context := c } : OpenScope).word d.name.text ';' = v.scope :=
    OpenScope.word_defined rfl rfl (List.cons_ne_nil _ _) rfl d.name.text
  have hend : (reading s c).run (d.name.text.toList ++ ';' :: trailing) =
      (v.step ';').run trailing :=
    (run_name rfl d.name (by decide : isWordPart 0 ';' = false) trailing).trans
      (congrArg (fun scope => (({ scope } : State).step ';').run trailing) hword)
  obtain ⟨hended, henclosing, hmode, hjoinable⟩ := step_semicolon_ended (t := v) rfl hheader hrun
  have hsplit : leading ++ (d.comment.elim [] (·.chars) ++ (before ++ (words ++ '\x7b' ::
      (body ++ '\x7d' :: (between ++ (d.name.text.toList ++ ';' :: trailing)))))) =
      leading ++ (d.comment.elim [] (·.chars) ++ (before ++ (words ++ '\x7b' :: (body ++ ['\x7d'])))) ++
        (between ++ (d.name.text.toList ++ ';' :: trailing)) := by simp
  refine ⟨home', children, ?_, hperm, hdocumented⟩
  rw [hsplit, run_append, hread]
  refine (congrArg (fun u : State => u.result.node) (hgap.trans hend)).trans ?_
  rw [node_run_gap hmode henclosing hjoinable htrailing, hended]
  exact hnode

end State

/-- A record that is defined behind `typedef`: the documentation holds the name for the type and the
record, which are both described by the comment, and the record holds the last field of each public
name whose comment does not hide it. -/
theorem scan_recordAlias (d : RecordAlias) (hname : d.name.text.toList.head? ≠ some '_')
    (htag : ∀ tag ∈ d.tag, tag.text.toList.head? ≠ some '_')
    (hpublic : Comment.isPrivate d.about = false) {text : String} (htext : d.Spelled text.toList) :
    ∃ home children, scan text .empty = Node.empty.withChildren children ∧
      children.Perm [d.aliasNode, home] ∧ d.DocumentedBy home ∧
      d.aliasNode.typeText = d.typeText ∧ d.aliasNode.descriptionText = d.about ∧
      (d.comment = none → d.aliasNode.child? .description = none ∧ d.about = "") ∧
      ∀ l ∈ d.fields, (l.toNode d.keyword.access).typeText = l.type.text ∧
        (l.toNode d.keyword.access).descriptionText = (Comment.normalize (l.raw?.getD "")).text := by
  obtain ⟨home, children, hscan, hperm, hdocumented⟩ := State.result_recordAlias hpublic
    (fun tag htagged => tag.isRecordable_iff.mpr (htag tag htagged)) (d.name.isRecordable_iff.mpr hname)
    htext
  refine ⟨home, children, hscan, hperm, hdocumented, d.typeText_aliasNode, d.descriptionText_aliasNode,
    fun hnone => ?_, fun l _ => ⟨l.typeText_toNode _, l.descriptionText_toNode _⟩⟩
  have hraw : d.raw? = none := by rw [RecordAlias.raw?, hnone]; rfl
  unfold RecordAlias.aliasNode RecordAlias.about
  rw [hraw]
  exact ⟨rfl, rfl⟩

/-- A structure without a tag, with a field that is declared twice and two that are hidden. -/
theorem scan_recordAlias_untagged :
    let plain : FieldLine :=
      { type := { words := [⟨"int", by decide⟩], words_ne_nil := by decide }
        name := ⟨"y", by decide⟩, leads := by decide }
    let pointer : FieldLine :=
      { type := { words := [⟨"char", by decide⟩], stars := 1, words_ne_nil := by decide }
        name := ⟨"x", by decide⟩, leads := by decide
        comment := some (.line ⟨"/ Left.".toList, by decide⟩) }
    let underscored : FieldLine :=
      { type := { words := [⟨"int", by decide⟩], words_ne_nil := by decide }
        name := ⟨"_pad", by decide⟩, leads := by decide
        comment := some (.block ⟨" Unused. ".toList, by decide⟩) }
    let hidden : FieldLine :=
      { type := { words := [⟨"int", by decide⟩], words_ne_nil := by decide }
        name := ⟨"z", by decide⟩, leads := by decide
        comment := some (.block ⟨"@private@".toList, by decide⟩) }
    let last : FieldLine :=
      { type := { words := [⟨"unsigned", by decide⟩, ⟨"int", by decide⟩]
                  words_ne_nil := by decide }
        name := ⟨"y", by decide⟩, leads := by decide
        comment := some (.block ⟨" Up. ".toList, by decide⟩) }
    let d : RecordAlias :=
      { comment := some ⟨" A point. ".toList, by decide⟩
        keyword := .structType
        name := ⟨"Point", by decide⟩
        fields := [plain, pointer, underscored, hidden, last] }
    let text := "/* A point. */\ntypedef struct \x7b\n  int y;\n  char *x; /// Left.\n  int _pad; /* Unused. */\n  int z; /*@private@*/\n  unsigned int y; /* Up. */\n\x7d Point;\n"
    d.Spelled text.toList ∧ ∃ home children,
      scan text .empty = Node.empty.withChildren children ∧ children.Perm [d.aliasNode, home] ∧
        d.DocumentedBy home ∧ pointer.toNode none ∈ home.children ∧ last.toNode none ∈ home.children := by
  intro plain pointer underscored hidden last d text
  have hgap : IsGap [' '] := by decide
  have hapart : ∀ ps : List Piece, [' '] = [] → ∃ c, ps.head? = some (.mark c) ∧ c ≠ '(' :=
    fun _ h => absurd h (List.cons_ne_nil _ _)
  have hplain : plain.Spelled "\n  int y;\n".toList :=
    ⟨"\n  ".toList, _, [], by decide, ⟨_, .word hgap (hapart _) .nil, rfl⟩, (by decide : IsBlank []),
      by decide⟩
  have hpointer : pointer.Spelled "  char *x; /// Left.\n".toList :=
    ⟨"  ".toList, _, " /// Left.".toList, by decide,
      ⟨_, .word hgap (hapart _) (.mark (by decide : IsGap []) .nil), rfl⟩, ⟨[' '], by decide, by decide⟩,
      by decide⟩
  have hunderscored : underscored.Spelled "  int _pad; /* Unused. */\n".toList :=
    ⟨"  ".toList, _, " /* Unused. */".toList, by decide, ⟨_, .word hgap (hapart _) .nil, rfl⟩,
      ⟨[' '], [], by decide, by decide, by decide⟩, by decide⟩
  have hhidden : hidden.Spelled "  int z; /*@private@*/\n".toList :=
    ⟨"  ".toList, _, " /*@private@*/".toList, by decide, ⟨_, .word hgap (hapart _) .nil, rfl⟩,
      ⟨[' '], [], by decide, by decide, by decide⟩, by decide⟩
  have hlast : last.Spelled "  unsigned int y; /* Up. */\n".toList :=
    ⟨"  ".toList, _, " /* Up. */".toList, by decide,
      ⟨_, .word hgap (hapart _) (.word hgap (hapart _) .nil), rfl⟩,
      ⟨[' '], [], by decide, by decide, by decide⟩, by decide⟩
  have htext : d.Spelled text.toList :=
    ⟨[], ['\n'], _, _, [' '], ['\n'], by decide, by decide,
      .cons hgap (by decide) (.cons hgap (by decide) .nil),
      .cons hplain (.cons hpointer (.cons hunderscored (.cons hhidden (.cons hlast
        (.nil (by decide : IsGap [])))))), hgap, by decide, by decide +kernel⟩
  obtain ⟨home, children, hscan, hperm, hdocumented, -⟩ :=
    scan_recordAlias d (by decide) (fun _ he => by cases he) (by decide +kernel) htext
  exact ⟨htext, home, children, hscan, hperm, hdocumented,
    (hdocumented.mem_iff _).mpr (.inr ⟨pointer, rfl, by decide, rfl⟩),
    (hdocumented.mem_iff _).mpr (.inr ⟨last, rfl, by decide, rfl⟩)⟩

end HeaderDocs.Scan
