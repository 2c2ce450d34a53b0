import HeaderDocs.Proofs.Scan.MemberFunctions
import HeaderDocs.Proofs.Scan.RecordHeadings

/-!
# The access of members

A word for access in the body of a record says what access the members behind it have, up to the next
such word. Bodies in the body have an access of their own, which begins anew with each of them.

* `RecordBody.entries`: the members of a body with their access.
* `RecordBody.Text.reads`: reading a body, by induction on its members.
* `memberAccess_holds`: a record in a source, with all records in its body.
-/
namespace HeaderDocs.Scan

open HeaderDocs.Text

/-! ## New children -/

/-- A scope that has gained children, and is otherwise the same. -/
structure OpenScope.GainsAll (s : OpenScope) (new : List Node) (s' : OpenScope) : Prop where
  place : s.SamePlace s'
  key : s'.node.key = s.node.key
  children : s'.node.children.Perm (new ++ s.node.children)

namespace OpenScope

variable {s s' s'' : OpenScope} {node : Node} {new more : List Node}

theorem GainsAll.refl (s : OpenScope) : s.GainsAll [] s := ⟨⟨rfl, rfl, id⟩, rfl, .refl _⟩

theorem GainsAll.trans (h : s.GainsAll new s') (h' : s'.GainsAll more s'') :
    s.GainsAll (new ++ more) s'' := by
  refine ⟨h.place.trans h'.place, h'.key.trans h.key, h'.children.trans ?_⟩
  calc List.Perm (more ++ s'.node.children) (more ++ (new ++ s.node.children)) :=
        h.children.append_left more
    List.Perm _ ((more ++ new) ++ s.node.children) := by rw [List.append_assoc]
    List.Perm _ ((new ++ more) ++ s.node.children) := List.perm_append_comm.append_right _

theorem GainsAll.mem_iff (h : s.GainsAll new s') {c : Node} :
    c ∈ s'.node.children ↔ c ∈ new ∨ c ∈ s.node.children := by
  rw [h.children.mem_iff, List.mem_append]

def newNodes (name : Name) (node : Node) : List Node :=
  if Node.isRecordable name.text then [node] else []

theorem Gains.all (h : s.Gains node s') (name : Name) (hpublic : node.isPrivate = false)
    (hname : node.name = some name.text) (hnew : ∀ c ∈ s.node.children, c.label? ≠ node.label?) :
    s.GainsAll (newNodes name node) s' := by
  refine ⟨h.samePlace, by rw [h.node, key_record], ?_⟩
  rw [h.node, newNodes]
  split
  · rename_i hrecordable
    exact perm_record_new hpublic hname hrecordable hnew
  · rename_i hrecordable
    rw [record_of_not_recordable hname (by simpa using hrecordable)]
    exact .refl _

end OpenScope

/-! ## Members and their access -/

structure MemberEntry where
  kind : Kind
  name : Option String
  access : Option String
deriving DecidableEq

def asMember? (n : Node) : Option MemberEntry :=
  if n.kind = .function ∨ n.kind = .var then some ⟨n.kind, n.name, n.scope⟩ else none

/-- The functions and variables of a node. -/
def memberEntries (n : Node) : List MemberEntry := n.children.filterMap asMember?

inductive RecordBody where
  | nil
  | specifier (access : AccessWord) (rest : RecordBody)
  | var (v : MemberVariable) (rest : RecordBody)
  | function (f : MemberFunction) (rest : RecordBody)
  /-- A record in the body, with a body of its own. -/
  | record (heading : RecordHeading) (inner rest : RecordBody)

namespace RecordBody

/-- How a body is written, up to the brace behind it. A specifier ends with white space. -/
inductive Text : RecordBody → List Char → Prop
  | nil {gap : List Char} : IsGap gap → Text nil gap
  | specifier {a : AccessWord} {rest : RecordBody} {before between cs : List Char} {c : Char} :
      IsGap before → IsGap between → isSpace c = true → Text rest cs →
      Text (specifier a rest) (before ++ (a.name.text.toList ++ (between ++ ':' :: c :: cs)))
  | var {v : MemberVariable} {rest : RecordBody} {before member cs : List Char} :
      IsGap before → v.Spelled member → Text rest cs → Text (var v rest) (before ++ (member ++ cs))
  | function {f : MemberFunction} {rest : RecordBody} {before member cs : List Char} :
      IsGap before → f.Spelled member → Text rest cs → Text (function f rest) (before ++ (member ++ cs))
  | record {h : RecordHeading} {inner rest : RecordBody}
      {before heading body between cs : List Char} :
      IsGap before → h.Spelled heading → Text inner body → IsGap between → Text rest cs →
      Text (record h inner rest)
        (before ++ (heading ++ (body ++ '\x7d' :: (between ++ ';' :: cs))))

/-- The kinds and names of the members. -/
def labels : RecordBody → List (Kind × String)
  | nil => []
  | specifier _ rest => rest.labels
  | var v rest => (.var, v.name.text) :: rest.labels
  | function f rest => (.function, f.name.text) :: rest.labels
  | record h _ rest => h.name.toList.map (h.keyword.kind, ·.text) ++ rest.labels

/-- No two members of a body have the same kind and name. -/
def isDistinct : RecordBody → Bool
  | nil => true
  | specifier _ rest => rest.isDistinct
  | var v rest => (.var, v.name.text) ∉ rest.labels && rest.isDistinct
  | function f rest => (.function, f.name.text) ∉ rest.labels && rest.isDistinct
  | record h inner rest =>
    h.name.all (fun name => (h.keyword.kind, name.text) ∉ rest.labels) && inner.isDistinct &&
      rest.isDistinct

def entry (kind : Kind) (name : Name) (access : Option String) : List MemberEntry :=
  if Node.isRecordable name.text then [⟨kind, some name.text, access⟩] else []

/-- The functions and variables of a body that are recorded. Each has the access that the last
specifier before it says, or the one at the beginning. -/
def entries : Option String → RecordBody → List MemberEntry
  | _, nil => []
  | _, specifier a rest => entries (some a.name.text) rest
  | access, var v rest => entry .var v.name access ++ entries access rest
  | access, function f rest => entry .function f.name access ++ entries access rest
  | access, record _ _ rest => entries access rest

/-- The records of the body that are recorded have the members of their own bodies. -/
def HoldsRecords : RecordBody → List Node → Prop
  | nil, _ => True
  | specifier _ rest, ns => rest.HoldsRecords ns
  | var _ rest, ns => rest.HoldsRecords ns
  | function _ rest, ns => rest.HoldsRecords ns
  | record h inner rest, ns =>
    (∀ name ∈ h.name, Node.isRecordable name.text = true → ∃ n ∈ ns,
      n.label? = some (h.keyword.kind, name.text) ∧
        (memberEntries n).Perm (inner.entries h.keyword.access) ∧ inner.HoldsRecords n.children) ∧
      rest.HoldsRecords ns

/-- The node has the functions and variables of the body with their access, and so have the records
in it, where the access is the given one at the beginning. -/
structure Holds (b : RecordBody) (access : Option String) (n : Node) : Prop where
  members : (memberEntries n).Perm (b.entries access)
  records : b.HoldsRecords n.children

theorem HoldsRecords.mono {b : RecordBody} {ns ms : List Node} (h : b.HoldsRecords ns)
    (hsub : ns ⊆ ms) : b.HoldsRecords ms := by
  induction b with
  | nil => trivial
  | specifier a rest ih => exact ih h
  | var v rest ih => exact ih h
  | function f rest ih => exact ih h
  | record heading inner rest _ ih =>
    refine ⟨fun name hname hrecordable => ?_, ih h.2⟩
    obtain ⟨n, hn, hholds⟩ := h.1 name hname hrecordable
    exact ⟨n, hsub hn, hholds⟩

/-- What reading a body does to the scope. -/
def Fills (b : RecordBody) (access : Option String) (s s' : OpenScope) : Prop :=
  ∃ new, s.GainsAll new s' ∧ (new.filterMap asMember?).Perm (b.entries access) ∧
    b.HoldsRecords new

/-- Whether the labels of the body are new in a scope. -/
def IsNew (b : RecordBody) (n : Node) : Prop := ∀ c ∈ n.children, ∀ l ∈ b.labels, c.label? ≠ some l

/-- The scanner reads the text as the body, wherever it stands. -/
def Reads (b : RecordBody) (cs : List Char) : Prop :=
  ∀ (t : State) (access : Option String) (joinable : Bool) (claim : Option (List Claim)),
    t.scope.node.kind.isRecord = true → b.IsNew t.scope.node →
    ∃ s access' joinable' claim', b.Fills access t.scope s ∧
      (t.inContext { access, joinable, claim }).run cs =
        (t.inScope s).inContext { access := access', joinable := joinable', claim := claim' }

end RecordBody

/-! ## Specifiers -/

namespace State

variable {t : State} {access : Option String} {claim : Option (List Claim)}

/-- A word for access where a member may begin, perhaps with a colon that touches it. -/
theorem word_access (hrecord : t.scope.node.kind.isRecord = true) (a : AccessWord) {token : String}
    (htoken : withoutColons token = a.name.text) (c : Char) :
    (t.inContext { access, claim }).update (·.word token c) =
      t.inContext { access := some a.name.text, claim } := by
  have haccess : isAccess (withoutColons token) = true := AccessWord.isAccess_iff.mpr ⟨a, htoken⟩
  have hword : ({ t.scope with context := { access, claim } } : OpenScope).word token c =
      { t.scope with context := { access := some a.name.text, claim } } := by
    unfold OpenScope.word OpenScope.declarationWord
    dsimp only
    rw [if_pos (by decide : (0 == 0) = true), if_pos (by simp [hrecord, haccess]), htoken]
    rfl
  exact congrArg (fun scope => ({ t with mode := .plain, scope } : State)) hword

theorem run_specifier (hrecord : t.scope.node.kind.isRecord = true) (a : AccessWord)
    {between : List Char} (hbetween : IsGap between) {c : Char} (hc : isSpace c = true)
    (access : Option String) (joinable : Bool) (claim : Option (List Claim)) (rest : List Char) :
    ∃ claim', (t.inContext { access, joinable, claim }).run
        (a.name.text.toList ++ (between ++ ':' :: c :: rest)) =
      (t.inContext { access := some a.name.text, claim := claim' }).run rest := by
  have hspace : ∀ claim, ∃ claim', (t.inContext { access := some a.name.text, claim }).run
      (c :: rest) = (t.inContext { access := some a.name.text, claim := claim' }).run rest :=
    fun claim => run_gap_inContext (t := t) (c := { access := some a.name.text }) rfl claim
      (show IsGap [c] by simpa [IsGap] using hc) rest
  rw [run_name_joinable (t := t) (c := { access, claim }) joinable a.name]
  cases between with
  | nil =>
    -- the colon belongs to the word
    have hword := run_nameColon (t := t) (c := { access, claim }) rfl a.name
      (isWordPart_of_isSpace hc _) rest
    rw [word_access hrecord a a.name.withoutColons_concat] at hword
    obtain ⟨claim', hend⟩ := hspace claim
    exact ⟨claim', hword.trans hend⟩
  | cons d between =>
    have hd : isSpace d = true := (isGap_cons.mp hbetween).1
    have hword := run_word_inContext (t := t) (c := { access, claim }) rfl a.name.toWord
      (isWordPart_of_isSpace hd _) (between ++ ':' :: c :: rest)
    rw [show a.name.toWord.text = a.name.text from rfl,
      word_access hrecord a a.name.withoutColons_text] at hword
    obtain ⟨claim₁, hgap⟩ := run_gap_inContext (t := t) (c := { access := some a.name.text }) rfl claim
      hbetween (':' :: c :: rest)
    -- nothing has begun, so that a colon is passed over
    have hcolon : (t.inContext { access := some a.name.text, claim := claim₁ }).step ':' =
        t.inContext { access := some a.name.text, claim := claim₁ } :=
      step_mark_inContext rfl (f := (·.pushIfStarted ":" true)) (by decide) (by decide) fun _ => rfl
    obtain ⟨claim', hend⟩ := hspace claim₁
    refine ⟨claim', hword.trans (hgap.trans (Eq.trans ?_ hend))⟩
    exact congrArg (State.run · (c :: rest)) hcolon

end State

/-! ## Functions -/

/-- A function without a comment is not hidden. -/
theorem isPrivate_headerOf {c : Context} (hcomment : c.comment = none) (name : Name)
    (arguments : List Node) : ((c.headerOf name).extend arguments).node.isPrivate = false := by
  have hnone : (OpenScope.resultOf? c.run c.runComment).toList.find? (Node.isKind .description) =
      none := List.find?_eq_none.mpr fun n hn => by simpa [Node.isKind] using kind_of_resultOf? n hn
  have hchild : ((c.headerOf name).extend arguments).node.child? .description =
      some (Node.descriptionOf "") := by
    simp only [Node.child?, Context.headerOf, Header.extend, Node.withChildren, List.find?_append, hnone,
      hcomment, Option.getD_none, Comment.normalize_empty]
    rfl
  rw [Node.isPrivate, Node.descriptionText, hchild]
  exact (by decide +kernel : Comment.isPrivate "" = false)

/-! ## Records -/

/-- Where a record goes whose body has been read. -/
inductive RecordHeading.Puts (h : RecordHeading) (home scope : Node) : Node → Prop
  /-- Without a public name it is kept aside. -/
  | aside : (∀ name ∈ h.name, Node.isRecordable name.text = false) → Puts h home scope scope
  /-- Otherwise it was recorded before its body. -/
  | inScope {name : Name} {opened old : Node} {i : Nat} : h.name = some name →
      Node.isRecordable name.text = true → opened.isPrivate = false →
      opened.kind = h.keyword.kind → opened.name = some name.text →
      (record scope opened).children[i]? = some old → old.key = opened.key →
      Puts h home scope ((record scope opened).modifyAt (fun _ => home) [i])

namespace State

variable {t : State} {access : Option String} {claim : Option (List Claim)}

/-- The scope around the body of a record that begins, and the node that is to be filled. -/
theorem beginRecord_heading (s : OpenScope) (h : RecordHeading) {run : Run}
    (access : Option String) (claim : Option (List Claim))
    (hname : (run.texts[1]?).map withoutColons = h.name.map (·.text)) :
    ∃ outer p home₀, home₀.kind = h.keyword.kind ∧ home₀.name = h.name.map (·.text) ∧
      home₀.children = [Node.descriptionOf ""] ∧ s.SamePlace outer ∧
      (∀ home : Node, home.key = home₀.key → h.Puts home s.node (p.fillIn home outer.node)) ∧
      beginRecord h.keyword.kind false run { s with context := { access, run, claim } } =
        ({ outer with context := { access, record := some p } }, home₀) := by
  let c : Context := { access, run, claim }
  let opened := openedNode h.keyword.kind false run c.comment
  have hopened : opened.kind = h.keyword.kind := kind_openedNode
  have hchildren : opened.children = [Node.descriptionOf ""] := by
    rw [show opened.children = _ from children_openedNode, show c.comment.getD "" = "" from rfl,
      Comment.normalize_empty]
  have hpublic : opened.isPrivate = false := by
    rw [Node.isPrivate, Node.descriptionText, Node.child?, hchildren]
    exact (by decide +kernel : Comment.isPrivate "" = false)
  have hnamed : opened.name = h.name.map (·.text) := name_openedNode.trans hname
  have haround : ∀ p, c.around false run p = { access, record := some p } := fun _ => rfl
  by_cases hrecordable : ∃ name ∈ h.name, Node.isRecordable name.text = true
  · obtain ⟨name, hsome, hrecordable⟩ := hrecordable
    have hsome : h.name = some name := hsome
    have hopenedName : opened.name = some name.text := by rw [hnamed, hsome]; rfl
    obtain ⟨outer, i, home₀, hgains, hhome, hkey, hhomeChildren, hbegin⟩ :=
      beginRecord_named h.keyword.kind false run (s := s) (c := c) ⟨rfl, rfl, rfl, rfl, rfl, rfl⟩ hpublic hopenedName hrecordable
    rw [haround] at hbegin
    rw [hgains.node] at hhome
    refine ⟨outer, .inScope i, home₀, (Node.kind_eq_of_key hkey).trans hopened,
      (Node.name_eq_of_key hkey).trans hnamed, hhomeChildren.trans hchildren, hgains.samePlace,
      fun home _ => ?_, hbegin⟩
    rw [Place.fillIn, hgains.node]
    exact .inScope hsome hrecordable hpublic hopened hopenedName hhome hkey
  · have hunrecordable : ∀ name ∈ h.name, Node.isRecordable name.text = false := fun name hsome =>
      Bool.eq_false_iff.mpr fun he => hrecordable ⟨name, hsome, he⟩
    have hbegin := beginRecord_unnamed h.keyword.kind false run (s := s) (c := c) hpublic fun name he => by
        rw [hnamed] at he
        obtain ⟨name', hsome, rfl⟩ := Option.map_eq_some_iff.mp he
        exact hunrecordable name' hsome
    rw [haround] at hbegin
    exact ⟨s, .aside opened, opened, hopened, hnamed, hchildren, ⟨rfl, rfl, id⟩,
      fun _ _ => .aside hunrecordable, hbegin⟩

theorem run_afterRecord (access : Option String) (p : Place) {between : List Char} (hbetween : IsGap between)
    (rest : List Char) : ∃ claim', (t.inContext { access, record := some p }).run
        (between ++ ';' :: rest) = (t.inContext { access, claim := claim' }).run rest := by
  obtain ⟨claim', hgap⟩ := run_gap_inContext (t := t) (c := { access, record := some p }) rfl none
    hbetween (';' :: rest)
  have hsemicolon : ({ t.scope with context :=
      { access, record := some p, claim := claim' } } : OpenScope).semicolon =
        { t.scope with context := { access, claim := claim' } } := by
    unfold OpenScope.semicolon
    rw [OpenScope.endHeader_of_none rfl, OpenScope.endRun_of_nil rfl]
    rfl
  have hstep : (t.inContext { access, record := some p, claim := claim' }).step ';' =
      t.inContext { access, claim := claim' } :=
    (step_semicolon_inContext rfl).trans
      (congrArg (fun scope => ({ t with mode := .plain, scope } : State)) hsemicolon)
  exact ⟨claim', hgap.trans (congrArg (State.run · rest) hstep)⟩

/-- A record with its body: what is read in the body changes nothing around it. -/
theorem run_record (h : RecordHeading) {heading : List Char} (hheading : h.Spelled heading)
    {inner : RecordBody} {body : List Char} (hbody : inner.Reads body) {between : List Char}
    (hbetween : IsGap between) (access : Option String) (joinable : Bool)
    (claim : Option (List Claim)) (rest : List Char) :
    ∃ s claim' home, t.scope.SamePlace s ∧ home.kind = h.keyword.kind ∧
      home.name = h.name.map (·.text) ∧ inner.Holds h.keyword.access home ∧
      h.Puts home t.scope.node s.node ∧
      (t.inContext { access, joinable, claim }).run
          (heading ++ (body ++ '\x7d' :: (between ++ ';' :: rest))) =
        ((t.inScope s).inContext { access, claim := claim' }).run rest := by
  obtain ⟨run, claim₁, hhead, hname, hread⟩ := run_recordHeading (t := t) h hheading access joinable
    claim (body ++ '\x7d' :: (between ++ ';' :: rest))
  obtain ⟨outer, p, home₀, hkind, hnamed, hchildren, hplace, hputs, hbegin⟩ :=
    beginRecord_heading t.scope h access claim₁ hname
  let u : State :=
    { scope := .begin home₀ .record
      enclosing := { outer with context := { access, record := some p } } :: t.enclosing }
  have hopen : (t.inContext { access, run, claim := claim₁ }).openRecord h.keyword.kind false run =
      u.inContext { access := h.keyword.access } := by
    rw [openRecord_eq, ← h.keyword.ofScope_eq hkind]
    exact congrArg (fun r : OpenScope × Node =>
      ({ scope := .begin r.2 .record, enclosing := r.1 :: t.enclosing } : State)) hbegin
  have hnew : inner.IsNew u.scope.node := by
    intro c hc l _ hlabel
    rw [show u.scope.node.children = _ from hchildren, List.mem_singleton] at hc
    rw [hc] at hlabel
    cases hlabel
  obtain ⟨s, access', joinable', claim', ⟨new, hgains, hmembers, hrecords⟩, hinner⟩ :=
    hbody u h.keyword.access false none (by
      rw [show u.scope.node.kind = _ from hkind]
      exact h.keyword.isRecord_kind) hnew
  obtain ⟨s', hnode, hplace', hclose⟩ := step_closesRecord
    { s with context := { access := access', joinable := joinable', claim := claim' } }
    { outer with context := { access, record := some p } } t.enclosing
    hgains.place.origin hgains.place.attached (hgains.place.suspended rfl) rfl rfl
  obtain ⟨claim₂, hafter⟩ := run_afterRecord (t := t.inScope s') access (p.fill s.node) hbetween
    rest
  have hholds : inner.Holds h.keyword.access s.node := by
    refine ⟨?_, hrecords.mono fun n hn => hgains.mem_iff.mpr (.inl hn)⟩
    refine (hgains.children.filterMap asMember?).trans ?_
    rw [List.filterMap_append, show u.scope.node.children = _ from hchildren]
    simpa [asMember?, Node.descriptionOf] using hmembers
  refine ⟨s', claim₂, s.node, hplace.trans ⟨hplace'.origin, hplace'.attached, hplace'.suspended⟩,
    (Node.kind_eq_of_key hgains.key).trans hkind, (Node.name_eq_of_key hgains.key).trans hnamed, hholds,
    hnode ▸ hputs s.node hgains.key, ?_⟩
  rw [hread, hopen, run_append, hinner]
  refine Eq.trans ?_ hafter
  exact congrArg (State.run · (between ++ ';' :: rest)) hclose

end State

theorem RecordHeading.Puts.mem {h : RecordHeading} {home scope scope' : Node}
    (hputs : h.Puts home scope scope') {name : Name} (hname : h.name = some name)
    (hrecordable : Node.isRecordable name.text = true) : home ∈ scope'.children := by
  cases hputs with
  | aside hunrecordable =>
    rw [hunrecordable name hname] at hrecordable
    cases hrecordable
  | @inScope _ opened old i _ _ _ _ _ hold _ =>
    change home ∈ (record scope opened).children.modify i fun _ => home
    rw [modify_eq_set hold]
    exact List.mem_set (List.getElem?_eq_some_iff.mp hold).1 home

/-- A record with a new label is one more child. -/
theorem RecordHeading.Puts.all {h : RecordHeading} {s s' : OpenScope} {home : Node}
    (hputs : h.Puts home s.node s'.node) (hplace : s.SamePlace s')
    (hnew : ∀ name ∈ h.name, ∀ c ∈ s.node.children, c.label? ≠ some (h.keyword.kind, name.text)) :
    s.GainsAll (h.name.elim [] (OpenScope.newNodes · home)) s' := by
  generalize hnode : s'.node = node at hputs
  cases hputs with
  | aside hunrecordable =>
    have hnil : h.name.elim [] (OpenScope.newNodes · home) = [] := by
      cases hsome : h.name with
      | none => rfl
      | some name => simp [OpenScope.newNodes, hunrecordable name hsome]
    rw [hnil]
    exact ⟨hplace, by rw [hnode], by rw [hnode]; exact .refl _⟩
  | @inScope name opened old i hsome hrecordable hpublic hopened hopenedName hold holdKey =>
    have hlabel : opened.label? = some (h.keyword.kind, name.text) := by
      rw [Node.label?, hopenedName, hopened]
      rfl
    have hperm := perm_record_new hpublic hopenedName hrecordable fun c hc he =>
      hnew name hsome c hc (he.trans hlabel)
    obtain ⟨hlt, hget⟩ := List.getElem?_eq_some_iff.mp hold
    -- the new child is the only one with its label
    have holdLabel : old.label? = opened.label? := by
      rw [Node.label?, Node.label?, Node.kind_eq_of_key holdKey, Node.name_eq_of_key holdKey]
    obtain rfl : old = opened := by
      have hmem : old ∈ (record s.node opened).children := List.mem_of_getElem? hold
      rcases List.mem_cons.mp (hperm.mem_iff.mp hmem) with he | hc
      · exact he
      · exact absurd (holdLabel.trans hlabel) (hnew name hsome old hc)
    have hrest : ((record s.node old).children.eraseIdx i).Perm s.node.children := by
      have hcons := List.getElem_cons_eraseIdx_perm hlt
      rw [hget] at hcons
      exact (List.perm_cons old).mp (hcons.trans hperm)
    refine ⟨hplace, ?_, ?_⟩
    · rw [hnode]
      exact key_record s.node old
    · rw [hnode, hsome, Option.elim, OpenScope.newNodes, if_pos hrecordable]
      change ((record s.node old).children.modify i fun _ => home).Perm _
      rw [modify_eq_set hold]
      exact (List.set_perm_cons_eraseIdx hlt home).trans (hrest.cons home)

/-! ## Bodies -/

namespace RecordBody

/-- What reading the first member of a body does to the scope. -/
structure Adds (b rest : RecordBody) (access : Option String) (new : List Node) (s s' : OpenScope) :
    Prop where
  gains : s.GainsAll new s'
  labels : ∀ c ∈ new, ∀ l ∈ rest.labels, c.label? ≠ some l
  entries : b.entries access = new.filterMap asMember? ++ rest.entries access
  records : ∀ more, rest.HoldsRecords more → b.HoldsRecords (new ++ more)

/-- Behind a member the labels of the other ones are still new. -/
theorem Adds.isNew {b rest : RecordBody} {access : Option String} {new : List Node}
    {s s' : OpenScope} (h : b.Adds rest access new s s') (hnew : rest.IsNew s.node) :
    rest.IsNew s'.node := by
  intro c hc
  rcases h.gains.mem_iff.mp hc with hc | hc
  · exact h.labels c hc
  · exact hnew c hc

/-- What comes of a body whose first member has been read. -/
theorem Adds.fills {b rest : RecordBody} {access : Option String} {new : List Node}
    {s s₁ s' : OpenScope} (h : b.Adds rest access new s s₁) (hrest : rest.Fills access s₁ s') :
    b.Fills access s s' := by
  obtain ⟨more, hmore, hmembers, hholds⟩ := hrest
  refine ⟨new ++ more, h.gains.trans hmore, ?_, h.records more hholds⟩
  rw [List.filterMap_append, h.entries]
  exact hmembers.append_left _

theorem mem_newNodes {name : Name} {node c : Node} (hc : c ∈ OpenScope.newNodes name node) :
    c = node := by
  unfold OpenScope.newNodes at hc
  split at hc
  · exact List.mem_singleton.mp hc
  · cases hc

theorem filterMap_newNodes (kind : Kind) {name : Name} (access : Option String) {node : Node}
    (h : asMember? node = some ⟨kind, some name.text, access⟩) :
    (OpenScope.newNodes name node).filterMap asMember? = entry kind name access := by
  unfold OpenScope.newNodes entry
  split
  · simp [h]
  · rfl

/-- A function or a variable that is recorded is a member in front of the others. -/
theorem adds_member {b rest : RecordBody} {kind : Kind} {name : Name} {access : Option String}
    {node : Node} {s s' : OpenScope} (hgains : s.Gains node s') (hpublic : node.isPrivate = false)
    (hmember : asMember? node = some ⟨kind, some name.text, access⟩)
    (hlabels : b.labels = (kind, name.text) :: rest.labels)
    (hentries : b.entries access = entry kind name access ++ rest.entries access)
    (hrecords : b.HoldsRecords = rest.HoldsRecords) (hdistinct : (kind, name.text) ∉ rest.labels)
    (hnew : b.IsNew s.node) : b.Adds rest access (OpenScope.newNodes name node) s s' := by
  obtain ⟨hkind, hname⟩ : node.kind = kind ∧ node.name = some name.text := by
    unfold asMember? at hmember
    split at hmember
    · obtain ⟨hkind, hname, -⟩ := MemberEntry.mk.inj (Option.some.inj hmember)
      exact ⟨hkind, hname⟩
    · cases hmember
  have hlabel : node.label? = some (kind, name.text) := by
    rw [Node.label?, hname, hkind]
    rfl
  refine ⟨hgains.all name hpublic hname fun c hc => ?_, fun c hc l hl he => ?_, ?_, fun more hmore => ?_⟩
  · rw [hlabel]
    exact hnew c hc _ (hlabels ▸ List.mem_cons_self)
  · rw [mem_newNodes hc, hlabel] at he
    cases he
    exact hdistinct hl
  · rw [hentries, filterMap_newNodes kind access hmember]
  · rw [hrecords]
    exact hmore.mono (List.subset_append_right _ _)

/-- A record is a member in front of the others, and has those of its own body. -/
theorem adds_record {h : RecordHeading} {inner rest : RecordBody} {access : Option String}
    {home : Node} {s s' : OpenScope} (hplace : s.SamePlace s') (hputs : h.Puts home s.node s'.node)
    (hkind : home.kind = h.keyword.kind) (hname : home.name = h.name.map (·.text))
    (hholds : inner.Holds h.keyword.access home)
    (hdistinct : ∀ name ∈ h.name, (h.keyword.kind, name.text) ∉ rest.labels)
    (hnew : (record h inner rest).IsNew s.node) :
    (record h inner rest).Adds rest access (h.name.elim [] (OpenScope.newNodes · home)) s s' := by
  have hall := hputs.all hplace fun name hsome c hc =>
    hnew c hc _ (List.mem_append_left _ (by simpa using ⟨name, hsome, rfl⟩))
  have hmem : ∀ c ∈ h.name.elim [] (OpenScope.newNodes · home), c = home := by
    intro c hc
    cases hsome : h.name with
    | none =>
      rw [hsome] at hc
      cases hc
    | some name =>
      rw [hsome] at hc
      exact mem_newNodes hc
  have hmember : asMember? home = none := by
    rw [asMember?, hkind]
    cases h.keyword <;> rfl
  refine ⟨hall, fun c hc l hl he => ?_, ?_, fun more hmore => ⟨fun name hsome hrecordable => ?_, ?_⟩⟩
  · rw [hmem c hc, Node.label?, hname, hkind] at he
    cases hsome : h.name with
    | none =>
      rw [hsome] at he
      cases he
    | some name =>
      rw [hsome] at he
      cases he
      exact hdistinct name hsome hl
  · rw [List.filterMap_eq_nil_iff.mpr fun c hc => hmem c hc ▸ hmember]
    rfl
  · have hsome : h.name = some name := hsome
    refine ⟨home, ?_, ?_, hholds.members, hholds.records⟩
    · rw [hsome, Option.elim, OpenScope.newNodes, if_pos hrecordable]
      exact List.mem_append_left _ List.mem_cons_self
    · rw [Node.label?, hname, hkind, hsome]
      rfl
  · exact hmore.mono (List.subset_append_right _ _)

/-- A member in front of a body, with the white space before it. -/
theorem Reads.cons {b rest : RecordBody} {before member cs : List Char} (hbefore : IsGap before)
    (hlabels : rest.labels ⊆ b.labels)
    (hmember : ∀ (t : State) (access : Option String) (joinable : Bool) (claim : Option (List Claim)),
      t.scope.node.kind.isRecord = true → b.IsNew t.scope.node →
      ∃ new s claim', b.Adds rest access new t.scope s ∧
        (t.inContext { access, joinable, claim }).run (member ++ cs) =
          ((t.inScope s).inContext { access, claim := claim' }).run cs)
    (hrest : rest.Reads cs) : b.Reads (before ++ (member ++ cs)) := by
  intro t access joinable claim hrecord hnew
  obtain ⟨claim₁, joinable₁, hgap⟩ := State.run_gap_pending (t := t) { access } claim joinable hbefore
    (member ++ cs)
  obtain ⟨new, s₁, claim₂, hadds, hread⟩ := hmember t access joinable₁ claim₁ hrecord hnew
  have hkind : (t.inScope s₁).scope.node.kind = t.scope.node.kind :=
    Node.kind_eq_of_key hadds.gains.key
  obtain ⟨s, access', joinable', claim', hfills, hlast⟩ := hrest (t.inScope s₁) access false claim₂
    (hkind ▸ hrecord) (hadds.isNew fun c hc l hl => hnew c hc l (hlabels hl))
  exact ⟨s, access', joinable', claim', hadds.fills hfills, hgap.trans (hread.trans hlast)⟩

/-- The scanner reads what is written as a body, one member after the other. -/
theorem Text.reads {b : RecordBody} {cs : List Char} (hcs : b.Text cs)
    (hdistinct : b.isDistinct = true) : b.Reads cs := by
  induction hcs with
  | @nil gap hgap =>
    intro t access joinable claim _ _
    obtain ⟨claim', joinable', hread⟩ := State.run_gap_pending (t := t) { access } claim joinable hgap []
    rw [List.append_nil] at hread
    exact ⟨t.scope, access, joinable', claim', ⟨[], .refl _, .refl _, trivial⟩, hread⟩
  | @specifier a rest before between cs c hbefore hbetween hc _ ih =>
    intro t access joinable claim hrecord hnew
    obtain ⟨claim₁, joinable₁, hgap⟩ := State.run_gap_pending (t := t) { access } claim joinable hbefore
      (a.name.text.toList ++ (between ++ ':' :: c :: cs))
    obtain ⟨claim₂, hread⟩ := State.run_specifier (t := t) hrecord a hbetween hc access joinable₁
      claim₁ cs
    obtain ⟨s, access', joinable', claim', hfills, hrest⟩ :=
      ih hdistinct t (some a.name.text) false claim₂ hrecord hnew
    exact ⟨s, access', joinable', claim', hfills, hgap.trans (hread.trans hrest)⟩
  | @var v rest before member cs hbefore hmember _ ih =>
    simp only [isDistinct, Bool.and_eq_true, decide_eq_true_eq] at hdistinct
    refine Reads.cons hbefore (List.subset_cons_self _ _)
      (fun t access joinable claim hrecord hnew => ?_) (ih hdistinct.2)
    obtain ⟨s, hgains, hread⟩ := State.run_variable (t := t)
      (fun he => by rw [he] at hrecord; cases hrecord) v hmember access joinable claim cs
    exact ⟨_, s, _, adds_member hgains (v.isPrivate_toNode access) rfl rfl rfl rfl hdistinct.1 hnew,
      hread⟩
  | @function f rest before member cs hbefore hmember _ ih =>
    simp only [isDistinct, Bool.and_eq_true, decide_eq_true_eq] at hdistinct
    refine Reads.cons hbefore (List.subset_cons_self _ _)
      (fun t access joinable claim hrecord hnew => ?_) (ih hdistinct.2)
    obtain ⟨arguments, s, claim', hgains, hread⟩ := State.run_function (t := t) hrecord f hmember access
      joinable claim cs
    exact ⟨_, s, claim', adds_member hgains (isPrivate_headerOf rfl f.name arguments) rfl rfl rfl rfl
      hdistinct.1 hnew, hread⟩
  | @record h inner rest before heading body between cs hbefore hheading _ hbetween _ ihInner ih =>
    simp only [isDistinct, Bool.and_eq_true] at hdistinct
    obtain ⟨⟨hname, hinner⟩, hdistinct⟩ := hdistinct
    have hsplit : heading ++ (body ++ '\x7d' :: (between ++ ';' :: cs)) =
        heading ++ (body ++ '\x7d' :: (between ++ [';'])) ++ cs := by simp
    rw [hsplit]
    refine Reads.cons hbefore (List.subset_append_right _ _)
      (fun t access joinable claim hrecord hnew => ?_) (ih hdistinct)
    rw [← hsplit]
    obtain ⟨s, claim', home, hplace, hkind, hnamed, hholds, hputs, hread⟩ := State.run_record (t := t)
      h hheading (ihInner hinner) hbetween access joinable claim cs
    exact ⟨_, s, claim', adds_record hplace hputs hkind hnamed hholds
      (fun name hsome => of_decide_eq_true (Option.all_eq_true _ _ |>.mp hname name hsome)) hnew, hread⟩

end RecordBody

/-! ## Sources -/

/-- Between two declarations, with no comment that waits. -/
def State.IsBetween (t : State) : Prop :=
  ∃ access joinable claim, t = t.inContext { access, joinable, claim }

/-- A record with a public name is found, with the members of its body. Each of them has the access
that the last specifier before it in its own body says. -/
theorem memberAccess_holds {tree : Node} (hroot : tree.kind = .root) (hkept : tree.Kept)
    {before text : String} (hbetween : ((State.start tree).run before.toList).IsBetween)
    (h : RecordHeading) {inner : RecordBody} (hdistinct : inner.isDistinct = true) {name : Name}
    (hname : h.name = some name) (hrecordable : name.text.toList.head? ≠ some '_')
    (htext : (RecordBody.record h inner .nil).Text text.toList) :
    let u := (State.start tree).run (before ++ text).toList
    (u.enclosing = [] → scan (before ++ text) tree = u.scope.node) ∧
      ∃ home, u.scope.node.find? h.keyword.kind (some name.text) = some home ∧
        inner.Holds h.keyword.access home := by
  intro u
  let t := (State.start tree).run before.toList
  have husound : u.scope.Sound :=
    ((State.sound_start (by rw [hroot]; rfl) hkept).run (before ++ text).toList).sound
  have hu : u = t.run text.toList := by
    rw [← State.run_append, ← String.toList_append]
  obtain ⟨access, joinable, claim, hbetween⟩ := hbetween
  refine ⟨fun henclosing => ?_, ?_⟩
  · change u.result.node = u.scope.node
    rw [State.result, henclosing]
    rfl
  generalize text.toList = cs at htext hu
  cases htext with
  | @record _ _ _ leading heading body gap trailing hleading hheading hbody hgap htrailing =>
    cases htrailing with
    | nil htrailing =>
      obtain ⟨claim₁, joinable₁, hstart⟩ := State.run_gap_pending (t := t) { access } claim joinable
        hleading (heading ++ (body ++ '\x7d' :: (gap ++ ';' :: trailing)))
      obtain ⟨s, claim₂, home, -, hkind, hnamed, hholds, hputs, hread⟩ := State.run_record (t := t)
        h hheading (hbody.reads hdistinct) hgap access joinable₁ claim₁ trailing
      obtain ⟨claim₃, hend⟩ := State.run_gap_inContext (t := t.inScope s) (c := { access }) rfl claim₂
        htrailing []
      have hnode : u.scope.node = s.node := by
        rw [List.append_nil] at hend
        rw [hu, show t = _ from hbetween, hstart, hread, hend]
        rfl
      have hmem : home ∈ u.scope.node.children :=
        hnode ▸ hputs.mem hname (name.isRecordable_iff.mpr hrecordable)
      have hlabel : home.label? = some (h.keyword.kind, name.text) := by
        rw [Node.label?, hnamed, hkind, hname]
        rfl
      exact ⟨home, find?_eq_of_label? (husound.kept.self.arranged husound.scope) hmem hlabel, hholds⟩

/-- A class in a namespace, with a structure in its body that has an access of its own. -/
theorem memberAccess_holds_nested :
    let int : NamedType := { words := [⟨"int", by decide⟩], words_ne_nil := by decide }
    let one : ArgumentText :=
      { chars := "int n".toList, valid := by decide +kernel, uncommented := by decide
        unspecified := fun a h => absurd h.isInfix (by cases a <;> decide +kernel) }
    let two : ArgumentText :=
      { chars := "int a, int (*cb)(int) = g(1, 2)".toList, valid := by decide +kernel
        uncommented := by decide
        unspecified := fun a h => absurd h.isInfix (by cases a <;> decide +kernel) }
    let create : MemberFunction :=
      { type := none, name := ⟨"A", by decide⟩, arguments := one, leads := by decide }
    let call : MemberFunction :=
      { type := some int, name := ⟨"f", by decide⟩, arguments := two, leads := by decide }
    let x : MemberVariable := { type := int, name := ⟨"x", by decide⟩, leads := by decide }
    let y : MemberVariable := { type := int, name := ⟨"y", by decide⟩, leads := by decide }
    let z : MemberVariable := { type := int, name := ⟨"z", by decide⟩, leads := by decide }
    let w : MemberVariable := { type := int, name := ⟨"w", by decide⟩, leads := by decide }
    let outer : RecordHeading :=
      { keyword := .classType, name := some ⟨"A", by decide⟩, bases := [' ']
        valid := by decide
        apart := by
          rintro c ⟨⟩
          exact .inl (by decide) }
    let heading : RecordHeading :=
      { keyword := .structType, name := some ⟨"B", by decide⟩, bases := ": private A ".toList
        valid := by decide
        apart := by
          rintro c ⟨⟩
          exact .inr ⟨rfl, by rintro d ⟨⟩; decide⟩ }
    let inner : RecordBody := .var y (.specifier .privateAccess (.var z .nil))
    let body : RecordBody := .function create (.specifier .publicAccess (.var x (.record heading inner
      (.function call (.specifier .protectedAccess (.var w .nil))))))
    let before := "namespace n \x7b\n"
    let text := "class A \x7b A(int n);\npublic :\n  int x;\n  struct B: private A \x7b int y; private: int z; \x7d;\n  int f(int a, int (*cb)(int) = g(1, 2));\nprotected:\tint w;\n\x7d;"
    ((State.start .empty).run before.toList).IsBetween ∧ body.isDistinct = true ∧
      (RecordBody.record outer body .nil).Text text.toList ∧
      ∃ home, ((State.start .empty).run (before ++ text).toList).scope.node.find? .classType
          (some "A") = some home ∧
        (memberEntries home).Perm [⟨.function, some "A", some "private"⟩,
          ⟨.var, some "x", some "public"⟩, ⟨.function, some "f", some "public"⟩,
          ⟨.var, some "w", some "protected"⟩] ∧
        ∃ n ∈ home.children, n.label? = some (.structType, "B") ∧
          (memberEntries n).Perm [⟨.var, some "y", none⟩, ⟨.var, some "z", some "private"⟩] := by
  intro int one two create call x y z w outer heading inner body before text
  have hgap : IsGap [' '] := by decide
  have hapart : ∀ ps : List Piece, [' '] = [] → ∃ c, ps.head? = some (.mark c) ∧ c ≠ '(' :=
    fun _ h => absurd h (List.cons_ne_nil _ _)
  have hint : Spaced int.pieces "int ".toList := .word hgap (hapart _) .nil
  have hstart : ((State.start .empty).run "namespace n \x7b\n".toList).IsBetween :=
    ⟨none, false, none, rfl⟩
  have hbetween : ((State.start .empty).run before.toList).IsBetween := hstart
  have hy : y.Spelled "int y;".toList := ⟨_, hint, by decide⟩
  have hz : z.Spelled "int z;".toList := ⟨_, hint, by decide⟩
  have hx : x.Spelled "int x;".toList := ⟨_, hint, by decide⟩
  have hw : w.Spelled "int w;".toList := ⟨_, hint, by decide⟩
  have hcreate : create.Spelled "A(int n);".toList := ⟨[], [], rfl, by decide, by decide⟩
  have hcall : call.Spelled "int f(int a, int (*cb)(int) = g(1, 2));".toList :=
    ⟨_, [], hint, by decide, by decide⟩
  have hnone : IsGap [] := by decide
  have hline : IsGap ['\n'] := by decide
  have hindent : IsGap "\n  ".toList := by decide
  have hinner : inner.Text " int y; private: int z; ".toList :=
    .var hgap hy (.specifier hgap hnone (by decide : isSpace ' ' = true) (.var hnone hz (.nil hgap)))
  have hlast : (RecordBody.specifier .protectedAccess (.var w .nil)).Text
      "\nprotected:\tint w;\n".toList :=
    .specifier hline hnone (by decide : isSpace '\t' = true) (.var hnone hw (.nil hline))
  have hheading : heading.Spelled _ := .named rfl (by decide) hgap
  have hbody : body.Text _ :=
    .function hgap hcreate (.specifier hline hgap (by decide : isSpace '\n' = true)
      (.var (by decide : IsGap "  ".toList) hx (.record hindent hheading hinner hnone
        (.function hindent hcall hlast))))
  have htext : (RecordBody.record outer body .nil).Text text.toList := by
    have hwritten : (RecordBody.record outer body .nil).Text _ :=
      .record hnone (.named rfl (by decide) hgap) hbody hnone (.nil hnone)
    refine Eq.subst (motive := (RecordBody.record outer body .nil).Text) ?_ hwritten
    decide +kernel
  have hdistinct : body.isDistinct = true := by decide +kernel
  obtain ⟨-, home, hfind, hmembers, hrecords⟩ := memberAccess_holds
    (show Node.empty.kind = .root from rfl) (State.kept_leaf .root {}) hbetween outer hdistinct rfl
    (by decide) htext
  obtain ⟨n, hn, hlabel, hnested, -⟩ := hrecords.1 ⟨"B", by decide⟩ rfl (by decide)
  have hentries : body.entries outer.keyword.access = [⟨.function, some "A", some "private"⟩,
      ⟨.var, some "x", some "public"⟩, ⟨.function, some "f", some "public"⟩,
      ⟨.var, some "w", some "protected"⟩] := by decide +kernel
  have hinnerEntries : inner.entries heading.keyword.access =
      [⟨.var, some "y", none⟩, ⟨.var, some "z", some "private"⟩] := by decide +kernel
  exact ⟨hbetween, hdistinct, htext, home, hfind, hentries ▸ hmembers, n, hn, hlabel,
    hinnerEntries ▸ hnested⟩

/-- A comma between base types ends a declarator, and the access of the next one is taken for that of
the members behind. -/
theorem not_memberAccess_commaOfBases :
    ∃ home, (scan ("class A \x7b public: class N : public X, private Y \x7b int z; \x7d; " ++
        "int after; \x7d;") .empty).find? .classType (some "A") = some home ∧
      ⟨.var, some "after", some "private"⟩ ∈ memberEntries home ∧
      ⟨.var, some "after", some "public"⟩ ∉ memberEntries home := by
  let read := scan ("class A \x7b public: class N : public X, private Y \x7b int z; \x7d; " ++
    "int after; \x7d;") .empty
  have hread : (read.find? .classType (some "A")).map memberEntries =
      some [⟨.var, some "X", some "public"⟩, ⟨.var, some "after", some "private"⟩] := by
    decide +kernel
  obtain ⟨home, hfind, hmembers⟩ := Option.map_eq_some_iff.mp hread
  exact ⟨home, hfind, by rw [hmembers]; decide, by rw [hmembers]; decide⟩

end HeaderDocs.Scan
