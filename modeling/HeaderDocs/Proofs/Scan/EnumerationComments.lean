import HeaderDocs.Proofs.Scan.EnumerationLines

/-!
# Comments in enumerations

An enumeration with a comment before it and one constant a line can be declared by its tag, or with a
name for the type. Each constant is described by the comment of its own line, except for one without a
comment behind a line whose constant was not recorded: the comment of that line describes it.

* `State.IsIdle`: where a declaration may begin.
* `State.run_enumeration`: the enumeration is recorded with the constants of its lines.
* `LinedEnumeration.keepsComments_unless_left`: which constants are described by another line.
-/
namespace HeaderDocs.Scan

open HeaderDocs.Text

/-! ## Words in front of a brace -/

inductive WordsText : List Name → List Char → Prop
  | nil : WordsText [] []
  | cons {w : Name} {gap : List Char} {ws : List Name} {cs : List Char} :
      IsGap gap → gap ≠ [] → WordsText ws cs → WordsText (w :: ws) (w.text.toList ++ (gap ++ cs))

variable {c : Context} {t : State}

namespace State

/-- White space ends every word, so that it is collected. -/
theorem run_words (hc : c.Declares) (hbase : c.base = []) {ws : List Name} {cs : List Char}
    (hcs : WordsText ws cs) {spaced : Bool} (hrun : c.run.Awaits spaced)
    (hfirst : c.run = [] → ∀ w, ws.head? = some w → isAccess w.text = false) (rest : List Char) :
    ∃ claim, (t.inContext c).run (cs ++ rest) =
      (t.inContext { c with run := c.run ++ wordsRun spaced ws, claim }).run rest := by
  induction hcs generalizing c spaced with
  | nil => exact ⟨c.claim, by simp [wordsRun]⟩
  | @cons w gap ws cs hgap hne _ ih =>
    obtain ⟨d, gap, rfl⟩ := List.exists_cons_of_ne_nil hne
    have hspace : isSpace d = true := (isGap_cons.mp hgap).1
    have hmarks : d ∉ ['(', ',', ';'] := notMem_of_class (by decide) hspace
    simp only [List.mem_cons, List.not_mem_nil, or_false, not_or] at hmarks
    have hread := run_word_collected (t := t) hc w.toWord (isWordPart_of_isSpace hspace _)
      (fun he _ => by rw [show w.toWord.text = w.text from rfl, Name.withoutColons_text]; exact hfirst he w rfl)
      (fun he => absurd he hmarks.1)
      (fun he => he.elim (fun he => absurd he hmarks.2.1) fun he => absurd he hmarks.2.2)
      (gap ++ (cs ++ rest))
    have hpush : c.pushWord w.text = { c with run := c.run ++ [⟨w.text, spaced⟩] } := by
      unfold Context.pushWord
      dsimp only
      rw [Context.startRun_of_base hbase, hrun]
    let c' : Context := { c with run := c.run ++ [⟨w.text, spaced⟩] }
    have hc' : c'.Declares := hc.withRun _ c.parens c.claim
    obtain ⟨claim, hgap'⟩ := run_gap_inContext (t := t) (c := c') hc'.joinable c.claim hgap (cs ++ rest)
    obtain ⟨claim', hwords⟩ := ih (c := { c' with claim }) (hc'.withRun _ c.parens claim) hbase
      (Run.endsInName_concat c.run w spaced).awaits (fun he => absurd he (by simp [c']))
    refine ⟨claim', ?_⟩
    have hsplit : w.text.toList ++ (d :: gap ++ cs) ++ rest =
        w.text.toList ++ d :: (gap ++ (cs ++ rest)) := by simp
    have hwordsRun : c'.run ++ wordsRun true ws = c.run ++ wordsRun spaced (w :: ws) := by
      cases ws <;> simp [c', wordsRun]
    rw [hsplit, ← hwordsRun]
    refine hread.trans ?_
    rw [show w.toWord.text = w.text from rfl, hpush]
    exact hgap'.trans hwords

theorem run_words_joinable {ws : List Name} {cs : List Char} (hcs : WordsText ws cs) (hws : ws ≠ [])
    (joinable : Bool) (rest : List Char) :
    (t.inContext { c with joinable }).run (cs ++ rest) =
      (t.inContext { c with joinable := false }).run (cs ++ rest) := by
  cases hcs with
  | nil => exact absurd rfl hws
  | @cons w gap ws cs =>
    rw [List.append_assoc]
    exact run_name_joinable joinable w _

/-- Between declarations, where a comment describes the next one. -/
structure IsIdle (t : State) : Prop where
  mode : t.mode = .plain
  declares : t.scope.context.Declares
  run : t.scope.context.run = []
  base : t.scope.context.base = []
  parens : t.scope.context.parens = 0
  claim : t.scope.context.claim = none
  addressee : t.scope.addressee = .declaration

end State

/-- A comment with the end of its line, if that is its own end. -/
def SourceComment.chars : SourceComment → List Char
  | block c => c.chars
  | line c => c.chars ++ ['\n']

theorem State.run_waits (h : t.IsIdle) {comment : SourceComment} (htext : comment.text ≠ "") :
    ∃ joinable, t.run comment.chars =
      t.inContext { t.scope.context with comment := some comment.text, joinable } := by
  have htake : ∀ line, t.scope.takeComment comment.text line =
      t.scope.update ({ · with comment := some comment.text, joinable := line }) := fun line =>
    OpenScope.takeComment_declaration h.addressee h.claim htext (by simp [h.declares.joinable])
  have hplain : ∀ scope, ({ t with scope } : State) = { t with mode := .plain, scope } := fun _ => by
    rw [← h.mode]
  cases comment with
  | block c =>
    refine ⟨false, ?_⟩
    rw [SourceComment.chars, run_comment h.mode, State.update]
    rw [show t.scope.takeComment c.text false = _ from htake false, hplain]
    rfl
  | line c =>
    refine ⟨true, ?_⟩
    rw [SourceComment.chars, run_lineRemark h.mode, State.update]
    dsimp only
    rw [show t.scope.takeComment c.text true = _ from htake true, hplain]
    have hclaim := h.claim
    simp [State.inContext, OpenScope.update, Context.endLine, SourceComment.text, ← hclaim]

/-! ## Declarations -/

/-- How an enumeration is declared: by its tag alone, or with a name for its type. -/
inductive EnumerationForm
  | tagged (tag : Name)
  | aliased (tag : Option Name) (name : Name)

namespace EnumerationForm

def tag? : EnumerationForm → Option Name
  | tagged tag => some tag
  | aliased tag _ => tag

def name : EnumerationForm → Name
  | tagged tag => tag
  | aliased tag name => tag.getD name

def isAliased : EnumerationForm → Bool
  | tagged _ => false
  | aliased _ _ => true

def words (f : EnumerationForm) : List Name :=
  (if f.isAliased then [⟨"typedef", by decide +kernel⟩] else []) ++
    ⟨"enum", by decide +kernel⟩ :: f.tag?.toList

theorem words_ne_nil (f : EnumerationForm) : f.words ≠ [] := by
  unfold words
  simp

/-- The words begin a declaration, even in a record. -/
theorem isAccess_head (f : EnumerationForm) (w : Name) (h : f.words.head? = some w) :
    isAccess w.text = false := by
  cases f <;>
  · obtain rfl := Option.some.inj h
    decide

theorem isRecordable_tag {f : EnumerationForm} (h : Node.isRecordable f.name.text = true) :
    ∀ tag ∈ f.tag?, Node.isRecordable tag.text = true := by
  intro tag htag
  rcases f with _ | ⟨_ | _, _⟩
  · exact Option.some.inj htag ▸ h
  · cases htag
  · exact Option.some.inj htag ▸ h

/-- What stands behind the body. -/
def ending : EnumerationForm → List Char
  | tagged _ => [';']
  | aliased _ name => name.text.toList ++ [';']

def typeRun (f : EnumerationForm) : Run :=
  ⟨"enum", f.isAliased⟩ :: f.tag?.toList.map (⟨·.text, true⟩)

def toNode (f : EnumerationForm) (raw : String) : Node :=
  Node.describe { kind := .enumType, attrs := { name := f.tag?.map (·.text) } } raw

theorem children_toNode (f : EnumerationForm) (raw : String) :
    (f.toNode raw).children = [Node.descriptionOf (Comment.normalize raw).text] := by
  rw [toNode, describe_undescribed (show Kind.enumType ≠ .argument by decide) fun c hc => absurd hc
    List.not_mem_nil]
  rfl

theorem isPrivate_toNode (f : EnumerationForm) (raw : String) :
    (f.toNode raw).isPrivate = Comment.isPrivate (Comment.normalize raw).text := by
  rw [Node.isPrivate, Node.descriptionText, Node.child?, children_toNode]
  exact congrArg Comment.isPrivate (Node.text_descriptionOf _)

end EnumerationForm

def Context.opened (c : Context) (f : EnumerationForm) : Context :=
  { (if f.isAliased then { c with run := f.typeRun.closeUp } else c.dropRun) with
    typeAlias := State.aliasOf f.isAliased c.comment
    braces := 1
    inValue := false }

namespace State

/-- The words of the declaration, and the brace behind them. -/
theorem step_opensEnumeration {f : EnumerationForm} (hheader : c.header = none)
    (hjoinable : c.joinable = false) (hrun : c.run = wordsRun false f.words) :
    (t.inContext c).step '\x7b' = (t.inContext c).openBlock (openEnumeration f.isAliased f.typeRun) := by
  rw [step_openBrace hjoinable]
  unfold openBrace
  cases f with
  | tagged tag =>
    simp [inContext, hheader, hrun, wordsRun, EnumerationForm.words, EnumerationForm.isAliased,
      EnumerationForm.tag?, EnumerationForm.typeRun, splitAlias, Run.texts, recordKind?]
  | aliased tag name =>
    cases tag <;>
    simp [inContext, hheader, hrun, wordsRun, EnumerationForm.words, EnumerationForm.isAliased,
      EnumerationForm.tag?, EnumerationForm.typeRun, splitAlias, Run.texts, recordKind?]

end State

theorem Context.Declares.opened (hc : c.Declares) (f : EnumerationForm) :
    (c.opened f).header = none ∧ (c.opened f).record = none ∧ (c.opened f).enumeration = none := by
  unfold Context.opened
  split <;> exact ⟨hc.header, hc.record, hc.enumeration⟩

/-- The body of an enumeration that has been opened, in its place: recorded at once if it has a tag,
and otherwise kept aside. -/
theorem OpenScope.openEnumeration_holds {s : OpenScope} (hsound : s.Sound) (hc : c.Declares)
    {raw : String} (hcomment : c.comment = some raw) {f : EnumerationForm}
    (hpublic : Comment.isPrivate (Comment.normalize raw).text = false)
    (hname : ∀ tag ∈ f.tag?, Node.isRecordable tag.text = true) :
    ∃ (s' : OpenScope) (p : Place) (home : Node), p.node? s'.node = some home ∧
      home.key = (f.toNode raw).key ∧
      HoldsLines (Comment.normalize raw).text [] home ∧
      (f.tag? = none → s'.node = s.node ∧ p = .aside home) ∧ (f.tag? ≠ none → ∃ e, p = .inScope e) ∧
      (State.openEnumeration f.isAliased f.typeRun { s with context := c }).update
          (fun c => { c with braces := c.braces + 1, claim := none }) =
        { s' with context := (c.opened f).body p none false none } := by
  let node := f.toNode raw
  let c' : Context :=
    { c.opened f with braces := 0, inValue := c.inValue, comment := none, joinable := false }
  obtain ⟨t, ht⟩ : ∃ t, t = ({ s with context := c' } : OpenScope).commitNamed node := ⟨_, rfl⟩
  have hopen : State.openEnumeration f.isAliased f.typeRun { s with context := c } =
      t.1.update ({ · with enumeration := some (OpenScope.placeOf node t.2), inValue := false }) := by
    have hbraces := hc.braces
    obtain ⟨access, braces, parens, run, runComment, base, comment, joinable, claim, header, record,
      typeAlias, enumeration, inValue⟩ := c
    cases hbraces
    cases hcomment
    rw [ht]
    rcases f with tag | ⟨_ | tag, name⟩ <;> rfl
  obtain ⟨hheader, hrecord, henumeration⟩ := hc.opened f
  obtain ⟨claim, hcontext⟩ : ∃ claim, t.1.context = { c' with claim } := by
    rw [ht]
    unfold OpenScope.commitNamed
    split
    · exact ⟨c'.claim, rfl⟩
    · exact context_commit (c := c') hheader hrecord henumeration node
  have hresult : (State.openEnumeration f.isAliased f.typeRun { s with context := c }).update
        (fun c => { c with braces := c.braces + 1, claim := none }) =
      { t.1 with context := (c.opened f).body (OpenScope.placeOf node t.2) none false none } := by
    rw [hopen, OpenScope.update, OpenScope.update, hcontext]
    simp [c', Context.body, Context.opened]
  have hkept : node.Kept := (State.kept_leaf .enumType _).describe raw
  have hkind : node.kind = .enumType := Node.kind_describe _ _
  cases htag : f.tag? with
  | none =>
    have hunnamed : t = ({ s with context := c' }, none) := by
      rw [ht, OpenScope.commitNamed, if_pos]
      change ((f.tag?.map (·.text)).getD "" == "") = true
      rw [htag]
      rfl
    refine ⟨t.1, .aside node, node, rfl, rfl, holdsLines_nil hkept hkind (f.children_toNode raw),
      fun _ => ⟨by rw [hunnamed], rfl⟩, fun h => absurd rfl h, ?_⟩
    rw [hresult, hunnamed]
    rfl
  | some tag =>
    have hlabel : node.name = some tag.text := by
      change f.tag?.map (·.text) = _
      rw [htag]
      rfl
    have hnamed : t = ({ s with context := c' } : OpenScope).commit node := by
      rw [ht, OpenScope.commitNamed, if_neg]
      rw [hlabel]
      simpa using tag.text_ne_empty
    obtain ⟨e, m, hpath, hchild, hkey, hchildren⟩ := exists_commit { s with context := c' }
      ((f.isPrivate_toNode raw).trans hpublic) hlabel (hname tag htag)
    rw [← hnamed] at hpath hchild
    have hmkept : m.Kept := by
      have hrecord : t.1.node = record s.node node := by
        rw [hnamed]
        exact node_commit node
      have hall := kept_record hsound.kept hsound.scope hkept (by rw [hkind]; decide)
      rw [← hrecord] at hall
      exact hall.child (List.mem_of_getElem? hchild)
    refine ⟨t.1, .inScope e, m, hchild, hkey, ?_, (fun h => by cases h), fun _ => ⟨e, rfl⟩, ?_⟩
    · exact holdsLines_nil hmkept ((Node.kind_eq_of_key hkey).trans hkind)
        (hchildren.trans (f.children_toNode raw))
    rw [hresult, hpath]
    rfl

/-! ## Behind the body -/

def Context.closed (c : Context) (p : Place) : Context :=
  { c with
    enumeration := if c.typeAlias.isNone then none else some p
    comment := none
    runComment := none
    joinable := false
    claim := none
    braces := 0 }

theorem State.step_closesEnumeration (hc : c.ListsConstants) (p : Place) (left : Option String)
    (joinable : Bool) :
    (t.inContext (c.body p left joinable none)).step '\x7d' = t.inContext (c.closed p) := by
  have hclose : (t.inContext (c.body p left joinable none)).step '\x7d' =
      (t.inContext (c.body p left false none)).closeBrace := rfl
  have hbraces := hc.braces
  rw [hclose, closeBrace_eq, if_pos (by simp [inContext, Context.body, hbraces])]
  simp [inContext, State.update, OpenScope.update, Context.body, Context.afterBlock, Context.afterBody,
    Context.closed, hbraces, hc.inValue, hc.record]

/-- A place in a context that follows the nodes of the scope. -/
structure Context.FollowsPlace (place : Context → Option Place) : Prop where
  afterInsert : ∀ path c, place (c.afterInsert path) = (place c).map (Place.afterInsert path)
  afterRemove : ∀ path removed c,
    place (c.afterRemove path removed) = (place c).map (Place.afterRemove path removed)

namespace OpenScope

variable {s : OpenScope} {place : Context → Option Place}

/-- A place that is kept aside stays there when something is recorded. -/
theorem place_commit_aside (hplace : Context.FollowsPlace place) {home : Node}
    (h : place s.context = some (.aside home)) (node : Node) :
    place (s.commit node).1.context = some (.aside home) := by
  refine OpenScope.commitTo_context (P := fun c => place c = some (.aside home)) h ?_ ?_ node
  · intro i c hc
    rw [hplace.afterInsert, hc]
    rfl
  · intro i removed c hc
    rw [hplace.afterRemove, hc]
    rfl

/-- A place in the scope stays one when a node of another kind or name is recorded. -/
theorem place_commit_inScope (hplace : Context.FollowsPlace place) {e : Nat} {m : Node}
    (h : place s.context = some (.inScope e)) (hm : s.node.children[e]? = some m) {node : Node}
    (hlabel : m.label? ≠ node.label?) : ∃ j, place (s.commit node).1.context = some (.inScope j) := by
  refine s.commit_cases node (fun _ => ⟨e, h⟩) (fun _ => ⟨e, h⟩) ?_
  intro ins room _ hins hroom
  obtain ⟨j, hj⟩ : ∃ j, place room.context = some (.inScope j) := by
    cases hroom with
    | same => exact ⟨e, h⟩
    | @removed i hreplaced =>
      obtain ⟨name, hname, -, hfound, -, -⟩ := Node.insertion?_cases hins
      rw [hreplaced] at hfound
      obtain ⟨hlt, hnamed, -⟩ := List.findIdx?_eq_some_iff_getElem.mp hfound.symm
      have hne : i ≠ e := by
        rintro rfl
        obtain ⟨_, rfl⟩ := List.getElem?_eq_some_iff.mp hm
        rw [Node.isNamed_iff_label?.mp hnamed, Node.label?, hname] at hlabel
        exact hlabel rfl
      have hget : s.node.get? [i] = some s.node.children[i] := by simp [Node.get?, hlt]
      refine ⟨if i < e then e - 1 else e, ?_⟩
      rw [List.nil_append, OpenScope.removeAt, hget]
      change place (s.context.afterRemove [i] _) = _
      rw [hplace.afterRemove, h]
      simp [Place.afterRemove, Path.afterRemove?, hne]
  refine ⟨if ins.position ≤ j then j + 1 else j, ?_⟩
  change place (room.context.afterInsert [ins.position]) = _
  rw [hplace.afterInsert, hj]
  rfl

theorem node_nameAside {home : Node} (hname : home.name = none) (name : String) :
    (s.nameAside name (some (.aside home))).1.node = record s.node (home.withName name) := by
  unfold OpenScope.nameAside
  dsimp only
  rw [if_pos (by rw [hname]; rfl)]
  exact node_commit _

end OpenScope

/-! ## The enumeration -/

structure LinedEnumeration where
  comment : SourceComment
  form : EnumerationForm
  lines : List ConstantLine

namespace LinedEnumeration

variable (e : LinedEnumeration)

def about : String := (Comment.normalize e.comment.text).text

def Spelled (cs : List Char) : Prop :=
  ∃ before words body after, IsGap before ∧ WordsText e.form.words words ∧
    LinesText e.lines body ∧ IsGap after ∧
    cs = e.comment.chars ++ (before ++ (words ++ '\x7b' :: (body ++ '\x7d' ::
      (after ++ e.form.ending))))

end LinedEnumeration

theorem Context.listsConstants_opened (hc : c.Declares) (hparens : c.parens = 0)
    (f : EnumerationForm) : (c.opened f).ListsConstants := by
  obtain ⟨hheader, hrecord, -⟩ := hc.opened f
  refine ⟨rfl, ?_, hheader, hrecord, rfl⟩
  unfold Context.opened
  split <;> exact hparens

namespace State

theorem run_opening (h : t.IsIdle) (hsound : t.scope.Sound) {e : LinedEnumeration}
    (htext : e.comment.text ≠ "") (hpublic : Comment.isPrivate e.about = false)
    (hname : Node.isRecordable e.form.name.text = true) {before words : List Char}
    (hbefore : IsGap before) (hwords : WordsText e.form.words words) :
    ∃ (c : Context) (s : OpenScope) (p : Place) (home : Node), c.Declares ∧ c.parens = 0 ∧
      c.comment = some e.comment.text ∧ p.node? s.node = some home ∧
      home.key = (e.form.toNode e.comment.text).key ∧ HoldsLines e.about [] home ∧
      (e.form.tag? = none → p = .aside home) ∧ (e.form.tag? ≠ none → ∃ i, p = .inScope i) ∧
      t.run (e.comment.chars ++ (before ++ (words ++ ['\x7b']))) =
        (t.inScope s).inContext ((c.opened e.form).body p none false none) := by
  obtain ⟨joinable, hcomment⟩ := run_waits h htext
  let c₁ : Context := { t.scope.context with comment := some e.comment.text }
  have hc₁ : c₁.Declares := ⟨h.declares.braces, h.declares.header, h.declares.joinable,
    h.declares.enumeration, h.declares.typeAlias, h.declares.record⟩
  obtain ⟨joinable', hgap⟩ := run_gap_joinable (t := t) (c := c₁) h.claim joinable hbefore
    (words ++ ['\x7b'])
  have hstart : (t.inContext { c₁ with joinable := joinable' }).run (words ++ ['\x7b']) =
      (t.inContext c₁).run (words ++ ['\x7b']) := by
    have hidle : ({ c₁ with joinable := false } : Context) = c₁ := by rw [← hc₁.joinable]
    rw [run_words_joinable hwords e.form.words_ne_nil, hidle]
  obtain ⟨claim, hread⟩ := run_words (t := t) hc₁ h.base hwords
    (show c₁.run.Awaits false by rw [show c₁.run = [] from h.run]; exact awaits_nil)
    (fun _ => e.form.isAccess_head) ['\x7b']
  let c₂ : Context := { c₁ with run := c₁.run ++ wordsRun false e.form.words, claim }
  have hc₂ : c₂.Declares := hc₁.withRun _ c₁.parens claim
  have hrun : c₂.run = wordsRun false e.form.words := by
    change t.scope.context.run ++ _ = _
    rw [h.run, List.nil_append]
  obtain ⟨s, p, home, hp, hkey, hhome, hnone, hsome, hopen⟩ :=
    OpenScope.openEnumeration_holds (c := c₂) (f := e.form) hsound hc₂ rfl hpublic
      (e.form.isRecordable_tag hname)
  refine ⟨c₂, s, p, home, hc₂, h.parens, rfl, hp, hkey, hhome, fun ht => (hnone ht).2, hsome, ?_⟩
  rw [run_append, hcomment]
  refine hgap.trans (hstart.trans (hread.trans ?_))
  change (t.inContext c₂).step '\x7b' = _
  rw [step_opensEnumeration hc₂.header hc₂.joinable hrun]
  exact congrArg (fun scope => ({ t with mode := .plain, scope } : State)) hopen

theorem step_semicolon_ended (hmode : t.mode = .plain) (hheader : t.scope.context.header = none)
    (hrun : t.scope.context.run = []) :
    (t.step ';').scope.node = t.scope.node ∧ (t.step ';').enclosing = t.enclosing ∧
      (t.step ';').mode = .plain ∧ (t.step ';').scope.context.joinable = false := by
  have hstep : t.step ';' = t.update fun s => (s.update ({ · with joinable := false })).semicolon := by
    rw [step, hmode]
    rfl
  let s := t.scope.update ({ · with joinable := false })
  rw [hstep]
  refine ⟨node_semicolon (s := s) hheader hrun, rfl, hmode, ?_⟩
  change s.semicolon.context.joinable = false
  unfold OpenScope.semicolon
  rw [OpenScope.endHeader_of_none (s := s) hheader, OpenScope.endRun_of_nil (s := s) hrun]
  simp only [OpenScope.update]
  split <;> rfl

variable {s : OpenScope} {p : Place} {home : Node}

theorem run_ending_tagged (hc : c.Declares) (p : Place) (tag : Name)
    {after : List Char} (hafter : IsGap after) :
    let u := (t.inContext ((c.opened (.tagged tag)).closed p)).run
      (after ++ (EnumerationForm.tagged tag).ending)
    u.scope.node = t.scope.node ∧ u.enclosing = t.enclosing := by
  let c' := (c.opened (.tagged tag)).closed p
  obtain ⟨claim, hgap⟩ := run_gap_inContext (t := t) (c := c') rfl c'.claim hafter [';']
  intro u
  have hu : u = (t.inContext { c' with claim }).step ';' := hgap
  obtain ⟨hnode, henclosing, -⟩ := step_semicolon_ended (t := t.inContext { c' with claim }) rfl
    hc.header rfl
  rw [hu]
  exact ⟨hnode, henclosing⟩

theorem run_ending_aliased (hc : c.Declares) (hparens : c.parens = 0) (p : Place) (tag : Option Name)
    (name : Name) {after : List Char} (hafter : IsGap after) :
    let u := (t.inContext ((c.opened (.aliased tag name)).closed p)).run
      (after ++ (EnumerationForm.aliased tag name).ending)
    ∃ s : OpenScope, s.node = t.scope.node ∧ s.context.header = none ∧ s.context.record = none ∧
      s.context.typeAlias = State.aliasOf true c.comment ∧ s.context.enumeration = some p ∧
      u.scope.node = (s.declareDefined name.text).node ∧ u.enclosing = t.enclosing := by
  let c' := (c.opened (.aliased tag name)).closed p
  intro u
  obtain ⟨claim, hgap⟩ := run_gap_inContext (t := t) (c := c') rfl c'.claim hafter
    (name.text.toList ++ [';'])
  let d : Context := { c' with claim }
  let s : OpenScope := { t.scope with context := d }
  have hpart : isWordPart d.parens ';' = false := by
    rw [show d.parens = 0 from hparens]
    decide
  have hword := OpenScope.word_defined (s := s) rfl hc.header (List.cons_ne_nil _ _) rfl name.text
  obtain ⟨hheader, hrun, -⟩ := OpenScope.declareDefined_names (s := s) rfl hc.header hc.record name.text
  let v : State := { t with mode := .plain, scope := s.declareDefined name.text }
  have hread : (t.inContext d).run (name.text.toList ++ [';']) = v.step ';' :=
    (run_word_inContext (t := t) (c := d) rfl name.toWord hpart []).trans
      (congrArg (fun scope => State.run { t with mode := .plain, scope } [';']) hword)
  have hu : u = v.step ';' := hgap.trans hread
  obtain ⟨hnode, henclosing, -⟩ := step_semicolon_ended (t := v) rfl hheader hrun
  exact ⟨s, rfl, hc.header, hc.record, rfl, rfl, hu ▸ hnode, hu ▸ henclosing⟩

end State

namespace State

theorem run_body {root : Kind × Option String} (h : t.IsIdle) (hsound : t.Sound root)
    {e : LinedEnumeration} (htext : e.comment.text ≠ "")
    (hpublic : Comment.isPrivate e.about = false)
    (hname : Node.isRecordable e.form.name.text = true) {before words body : List Char}
    (hbefore : IsGap before) (hwords : WordsText e.form.words words) (hbody : LinesText e.lines body) :
    ∃ (c : Context) (s : OpenScope) (p : Place) (home : Node), c.Declares ∧ c.parens = 0 ∧
      c.comment = some e.comment.text ∧ p.node? s.node = some home ∧
      home.key = (e.form.toNode e.comment.text).key ∧
      HoldsLines e.about (takenLines none e.lines) home ∧
      (e.form.tag? = none → p = .aside home) ∧ (e.form.tag? ≠ none → ∃ i, p = .inScope i) ∧
      s.node.kind.isScope = true ∧ s.node.Kept ∧
      t.run (e.comment.chars ++ (before ++ (words ++ '\x7b' :: (body ++ ['\x7d'])))) =
        (t.inScope s).inContext ((c.opened e.form).closed p) := by
  obtain ⟨c, s, p, home, hc, hparens, hcomment, hp, hkey, hhome, hnone, hsome, hopen⟩ :=
    run_opening h hsound.sound htext hpublic hname hbefore hwords
  have hlists := Context.listsConstants_opened hc hparens e.form
  obtain ⟨s', home', left, joinable, hnode, hkey', hhome', hlines⟩ :=
    run_lines (t := t.inScope s) hlists none hp hhome false hbody
  have hread : t.run (e.comment.chars ++ (before ++ (words ++ '\x7b' :: (body ++ ['\x7d'])))) =
      (t.inScope s').inContext ((c.opened e.form).closed (p.fill home')) := by
    have hsplit : e.comment.chars ++ (before ++ (words ++ '\x7b' :: (body ++ ['\x7d']))) =
        e.comment.chars ++ (before ++ (words ++ ['\x7b'])) ++ (body ++ ['\x7d']) := by simp
    rw [hsplit, run_append, hopen, run_append, hlines]
    exact step_closesEnumeration hlists _ _ _
  have hread_sound := (hread ▸ hsound.run _ : State.Sound root _).sound
  refine ⟨c, s', p.fill home', home', hc, hparens, hcomment, hnode ▸ Place.node?_fill hp home',
    hkey'.trans hkey, hhome', fun ht => ?_, fun ht => ?_,
    hread_sound.scope, hread_sound.kept, hread⟩
  · rw [hnone ht]
    rfl
  · obtain ⟨i, hi⟩ := hsome ht
    exact ⟨i, by rw [hi]; rfl⟩

theorem run_enumeration {root : Kind × Option String} (h : t.IsIdle) (hsound : t.Sound root)
    {e : LinedEnumeration} (htext : e.comment.text ≠ "")
    (hpublic : Comment.isPrivate e.about = false)
    (hname : Node.isRecordable e.form.name.text = true) {cs : List Char} (hcs : e.Spelled cs) :
    ∃ n ∈ (t.run cs).scope.node.children, n.label? = some (.enumType, e.form.name.text) ∧
      HoldsLines e.about (takenLines none e.lines) n ∧ (t.run cs).enclosing = t.enclosing := by
  obtain ⟨before, words, body, after, hbefore, hwords, hbody, hafter, rfl⟩ := hcs
  obtain ⟨c, s, p, home, hc, hparens, hcomment, hp, hkey, hhome, hnone, hsome, hscope,
    hkept, hread⟩ :=
    run_body h hsound htext hpublic hname hbefore hwords hbody
  have hsplit : e.comment.chars ++ (before ++ (words ++ '\x7b' :: (body ++ '\x7d' ::
      (after ++ e.form.ending)))) =
        e.comment.chars ++ (before ++ (words ++ '\x7b' :: (body ++ ['\x7d']))) ++
          (after ++ e.form.ending) := by simp
  rw [hsplit, run_append, hread]
  have hlabel : home.label? = e.form.tag?.map (Kind.enumType, ·.text) := by
    rw [Node.label?, Node.kind_eq_of_key hkey, Node.name_eq_of_key hkey]
    exact Option.map_map ..
  have hinScope : ∀ i, p = .inScope i → home ∈ s.node.children := fun i hi =>
    List.mem_of_getElem? (i := i) (by rw [hi] at hp; exact hp)
  cases hform : e.form with
  | tagged tag =>
    rw [hform] at hlabel hsome
    obtain ⟨hnode, henclosing⟩ := run_ending_tagged (t := t.inScope s) hc p tag hafter
    obtain ⟨i, hi⟩ := hsome (Option.some_ne_none tag)
    refine ⟨home, ?_, hlabel, hhome, henclosing⟩
    rw [hnode]
    exact hinScope i hi
  | aliased tag name =>
    obtain ⟨s', hnode', hheader, hrecord, halias, henumeration, hnode, henclosing⟩ :=
      run_ending_aliased (t := t.inScope s) hc hparens p tag name hafter
    rw [hform] at hlabel hnone hsome
    rw [hcomment] at halias
    obtain ⟨a, ha, hakind⟩ : ∃ a, s'.context.typeAlias = some a ∧ a.kind = .typeAlias :=
      ⟨_, halias, Node.kind_describe _ _⟩
    let node := s'.awaitedNode a name.text
    have hkind : node.kind = .typeAlias := hakind
    have hlabel' : node.label? = some (.typeAlias, name.text) := by
      rw [Node.label?, hkind, OpenScope.name_awaitedNode]
      rfl
    obtain ⟨-, -, u, hu, hdefined⟩ := OpenScope.declareDefined_names ha hheader hrecord name.text
    have hunode : u.node = record s.node node := by
      rw [hu, node_commit, hnode']
      rfl
    have hfollows : Context.FollowsPlace (·.enumeration) := ⟨fun _ _ => rfl, fun _ _ _ => rfl⟩
    cases tag with
    | none =>
      obtain rfl := hnone rfl
      rw [OpenScope.place_commit_aside hfollows henumeration,
        OpenScope.node_nameAside (Option.map_eq_none_iff.mp hlabel), hunode] at hdefined
      have hprivate : (home.withName name.text).isPrivate = false :=
        (congrArg Comment.isPrivate hhome.descriptionText).trans hpublic
      rw [hform] at hname
      obtain ⟨n, hn, hmem⟩ := mem_children_record
        (arranged_record hkept.self hscope (by rw [hkind]; decide)) hprivate rfl hname
      have hsame : n.kind = home.kind ∧ n.children = home.children ∧ n.name = some name.text := by
        rcases hn with rfl | ⟨access, rfl⟩ <;> exact ⟨rfl, rfl, rfl⟩
      refine ⟨n, ?_, ?_, hhome.congr hsame.1 hsame.2.1, henclosing⟩
      · rw [hnode, hdefined]
        exact (hmem n).mpr (.inl rfl)
      · rw [Node.label?, hsame.1, hsame.2.2, hhome.kind]
        rfl
    | some tag =>
      obtain ⟨i, rfl⟩ := hsome (Option.some_ne_none tag)
      have hne : home.label? ≠ node.label? := by
        rw [hlabel, hlabel']
        exact fun he => absurd (congrArg Prod.fst (Option.some.inj he))
          (show Kind.enumType ≠ .typeAlias by decide)
      obtain ⟨j, hj⟩ := OpenScope.place_commit_inScope hfollows henumeration (hnode' ▸ hp) hne
      rw [hj, show (u.nameAside name.text (some (.inScope j))).1 = u from rfl, hunode] at hdefined
      refine ⟨home, ?_, hlabel, hhome, henclosing⟩
      rw [hnode, hdefined]
      exact mem_record_of_label_ne (hkept.self.arranged hscope) (hinScope i rfl) hne

end State

/-! ## Its constants -/

theorem isTaken_none (l : ConstantLine) :
    l.isTaken none = true ↔ l.name.text.toList.head? ≠ some '_' := by
  have hpublic : (l.opening none).isPrivate = false := rfl
  rw [ConstantLine.isTaken, hpublic, Bool.not_false, Bool.and_true, l.name.isRecordable_iff]

/-- If only recorded constants have comments, none is left for another line. -/
theorem takenLines_left_eq_none {lines : List ConstantLine}
    (h : ∀ l ∈ lines, l.name.text.toList.head? = some '_' → l.raw? = none) :
    ∀ p ∈ takenLines none lines, p.2 = none := by
  induction lines with
  | nil => nofun
  | cons l lines ih =>
    have hleaves : l.leaves none = none := by
      unfold ConstantLine.leaves
      split
      · rfl
      · rename_i hrefused
        rw [isTaken_none, not_not] at hrefused
        exact h l (List.mem_cons_self ..) hrefused
    intro p hp
    rw [takenLines, hleaves, List.mem_append] at hp
    rcases hp with hp | hp
    · split at hp
      · rw [List.mem_singleton.mp hp]
      · cases hp
    · exact ih (fun l' hl' => h l' (List.mem_cons_of_mem _ hl')) p hp

theorem lastLine?_eq_some {ps : List (ConstantLine × Option String)}
    {p : ConstantLine × Option String} {name : String} (h : lastLine? ps name = some p) :
    p ∈ ps ∧ p.1.name.text = name :=
  ⟨List.mem_reverse.mp (List.mem_of_find?_eq_some h), by simpa using List.find?_some h⟩

namespace LinedEnumeration

variable (e : LinedEnumeration)

/-- Each constant is described by the comment of its own line, the last one that was recorded under
its name, and by none if there is none. -/
def KeepsComments (n : Node) : Prop :=
  ∀ c ∈ n.children, ∀ name, c.label? = some (.constant, name) →
    ∃ p, lastLine? (takenLines none e.lines) name = some p ∧
      c = (constantNode name).describeIf p.1.raw?

theorem keepsComments_iff {n : Node} (h : HoldsLines e.about (takenLines none e.lines) n) :
    e.KeepsComments n ↔ ∀ name p, lastLine? (takenLines none e.lines) name = some p →
      p.1.raw? = none → p.2 = none := by
  constructor
  · intro hkeeps name p hp hraw
    obtain ⟨-, hname⟩ := lastLine?_eq_some hp
    have hlabel : (p.1.toNode p.2).label? = some (.constant, name) :=
      hname ▸ p.1.label?_toNode p.2
    have hmem : p.1.toNode p.2 ∈ n.children :=
      (h.mem_iff _ name hlabel).mpr ⟨p, hp, by rw [ConstantLine.isWithdrawn, hraw]; rfl, rfl⟩
    obtain ⟨p', hp', hnode⟩ := hkeeps _ hmem name hlabel
    obtain rfl : p = p' := Option.some.inj (hp.symm.trans hp')
    rw [hraw, p.1.toNode_of_none p.2 hraw] at hnode
    cases hleft : p.2 with
    | none => rfl
    | some left =>
      rw [hleft] at hnode
      exact absurd (congrArg Node.children hnode) (List.cons_ne_nil _ _)
  · intro hnone c hc name hlabel
    obtain ⟨p, hp, -, rfl⟩ := (h.mem_iff c name hlabel).mp hc
    refine ⟨p, hp, ?_⟩
    rw [ConstantLine.toNode, (lastLine?_eq_some hp).2]
    cases hraw : p.1.raw? with
    | none => rw [hnone name p hp hraw]; rfl
    | some raw => rfl

/-- The constants of an enumeration keep their comments exactly if no comment was left for one that
has none itself. Comments are left only by lines whose constants are not recorded. -/
theorem keepsComments_unless_left {tree : Node} (hroot : tree.kind = .root) (hkept : tree.Kept)
    {before text : String} (hidle : ((State.start tree).run before.toList).IsIdle)
    (hcomment : e.comment.text ≠ "") (hpublic : Comment.isPrivate e.about = false)
    (hname : e.form.name.text.toList.head? ≠ some '_') (htext : e.Spelled text.toList) :
    let u := (State.start tree).run (before ++ text).toList
    (u.enclosing = [] → scan (before ++ text) tree = u.scope.node) ∧
      ∃ n, u.scope.node.find? .enumType (some e.form.name.text) = some n ∧
        n.descriptionText = e.about ∧
        (∀ c name, c.label? = some (.constant, name) → (c ∈ n.children ↔
          ∃ p, lastLine? (takenLines none e.lines) name = some p ∧ p.1.isWithdrawn = false ∧
            c = p.1.toNode p.2)) ∧
        (e.KeepsComments n ↔ ∀ name p, lastLine? (takenLines none e.lines) name = some p →
          p.1.raw? = none → p.2 = none) ∧
        ((∀ l ∈ e.lines, l.name.text.toList.head? = some '_' → l.raw? = none) →
          e.KeepsComments n) := by
  intro u
  have hsound : ((State.start tree).run before.toList).Sound tree.key :=
    (State.sound_start (by rw [hroot]; rfl) hkept).run _
  have hu : u = ((State.start tree).run before.toList).run text.toList := by
    rw [← State.run_append, ← String.toList_append]
  obtain ⟨n, hn, hlabel, hlines, -⟩ := State.run_enumeration hidle hsound hcomment hpublic
    (e.form.name.isRecordable_iff.mpr hname) htext
  have husound := (hsound.run text.toList).sound
  rw [← hu] at hn husound
  have hkeeps := e.keepsComments_iff hlines
  refine ⟨fun henclosing => ?_, n, find?_eq_of_label? (husound.kept.self.arranged husound.scope) hn hlabel,
    hlines.descriptionText, hlines.mem_iff, hkeeps, fun hrecorded => hkeeps.mpr fun name p hp _ =>
      takenLines_left_eq_none hrecorded p (lastLine?_eq_some hp).1⟩
  change u.result.node = u.scope.node
  rw [State.result, henclosing]
  rfl

/-- An enumeration in a namespace, with a name for its type, two comments and a private constant. -/
theorem keepsComments_unless_left_nameSpace :
    let before := "namespace n \x7b\n"
    let first : ConstantLine :=
      { name := ⟨"Alpha", by decide +kernel⟩, comment := some (.block ⟨" First. ".toList, by decide⟩) }
    let hidden : ConstantLine := { name := ⟨"_Beta", by decide +kernel⟩ }
    let last : ConstantLine :=
      { name := ⟨"Gamma", by decide +kernel⟩, comment := some (.line ⟨"/ Last.".toList, by decide⟩) }
    let e : LinedEnumeration :=
      { comment := .line ⟨" Letters.".toList, by decide⟩
        form := .aliased none ⟨"Letter", by decide +kernel⟩
        lines := [first, hidden, last] }
    let text := "// Letters.\ntypedef enum \x7b\n  Alpha, /* First. */\n  _Beta,\n  Gamma, /// Last.\n\x7d Letter;"
    ((State.start .empty).run before.toList).IsIdle ∧ e.Spelled text.toList ∧
      ∃ n, ((State.start .empty).run (before ++ text).toList).scope.node.find? .enumType
          (some "Letter") = some n ∧ e.KeepsComments n := by
  intro before first hidden last e text
  have hidle : ((State.start .empty).run before.toList).IsIdle := by
    refine ⟨by decide +kernel, ⟨by decide +kernel, ?_, by decide +kernel, ?_, ?_, ?_⟩,
      by decide +kernel, by decide +kernel, by decide +kernel, ?_, by decide +kernel⟩
    all_goals exact Option.isNone_iff_eq_none.mp (by decide +kernel)
  have hfirst : first.Spelled "\n  Alpha, /* First. */\n".toList :=
    ⟨"\n  ".toList, [], " /* First. */".toList, by decide, by decide,
      ⟨[' '], [], by decide, by decide, by decide⟩, by decide⟩
  have hhidden : hidden.Spelled "  _Beta,\n".toList :=
    ⟨"  ".toList, [], [], by decide, by decide, (by decide : IsBlank []), by decide⟩
  have hlast : last.Spelled "  Gamma, /// Last.\n".toList :=
    ⟨"  ".toList, [], " /// Last.".toList, by decide, by decide, ⟨[' '], by decide, by decide⟩,
      by decide⟩
  have hwords : WordsText e.form.words "typedef enum ".toList :=
    .cons (by decide : IsGap [' ']) (by decide) (.cons (by decide : IsGap [' ']) (by decide) .nil)
  have htext : e.Spelled text.toList :=
    ⟨[], _, _, [' '], by decide, hwords, .cons hfirst (.cons hhidden (.cons hlast (.nil
      (by decide : IsGap [])))), by decide, by decide⟩
  obtain ⟨-, n, hn, -, -, -, hkeeps⟩ := e.keepsComments_unless_left rfl (State.kept_leaf .root {}) hidle
    (by decide +kernel) (by decide +kernel) (by decide) htext
  refine ⟨hidle, htext, n, hn, hkeeps ?_⟩
  intro l hl hunderscore
  simp only [e, List.mem_cons, List.not_mem_nil, or_false] at hl
  obtain rfl | rfl | rfl := hl
  · exact absurd hunderscore (by decide)
  · rfl
  · exact absurd hunderscore (by decide)

/-- The comment of a private constant describes the constant behind it. -/
theorem not_keepsComments_hidden :
    let hidden : ConstantLine :=
      { name := ⟨"_Hidden", by decide +kernel⟩, comment := some (.block ⟨" hidden ".toList, by decide⟩) }
    let plain : ConstantLine := { name := ⟨"Shown", by decide +kernel⟩ }
    let e : LinedEnumeration :=
      { comment := .block ⟨" e ".toList, by decide⟩
        form := .tagged ⟨"Mode", by decide +kernel⟩
        lines := [hidden, plain] }
    let text := "/* e */\nenum Mode \x7b\n_Hidden, /* hidden */\nShown,\n\x7d;"
    e.Spelled text.toList ∧ ∃ n c, (scan text .empty).find? .enumType (some "Mode") = some n ∧
      n.find? .constant (some "Shown") = some c ∧ c.descriptionText = "hidden" ∧ ¬ e.KeepsComments n := by
  intro hidden plain e text
  have hhidden : hidden.Spelled "\n_Hidden, /* hidden */\n".toList :=
    ⟨['\n'], [], " /* hidden */".toList, by decide, by decide,
      ⟨[' '], [], by decide, by decide, by decide⟩, by decide⟩
  have hplain : plain.Spelled "Shown,\n".toList :=
    ⟨[], [], [], by decide, by decide, (by decide : IsBlank []), by decide⟩
  have hwords : WordsText e.form.words "enum Mode ".toList :=
    .cons (by decide : IsGap [' ']) (by decide) (.cons (by decide : IsGap [' ']) (by decide) .nil)
  have htext : e.Spelled text.toList :=
    ⟨['\n'], _, _, [], by decide, hwords, .cons hhidden (.cons hplain (.nil (by decide : IsGap []))),
      by decide, by decide⟩
  have hfound : (((scan text .empty).find? .enumType (some "Mode")).bind
      (·.find? .constant (some "Shown"))).map (·.descriptionText) = some "hidden" := by decide +kernel
  have hraw : (lastLine? (takenLines none e.lines) "Shown").map (·.1.raw?) = some none := by
    decide +kernel
  obtain ⟨c, hc, hdescribed⟩ := Option.map_eq_some_iff.mp hfound
  obtain ⟨n, hn, hc⟩ := Option.bind_eq_some_iff.mp hc
  refine ⟨htext, n, c, hn, hc, hdescribed, fun hkeeps => ?_⟩
  obtain ⟨p, hp, hnode⟩ := hkeeps c (List.mem_of_find?_eq_some hc) "Shown"
    (Node.isNamed_iff_label?.mp (List.find?_some hc))
  rw [hp, Option.map_some, Option.some.injEq] at hraw
  rw [hnode, hraw] at hdescribed
  exact absurd hdescribed (by decide)

end LinedEnumeration

end HeaderDocs.Scan
