import HeaderDocs.Proofs.Comment.Marker
import HeaderDocs.Proofs.Scan.Body
import HeaderDocs.Proofs.Scan.FunctionHeader

/-!
# Sources of prototypes

A source that consists of prototypes, each with a comment before it if any, is documented by one
function for each name: the last prototype of that name that is not private.

* `State.run_comment`: a block comment is taken without its decoration.
* `run_blockComment`: a block comment waits for the declaration after it.
* `run_item`: a prototype leaves the scanner where it was, with the function recorded in the tree.
* `scan_prototypes`: the functions of a source, and what they document.
-/
namespace HeaderDocs.Scan

open HeaderDocs.Text

/-! ## Block comments -/

/-- The text between the marks of a block comment. -/
structure BlockComment where
  body : List Char
  closes : contains ['*', '/'] body = false

/-- A text without the stars and the white space at the starts of its lines. -/
def undecorate (lineStart : Bool) : List Char → List Char
  | [] => []
  | c :: cs =>
    if lineStart && c == '*' then undecorate true cs
    else if c == '\n' then '\n' :: undecorate true cs
    else if lineStart && isSpace c then undecorate true cs
    else c :: undecorate false cs

namespace BlockComment

def chars (c : BlockComment) : List Char := '/' :: '*' :: (c.body ++ ['*', '/'])

/-- The text of a comment without decoration and without lines that hold nothing else before it. -/
def text (c : BlockComment) : String :=
  let cs := (undecorate true c.body).dropWhile (· == '\n')
  String.ofList (trimEnd (dropEndWhile (· == '*') (trimEnd cs)))

end BlockComment

/-- What has been read of a comment, backwards, after some more of it. -/
def readOn (text cs : List Char) : List Char :=
  if text.isEmpty then (cs.dropWhile (· == '\n')).reverse else cs.reverse ++ text

def Mode.inBlockComment : Mode → Bool
  | .blockComment .. | .blockStar .. => true
  | _ => false

theorem readOn_newline (text cs : List Char) :
    readOn (if text.isEmpty then [] else '\n' :: text) cs = readOn text ('\n' :: cs) := by
  cases text <;> simp [readOn]

variable {s : OpenScope}

namespace State

variable {t : State} {text body : List Char} {lineStart : Bool}

/-- A star at the start of a line is passed over, unless a slash follows. -/
theorem step_blockStar {c : Char} (hc : c ≠ '/') :
    (t.enter (.blockStar text)).step c = (t.enter (.blockComment text true)).step c := by
  change (if c == '/' then _ else _) = _
  rw [if_neg (by simpa using hc)]
  rfl

/-- The text of a comment only changes the mode, and can be ended after it. -/
theorem run_commentText (hstart : lineStart = true → text.head? ≠ some '*')
    (hopen : text.head? = some '*' → body.head? ≠ some '/') (hbody : ¬['*', '/'] <:+: body) :
    ∃ mode, (t.enter (.blockComment text lineStart)).run body = t.enter mode ∧
      (t.enter mode).run ['*', '/'] =
        t.endBlockComment (readOn text (undecorate lineStart body)) ∧
      mode.inBlockComment = true := by
  induction body generalizing text lineStart with
  | nil =>
    have htext : readOn text (undecorate lineStart []) = text := by
      cases text <;> rfl
    refine ⟨.blockComment text lineStart, rfl, ?_, rfl⟩
    rw [htext]
    cases lineStart <;> rfl
  | cons c body ih =>
    have hrest : ¬['*', '/'] <:+: body := fun h => hbody (List.infix_cons h)
    have hslash : c = '*' → body.head? ≠ some '/' := by
      rintro rfl he
      obtain ⟨rest, rfl⟩ := List.head?_eq_some_iff.mp he
      exact hbody ⟨[], rest, rfl⟩
    change ∃ mode, (State.blockComment text lineStart c (t.enter (.blockComment text lineStart))).run
      body = _ ∧ _
    unfold State.blockComment undecorate
    by_cases hstar : (lineStart && c == '*') = true
    · simp only [hstar, if_true]
      simp only [Bool.and_eq_true, beq_iff_eq] at hstar
      obtain ⟨mode, hmode, hend, hin⟩ := ih (fun _ : true = true => hstart hstar.1)
        (fun he => absurd he (hstart hstar.1)) hrest
      cases body with
      | nil =>
        rw [← hmode] at hend
        have hstep : (t.enter (.blockStar text)).step '*' = _ := step_blockStar (by decide)
        exact ⟨.blockStar text, rfl, (congrArg (State.run · ['/']) hstep).trans hend, rfl⟩
      | cons d body =>
        have hstep : (t.enter (.blockStar text)).step d = _ :=
          step_blockStar (by simpa using hslash hstar.2)
        exact ⟨mode, (congrArg (State.run · body) hstep).trans hmode, hend, hin⟩
    · by_cases hnewline : (c == '\n') = true
      · simp only [hstar, hnewline, if_true, Bool.false_eq_true, if_false]
        rw [← readOn_newline]
        refine ih (fun _ => ?_) (fun he => absurd he ?_) hrest <;> cases text <;> simp
      · by_cases hspace : (lineStart && isSpace c) = true
        · simp only [hstar, hnewline, hspace, if_true, Bool.false_eq_true, if_false]
          have hline := hstart (Bool.and_eq_true _ _ ▸ hspace).1
          exact ih (fun _ => hline) (fun he => absurd he hline) hrest
        · simp only [hstar, hnewline, hspace, Bool.false_eq_true, if_false]
          have hcontinues : readOn text (c :: undecorate false body) =
              readOn (c :: text) (undecorate false body) := by
            cases text <;> simp [readOn, hnewline]
          rw [hcontinues]
          split
          · exact absurd rfl (hopen rfl)
          · exact ih (fun he => absurd he Bool.false_ne_true)
              (fun he => hslash (Option.some.inj he)) hrest

/-- A block comment is taken without its decoration. -/
theorem run_comment (hmode : t.mode = .plain) (c : BlockComment) :
    t.run c.chars = t.update (·.takeComment c.text false) := by
  have hopen : t.run c.chars = (t.enter (.blockComment [] true)).run (c.body ++ ['*', '/']) := by
    obtain ⟨mode, scope, enclosing⟩ := t
    cases hmode
    rfl
  have hbody : ¬['*', '/'] <:+: c.body := by
    rw [← contains_iff_isInfix, c.closes]
    exact Bool.false_ne_true
  obtain ⟨mode, hread, hend, -⟩ := @run_commentText t [] c.body true (by simp) (by simp) hbody
  rw [hopen, run_append, hread, hend]
  obtain ⟨mode, scope, enclosing⟩ := t
  cases hmode
  unfold State.endBlockComment BlockComment.text
  rw [show (readOn [] (undecorate true c.body)).reverse =
    (undecorate true c.body).dropWhile (· == '\n') by simp [readOn]]
  rfl

end State

/-- A block comment waits for the declaration after it, in the place of one that has waited. -/
theorem run_blockComment (hroot : s.node.kind = .root) (waiting : Option String) (c : BlockComment) :
    (State.reading s { comment := waiting }).run c.chars =
      State.reading s { comment := if c.text = "" then waiting else some c.text } := by
  rw [State.run_comment rfl c]
  by_cases htext : c.text = ""
  · rw [if_pos htext, htext]
    rfl
  · rw [if_neg htext]
    have htake : ({ s with context := { comment := waiting } } : OpenScope).takeComment c.text false =
        { s with context := { comment := some c.text } } := by
      have hrecord : s.node.kind.isRecord = false := by rw [hroot]; rfl
      unfold OpenScope.takeComment
      rw [if_neg (by simpa using htext)]
      cases waiting <;> simp [hrecord, OpenScope.update]
    exact congrArg (fun scope => ({ scope } : State)) htake

/-! ## Prototypes with their comments -/

structure Item where
  comment : Option BlockComment := none
  prototype : Prototype

namespace Item

def name (i : Item) : String := i.prototype.name.text

def raw (i : Item) : String := (i.comment.map (·.text)).getD ""

def isPrivate (i : Item) : Bool := Comment.isPrivate (Comment.normalize i.raw).text

def toNode (i : Item) : Node := i.prototype.toNode i.raw

/-- The texts of an item, which ends with its line. -/
inductive Spelled : Item → List Char → Prop
  | bare {p : Prototype} {void : Bool} {cs : List Char} :
      Spells (p.tokens void) cs → Spelled ⟨none, p⟩ (cs ++ ['\n'])
  | commented {c : BlockComment} {gap : List Char} {p : Prototype} {void : Bool} {cs : List Char} :
      IsGap gap → Spells (p.tokens void) cs →
      Spelled ⟨some c, p⟩ (c.chars ++ (gap ++ (cs ++ ['\n'])))

end Item

inductive SourceText : List Item → List Char → Prop
  | nil {gap : List Char} : IsGap gap → SourceText [] gap
  | cons {i : Item} {items : List Item} {gap cs rest : List Char} :
      IsGap gap → i.Spelled cs → SourceText items rest →
      SourceText (i :: items) (gap ++ (cs ++ rest))

/-- The last item of a name that is not private. -/
def lastPublic? (items : List Item) (name : String) : Option Item :=
  items.reverse.find? fun i => i.name == name && !i.isPrivate

/-! ## Recording the functions -/

/-- A scope with a node recorded in it, unless that hides itself or has no public name. -/
def record (scope node : Node) : Node :=
  if node.isPrivate then scope else (scope.insert? node).getD scope

theorem record_of_insertion? {scope node : Node} {ins : Node.Insertion} (hpublic : node.isPrivate = false)
    (hins : scope.insertion? node = some ins) :
    record scope node = scope.withChildren (ins.apply scope.children) := by
  simp [record, Node.insert?, hpublic, hins]

/-- A public node whose name may be recorded is. -/
theorem exists_record_eq (scope : Node) {node : Node} (hpublic : node.isPrivate = false) {name : String}
    (hname : node.name = some name) (hrecordable : Node.isRecordable name = true) :
    ∃ ins, scope.insertion? node = some ins ∧
      record scope node = scope.withChildren (ins.apply scope.children) := by
  have hins := Node.insertion?_eq scope hname hrecordable
  exact ⟨_, hins, record_of_insertion? hpublic hins⟩

/-- A node with a new label goes between the others, before the first one that sorts after it. -/
theorem record_new {scope node : Node} {name : String} (hpublic : node.isPrivate = false)
    (hname : node.name = some name) (hrecordable : Node.isRecordable name = true)
    (hnew : ∀ c ∈ scope.children, c.label? ≠ node.label?) :
    record scope node = scope.withChildren
      (scope.children.insertIdx (scope.children.findIdx (Node.sortsAfter name)) node) := by
  have hnone : scope.children.findIdx? (Node.isNamed node.kind (some name)) = none := by
    refine List.findIdx?_eq_none_iff.mpr fun c hc => Bool.eq_false_iff.mpr fun h => ?_
    exact hnew c hc (by rw [Node.isNamed_iff_label?.mp h, Node.label?, hname]; rfl)
  have hins : scope.insertion? node =
      some ⟨none, scope.children.findIdx (Node.sortsAfter name), node⟩ := by
    simp [Node.insertion?, hname, hrecordable, hnone]
  exact record_of_insertion? hpublic hins

theorem perm_record_new {scope node : Node} {name : String} (hpublic : node.isPrivate = false)
    (hname : node.name = some name) (hrecordable : Node.isRecordable name = true)
    (hnew : ∀ c ∈ scope.children, c.label? ≠ node.label?) :
    (record scope node).children.Perm (node :: scope.children) := by
  rw [record_new hpublic hname hrecordable hnew]
  exact List.perm_insertIdx node scope.children List.findIdx_le_length

theorem record_of_not_recordable {scope n : Node} {name : String} (hname : n.name = some name)
    (h : Node.isRecordable name = false) : record scope n = scope := by
  unfold record
  split
  · rfl
  · have hnone : scope.insert? n = none := by
      rw [Node.insert?_eq_none_iff]
      intro other hother
      rwa [Option.some.inj (hother.symm.trans hname)]
    rw [hnone, Option.getD_none]

/-- What recording a node below the scope does to the node it is recorded in. -/
theorem node_commitTo (s : OpenScope) (home : Path) (node : Node) :
    (s.commitTo home node).1.node = s.node.modifyAt (record · node) home := by
  have hsame (h : ∀ m, s.node.get? home = some m → record m node = m) :
      s.node = s.node.modifyAt (record · node) home := by
    rw [Node.modifyAt_congr h]
    exact (Node.modifyAt_self _ _).symm
  refine s.commitTo_cases home node (fun hprivate => hsame fun m _ => if_pos hprivate)
    (fun hnone => hsame fun m hm => ?_) fun m ins room hpublic hm hins hroom => ?_
  · rw [hm] at hnone
    simp [record, Node.insert?, show m.insertion? node = none from hnone]
  · rw [OpenScope.node_noteRecorded]
    refine hroom.insertAt.trans (Node.modifyAt_congr fun m' hm' => ?_)
    obtain rfl : m = m' := Option.some.inj (hm.symm.trans hm')
    exact (record_of_insertion? hpublic hins).symm

theorem node_commit (node : Node) : (s.commit node).1.node = record s.node node :=
  node_commitTo s [] node

/-- A function whose home is the scope is recorded there. -/
theorem node_commitHeader {h : Header} (hhome : h.home = none) :
    (s.commitHeader h).node = record s.node h.node := by
  rw [OpenScope.commitHeader, hhome]
  dsimp only [OpenScope.update]
  rw [node_commit]

/-- A semicolon records the function whose header has been read. -/
theorem step_semicolon {h : Header} (htyped : h.typed = true) (hhome : h.home = none)
    (claim : Option (List Claim)) :
    ∃ s' : OpenScope, s'.node = record s.node h.node ∧ ∃ claim',
      (State.reading s { header := some h, claim }).step ';' =
        State.reading s' { claim := claim' } := by
  have hcommit : (({ s with context := { header := some h, claim } } : OpenScope).commitHeader h).node =
      record s.node h.node := node_commitHeader hhome
  obtain ⟨-, definition, enumeration, claim', hcontext⟩ := OpenScope.context_commitHeader
    ({ s with context := { header := some h, claim } } : OpenScope) h
  have hend : ({ s with context := { header := some h, claim } } : OpenScope).endHeader =
      ({ s with context := { header := some h, claim } } : OpenScope).commitHeader h := by
    simp [OpenScope.endHeader, htyped]
  refine ⟨_, hcommit, claim', ?_⟩
  change ({ scope := ({ s with context := { header := some h, claim } } : OpenScope).semicolon } :
    State) = _
  unfold OpenScope.semicolon State.reading
  rw [hend]
  generalize ({ s with context := { header := some h, claim } } : OpenScope).commitHeader h = scope
    at hcontext
  obtain ⟨node, origin, attached, context, suspended, declared, events⟩ := scope
  cases hcontext
  simp [OpenScope.update, OpenScope.endRun, OpenScope.declaresVariable, Run.texts,
    Run.isFunctionPointer, Context.dropRun]

theorem run_prototype (hroot : s.node.kind = .root) {p : Prototype} {void : Bool} {cs : List Char}
    (hcs : Spells (p.tokens void) cs) (comment : Option String) :
    ∃ s' : OpenScope, s'.node = record s.node (p.toNode (comment.getD "")) ∧
      (State.reading s { comment }).run (cs ++ ['\n']) = State.reading s' {} := by
  obtain ⟨h, hnode, htyped, hhome, hleads⟩ := leads_prototype (s := s) hroot p void comment
  obtain ⟨claim, cs', hcs', hrun⟩ := hleads none cs hcs
  cases hcs' with
  | mark hgap hnil =>
    cases hnil
    rename_i gap
    obtain ⟨s', hs', claim', hstep⟩ := step_semicolon (s := s) htyped hhome claim
    refine ⟨s', hnode ▸ hs', ?_⟩
    have hline : IsGap (gap ++ ['\n']) := hgap.append (by decide)
    rw [State.run_append, hrun, ← State.run_append]
    rw [List.append_nil, List.cons_append]
    change ((State.reading s _).step ';').run (gap ++ ['\n']) = _
    rw [hstep, State.run_gap rfl hline, if_pos (by simp)]
    rfl

theorem run_item (hroot : s.node.kind = .root) {i : Item} {cs : List Char} (hcs : i.Spelled cs) :
    ∃ s' : OpenScope, s'.node = record s.node i.toNode ∧
      (State.reading s {}).run cs = State.reading s' {} := by
  cases hcs with
  | bare hcs => exact run_prototype hroot hcs none
  | commented hgap hcs =>
    rename_i c gap p void cs
    have hcomment := run_blockComment hroot none c
    have htext : (if c.text = "" then none else some c.text).getD "" = c.text := by
      split
      · rename_i hnone
        exact hnone.symm
      · rfl
    generalize (if c.text = "" then none else some c.text) = comment at hcomment htext
    obtain ⟨s', hs', hrun⟩ := run_prototype hroot hcs comment
    rw [htext] at hs'
    refine ⟨s', hs', ?_⟩
    rw [State.run_append, hcomment, State.run_append, State.run_gap rfl hgap]
    have hendLine : (if '\n' ∈ gap then ({ comment } : Context).endLine else { comment }) =
        { comment } := by
      split <;> rfl
    rw [hendLine, hrun]

theorem kind_record (scope node : Node) : (record scope node).kind = scope.kind := by
  unfold record Node.insert?
  split
  · rfl
  · cases scope.insertion? node <;> rfl

/-- Recording a public node adds one child, which takes the place of the child of its kind and
name. -/
theorem mem_children_record {scope node : Node} (hscope : Node.Arranged scope.children)
    (hpublic : node.isPrivate = false) {name : String} (hname : node.name = some name)
    (hrecordable : Node.isRecordable name = true) :
    ∃ n, (n = node ∨ ∃ access, n = node.withScope access) ∧
      ∀ m, m ∈ (record scope node).children ↔
        m = n ∨ m ∈ scope.children ∧ m.label? ≠ node.label? := by
  obtain ⟨ins, hins, hrecord⟩ := exists_record_eq scope hpublic hname hrecordable
  obtain ⟨-, -, -, -, -, hnode⟩ := Node.insertion?_cases hins
  refine ⟨ins.node, hnode, fun m => ?_⟩
  rw [hrecord]
  exact Node.mem_apply_iff hscope hins

/-- A child stays where a node of another kind or name is recorded. -/
theorem mem_record_of_label_ne {scope node n : Node} (hscope : Node.Arranged scope.children)
    (hn : n ∈ scope.children) (hlabel : n.label? ≠ node.label?) : n ∈ (record scope node).children := by
  unfold record Node.insert?
  split
  · exact hn
  · cases hins : scope.insertion? node with
    | none => exact hn
    | some ins => exact (Node.mem_apply_iff hscope hins).mpr (.inr ⟨hn, hlabel⟩)

theorem arranged_record {scope node : Node} (h : Node.WellKept scope) (hs : scope.kind.isScope = true)
    (hk : node.kind ≠ .description) : Node.Arranged (record scope node).children := by
  unfold record Node.insert?
  split
  · exact h.arranged hs
  · cases hins : scope.insertion? node with
    | none => exact h.arranged hs
    | some ins => exact (h.insert hs hk hins).arranged hs

theorem run_source (hroot : s.node.kind = .root) {items : List Item} {cs : List Char}
    (hcs : SourceText items cs) :
    ∃ s' : OpenScope, s'.node = items.foldl (fun scope i => record scope i.toNode) s.node ∧
      (State.reading s {}).run cs = State.reading s' {} := by
  induction hcs generalizing s with
  | nil hgap =>
    refine ⟨s, rfl, ?_⟩
    rw [State.run_gap rfl hgap]
    split <;> rfl
  | cons hgap hitem _ ih =>
    obtain ⟨s', hs', hrun⟩ := run_item hroot hitem
    obtain ⟨s'', hs'', hrest⟩ := ih (s := s') (by rw [hs', kind_record, hroot])
    rename_i gap cs rest _
    refine ⟨s'', by rw [hs'', hs', List.foldl_cons], ?_⟩
    rw [State.run_append, State.run_append, State.run_gap rfl hgap]
    have hendLine : (if '\n' ∈ gap then ({} : Context).endLine else {}) = {} := by
      split <;> rfl
    rw [hendLine, hrun, hrest]

theorem scan_source {items : List Item} {text : String} (h : SourceText items text.toList) :
    scan text .empty = items.foldl (fun scope i => record scope i.toNode) .empty := by
  obtain ⟨s', hs', hrun⟩ := run_source (s := .begin .empty .source) rfl h
  have hstart : State.start .empty = State.reading (.begin .empty .source) {} := rfl
  unfold scan scanWithEvents
  rw [hstart, hrun]
  exact hs'

/-! ## What has been recorded -/

/-- The last node with a label that does not hide itself. -/
def lastPublicNode? (nodes : List Node) (label : Option (Kind × String)) : Option Node :=
  nodes.reverse.find? fun n => n.label? == label && !n.isPrivate

/-- A declaration outside of records that has a public name. -/
structure Recordable (n : Node) : Prop where
  unscoped : n.hasScope = false
  name : ∃ name, n.name = some name ∧ Node.isRecordable name = true
  kind : n.kind ≠ .description

/-- The children of a tree in which nodes have been recorded: the last public one of each label. -/
structure Recorded (nodes children : List Node) : Prop where
  arranged : Node.Arranged children
  mem_iff : ∀ n, n ∈ children ↔ lastPublicNode? nodes n.label? = some n

theorem mem_of_lastPublicNode? {nodes : List Node} {label : Option (Kind × String)} {n : Node}
    (h : lastPublicNode? nodes label = some n) : n ∈ nodes :=
  List.mem_reverse.mp (List.mem_of_find?_eq_some h)

theorem lastPublicNode?_concat (nodes : List Node) (node : Node) (label : Option (Kind × String)) :
    lastPublicNode? (nodes ++ [node]) label =
      if node.label? == label && !node.isPrivate then some node else lastPublicNode? nodes label := by
  rw [lastPublicNode?, List.reverse_append, List.reverse_singleton, List.singleton_append,
    List.find?_cons]
  split <;> rename_i h <;> simp [h, lastPublicNode?]

theorem recorded_nil : Recorded [] [] :=
  ⟨⟨.nil, .nil, by simp, by simp, by simp⟩, fun n => by simp [lastPublicNode?]⟩

theorem Recorded.record {nodes children : List Node} (h : Recorded nodes children)
    (hnodes : ∀ n ∈ nodes, Recordable n) {node : Node} (hnode : Recordable node) :
    ∃ children', Recorded (nodes ++ [node]) children' ∧
      record (Node.empty.withChildren children) node = Node.empty.withChildren children' := by
  unfold Scan.record
  by_cases hp : node.isPrivate = true
  · rw [if_pos hp]
    refine ⟨children, ⟨h.arranged, fun n => ?_⟩, rfl⟩
    simp only [lastPublicNode?_concat, hp, Bool.not_true, Bool.and_false, Bool.false_eq_true, if_false]
    exact h.mem_iff n
  · rw [if_neg hp]
    have hscope : ∀ c ∈ children, c.hasScope = false := fun c hc =>
      (hnodes c (mem_of_lastPublicNode? ((h.mem_iff c).mp hc))).unscoped
    obtain ⟨name, hname, hrecordable⟩ := hnode.name
    obtain ⟨ins, hins, hsame⟩ : ∃ ins, (Node.empty.withChildren children).insertion? node =
        some ins ∧ ins.node = node := Node.exists_insertion? hname hrecordable hscope
    have hkept : Node.WellKept (Node.empty.withChildren children) :=
      ⟨fun _ => h.arranged, fun hf => by cases hf⟩
    have hmem : ∀ n, n ∈ ins.apply children ↔ n = ins.node ∨
        n ∈ children ∧ n.label? ≠ node.label? := fun n => Node.mem_apply_iff h.arranged hins
    refine ⟨ins.apply children, ⟨(hkept.insert rfl hnode.kind hins).arranged rfl, fun n => ?_⟩, ?_⟩
    · rw [hmem, hsame, h.mem_iff, lastPublicNode?_concat]
      by_cases hlabel : node.label? = n.label?
      · simp [hlabel, hp, eq_comm]
      · have hne : n ≠ node := fun he => hlabel (he ▸ rfl)
        simp [hlabel, Ne.symm hlabel, hne]
    · rw [Node.insert?, hins]
      rfl

theorem Recorded.foldl {before children : List Node} (h : Recorded before children)
    (hbefore : ∀ n ∈ before, Recordable n) {nodes : List Node} (hnodes : ∀ n ∈ nodes, Recordable n) :
    ∃ children', Recorded (before ++ nodes) children' ∧
      nodes.foldl Scan.record (Node.empty.withChildren children) =
        Node.empty.withChildren children' := by
  induction nodes generalizing before children with
  | nil => exact ⟨children, by simpa using h, rfl⟩
  | cons node nodes ih =>
    have hnode := hnodes node (List.mem_cons_self ..)
    obtain ⟨children', h', hrecord⟩ := h.record hbefore hnode
    have hbefore' : ∀ n ∈ before ++ [node], Recordable n := by
      intro n hn
      rcases List.mem_append.mp hn with hn | hn
      · exact hbefore n hn
      · exact List.mem_singleton.mp hn ▸ hnode
    obtain ⟨children'', h'', hfold⟩ := ih h' hbefore' fun n hn => hnodes n (List.mem_cons_of_mem _ hn)
    exact ⟨children'', by simpa using h'', by rw [List.foldl_cons, hrecord, hfold]⟩

theorem ascending_of_arranged {children : List Node} (h : Node.Arranged children) (kind : Kind)
    (hkind : ∀ n ∈ children, n.name ≠ none → n.kind = kind) :
    (children.filterMap (·.name)).Pairwise (· < ·) := by
  have hlabel : children.filterMap Node.label? = (children.filterMap (·.name)).map (kind, ·) := by
    rw [List.map_filterMap]
    refine List.filterMap_congr fun n hn => ?_
    unfold Node.label?
    cases hname : n.name with
    | none => rfl
    | some name => rw [← hkind n hn (by simp [hname])]
  have hunique : (children.filterMap (·.name)).Nodup := by
    have hlabels := h.unique
    rw [hlabel] at hlabels
    exact List.Pairwise.of_map _ (fun _ _ hne he => hne (congrArg _ he)) hlabels
  exact (h.sorted.and hunique).imp fun ⟨hle, hne⟩ => Std.lt_of_le_of_ne hle hne

theorem Recorded.ascending_of_kind {nodes children : List Node} (h : Recorded nodes children)
    (kind : Kind) (hkind : ∀ n ∈ nodes, n.kind = kind) :
    (children.filterMap (·.name)).Pairwise (· < ·) :=
  ascending_of_arranged h.arranged kind fun n hn _ =>
    hkind n (mem_of_lastPublicNode? ((h.mem_iff n).mp hn))

/-! ## The functions of a source -/

theorem isPrivate_toNode (i : Item) : i.toNode.isPrivate = i.isPrivate := by
  rw [Node.isPrivate, Item.toNode, Prototype.descriptionText_toNode]
  rfl

theorem Identifier.isRecordable (w : Identifier) : Node.isRecordable w.text = true := by
  have h := w.isIdentifier
  unfold Node.isRecordable
  cases htext : w.text.toList with
  | nil =>
    rw [htext] at h
    cases h
  | cons c cs =>
    simp only [htext, Scan.isIdentifier, Bool.and_eq_true] at h
    have hc : c ∉ ['_'] := notMem_of_class (by decide) h.1
    simpa using hc

theorem recordable_toNode (i : Item) : Recordable i.toNode :=
  ⟨rfl, ⟨i.name, rfl, i.prototype.name.isRecordable⟩, (by decide : Kind.function ≠ .description)⟩

theorem label?_toNode (i : Item) : i.toNode.label? = some (.function, i.name) := rfl

theorem Recorded.mem_iff_lastPublic? {items : List Item} {functions : List Node}
    (h : Recorded (items.map (·.toNode)) functions) (n : Node) :
    n ∈ functions ↔ ∃ i : Item, lastPublic? items i.name = some i ∧ n = i.toNode := by
  have hlast : ∀ i : Item, lastPublicNode? (items.map (·.toNode)) i.toNode.label? =
      (lastPublic? items i.name).map (·.toNode) := by
    intro i
    unfold lastPublicNode? lastPublic?
    rw [← List.map_reverse, List.find?_map]
    congr 2
    funext j
    have hlabel : (j.toNode.label? == i.toNode.label?) = (j.name == i.name) := by
      rw [label?_toNode, label?_toNode, Bool.eq_iff_iff]
      simp
    rw [Function.comp_apply, hlabel, isPrivate_toNode]
  rw [h.mem_iff]
  constructor
  · intro hn
    obtain ⟨i, -, rfl⟩ := List.mem_map.mp (mem_of_lastPublicNode? hn)
    rw [hlast] at hn
    obtain ⟨j, hj, hnode⟩ := Option.map_eq_some_iff.mp hn
    have hname : j.name = i.name := by
      have := List.find?_some hj
      simp only [Bool.and_eq_true, beq_iff_eq] at this
      exact this.1
    exact ⟨j, by rw [hname, hj], hnode.symm⟩
  · rintro ⟨i, hi, rfl⟩
    rw [hlast, hi]
    rfl

theorem Recorded.ascending {items : List Item} {functions : List Node}
    (h : Recorded (items.map (·.toNode)) functions) :
    (functions.filterMap (·.name)).Pairwise (· < ·) :=
  h.ascending_of_kind .function fun n hn => by
    obtain ⟨i, -, rfl⟩ := List.mem_map.mp hn
    rfl

/-- What a tree says of a source of prototypes. -/
structure Documents (tree : Node) (items : List Item) : Prop where
  root : tree = Node.empty.withChildren tree.children
  ascending : (tree.children.filterMap (·.name)).Pairwise (· < ·)
  /-- The children of the tree are the functions of the last public items. -/
  mem_iff : ∀ n, n ∈ tree.children ↔ ∃ i : Item, lastPublic? items i.name = some i ∧ n = i.toNode
  documented : ∀ i : Item, lastPublic? items i.name = some i →
    i.prototype.DocumentedBy i.raw tree i.toNode

/-- A source of prototypes is documented by the last public prototype of each name, in ascending
order of name. -/
theorem scan_prototypes {items : List Item} {text : String} (h : SourceText items text.toList) :
    Documents (scan text .empty) items := by
  have hall : ∀ n ∈ items.map (·.toNode), Recordable n := by
    intro n hn
    obtain ⟨i, -, rfl⟩ := List.mem_map.mp hn
    exact recordable_toNode i
  obtain ⟨functions, hfunctions, hfold⟩ := recorded_nil.foldl nofun hall
  have hscan : scan text .empty = Node.empty.withChildren functions := by
    rw [scan_source h, ← List.foldl_map]
    exact hfold
  rw [hscan]
  exact
    { root := rfl
      ascending := hfunctions.ascending
      mem_iff := hfunctions.mem_iff_lastPublic?
      documented := fun i _ => i.prototype.documentedBy_toNode i.raw rfl }

/-- Two prototypes of one name, of which the second is private, in layouts of their own. -/
theorem scan_prototypes_hidden :
    let identifier := Identifier.ofText
    let documented : Prototype :=
      { result := ⟨[identifier "const" (by decide +kernel), identifier "char" (by decide +kernel)], 1,
          List.cons_ne_nil _ _⟩
        name := identifier "open" (by decide +kernel)
        parameters := [⟨⟨[identifier "int" (by decide +kernel)], 0, List.cons_ne_nil _ _⟩,
          identifier "mode" (by decide +kernel), some ⟨"0", by decide +kernel⟩⟩]
        leads := by decide +kernel
        returns := by decide +kernel }
    let hidden : Prototype :=
      { result := ⟨[identifier "int" (by decide +kernel)], 0, List.cons_ne_nil _ _⟩
        name := identifier "open" (by decide +kernel)
        leads := by decide +kernel
        returns := by decide +kernel }
    let items : List Item :=
      [⟨some ⟨"* Opens it. ".toList, by decide +kernel⟩, documented⟩,
        ⟨some ⟨" @private@ ".toList, by decide +kernel⟩, hidden⟩]
    let text := "/** Opens it. */ const char *open(int mode =0);\n/* @private@ */int open( void ) ;\n"
    SourceText items text.toList ∧ Documents (scan text .empty) items := by
  intro identifier documented hidden items text
  have hdocumented : Spells (documented.tokens false) _ :=
    .word (by decide : IsGap [' ']) (by simp) <| .word (by decide : IsGap [' ']) (by simp) <|
    .mark (by decide : IsGap []) <| .opening (by decide : IsGap []) <|
    .word (by decide : IsGap [' ']) (by simp) <| .word (by decide : IsGap [' ']) (by simp) <|
    .mark (by decide : IsGap []) <| .word (by decide : IsGap []) (fun _ => ⟨')', rfl⟩) <|
    .mark (by decide : IsGap []) <| .mark (by decide : IsGap []) .nil
  have hhidden : Spells (hidden.tokens true) _ :=
    .word (by decide : IsGap [' ']) (by simp) <| .opening (by decide : IsGap [' ']) <|
    .word (by decide : IsGap [' ']) (by simp) <| .mark (by decide : IsGap [' ']) <|
    .mark (by decide : IsGap []) .nil
  have hsource : SourceText items _ :=
    .cons (by decide : IsGap []) (.commented (by decide : IsGap [' ']) hdocumented) <|
    .cons (by decide : IsGap []) (.commented (by decide : IsGap []) hhidden) <|
    .nil (by decide : IsGap [])
  have htext : SourceText items text.toList :=
    Eq.subst (motive := SourceText items) (by decide +kernel) hsource
  exact ⟨htext, scan_prototypes htext⟩

end HeaderDocs.Scan
