import HeaderDocs.Proofs.Scan.ArgumentLists
import HeaderDocs.Proofs.Scan.DeclaratorLists
import HeaderDocs.Proofs.Scan.EnumerationConstants
import HeaderDocs.Proofs.Scan.EnumerationLines
import HeaderDocs.Proofs.Scan.LeftOut

/-!
# Members that are defined outside of their class

The definition `int C::m(int a) \x7b … \x7d` is recorded in the class `C` of the root, or else in the
structure `C`. Without either it is recorded as a function `m` of the root itself, in the place of a
function `m` that was there.

* `GainsFunction`: what has changed in a node that a function was recorded in.
* `MemberDefinition.gainsFunction_scan`: what a definition records, and what it leaves alone.
-/
namespace HeaderDocs.Scan

open HeaderDocs.Text HeaderDocs.Node

/-! ## Recording a function -/

/-- The function as it is recorded in the place of another one, whose access it takes over. -/
def inheriting (function : Node) (old? : Option Node) : Node :=
  match old? with
  | some old => if old.hasScope then function.withScope old.scope else function
  | none => function

/-- The node `n'` is `n` with a function that was added, or that replaced the first one of its
name. -/
structure GainsFunction (function : Node) (name : String) (n n' : Node) : Prop where
  itself : n'.withChildren n.children = n
  others : n'.children.filter (!isNamed .function (some name) ·) =
    n.children.filter (!isNamed .function (some name) ·)
  functions : (n'.children.filter (isNamed .function (some name))).Perm
    (inheriting function (n.find? .function (some name)) ::
      (n.children.filter (isNamed .function (some name))).tail)

theorem GainsFunction.mem {function : Node} {name : String} {n n' : Node}
    (h : GainsFunction function name n n')
    (hfirst : ∀ old, n.find? .function (some name) = some old → old ∈ n'.children) {c : Node}
    (hc : c ∈ n.children) : c ∈ n'.children := by
  by_cases hnamed : isNamed .function (some name) c = true
  · have hfind : n.find? .function (some name) =
        (n.children.filter (isNamed .function (some name))).head? := List.head?_filter.symm
    have hmem : c ∈ n.children.filter (isNamed .function (some name)) :=
      List.mem_filter.mpr ⟨hc, hnamed⟩
    have hperm := h.functions
    cases hfunctions : n.children.filter (isNamed .function (some name)) with
    | nil =>
      rw [hfunctions] at hmem
      cases hmem
    | cons old rest =>
      rw [hfunctions] at hmem hfind hperm
      obtain rfl | hrest := List.mem_cons.mp hmem
      · exact hfirst c hfind
      · exact (List.mem_filter.mp (hperm.mem_iff.mpr (List.mem_cons_of_mem _ hrest))).1
  · have hother : c ∈ n.children.filter (!isNamed .function (some name) ·) :=
      List.mem_filter.mpr ⟨hc, by simpa using hnamed⟩
    rw [← h.others] at hother
    exact (List.mem_filter.mp hother).1

/-- Taking out the first element that a test accepts. -/
theorem filter_eraseIdx_findIdx? {α : Type} {p : α → Bool} {l : List α} {i : Nat}
    (h : l.findIdx? p = some i) :
    (l.eraseIdx i).filter p = (l.filter p).tail ∧
      (l.eraseIdx i).filter (!p ·) = l.filter (!p ·) := by
  induction l generalizing i with
  | nil => cases h
  | cons a l ih =>
    rw [List.findIdx?_cons] at h
    cases ha : p a with
    | true =>
      rw [ha] at h
      cases h
      simp [ha]
    | false =>
      rw [ha] at h
      obtain ⟨j, hj, rfl⟩ := Option.map_eq_some_iff.mp h
      simpa [ha] using ih hj

theorem insertion?_function {function : Node} {name : String} (hkind : function.kind = .function)
    (hname : function.name = some name) (hscope : function.scope = none)
    (hrecordable : isRecordable name = true) (n : Node) :
    ∃ ins : Insertion, n.insertion? function = some ins ∧
      ins.replaced = n.children.findIdx? (isNamed .function (some name)) ∧
      ins.position = (ins.rest n.children).findIdx (sortsAfter name) ∧
      ins.node = inheriting function (n.find? .function (some name)) := by
  have hunscoped : function.hasScope = false := by
    simp [hasScope, hscope]
  have hold : (n.children.findIdx? (isNamed .function (some name))).bind (n.children[·]?) =
      n.find? .function (some name) := List.find?_eq_bind_findIdx?_getElem?.symm
  let replaced := n.children.findIdx? (isNamed .function (some name))
  let rest := Insertion.rest ⟨replaced, 0, function⟩ n.children
  refine ⟨⟨replaced, rest.findIdx (sortsAfter name), inheriting function (n.find? .function (some name))⟩,
    ?_, rfl, rfl, rfl⟩
  unfold insertion?
  rw [hname]
  dsimp only
  rw [if_pos hrecordable, hkind, hold]
  simp only [hunscoped, Bool.not_false, Bool.and_true]
  rfl

/-- A function whose name or comment hides it is not recorded. -/
theorem record_of_hidden {function : Node} {name : String} (hname : function.name = some name)
    (hhidden : (function.isPrivate || !isRecordable name) = true) (n : Node) :
    record n function = n := by
  cases hprivate : function.isPrivate with
  | true => simp [record, hprivate]
  | false => exact record_of_not_recordable hname (by simpa [hprivate] using hhidden)

theorem gainsFunction_record {function : Node} {name : String} (hkind : function.kind = .function)
    (hname : function.name = some name) (hscope : function.scope = none)
    (hshown : (function.isPrivate || !isRecordable name) = false) (n : Node) :
    GainsFunction function name n (record n function) := by
  obtain ⟨hprivate, hrecordable⟩ : function.isPrivate = false ∧ isRecordable name = true := by
    simpa using hshown
  obtain ⟨ins, hins, hreplaced, hposition, hnode⟩ :=
    insertion?_function hkind hname hscope hrecordable n
  have hrecord := record_of_insertion? hprivate hins
  have happly : ins.apply n.children =
      (ins.rest n.children).takeWhile (!sortsAfter name ·) ++
        ins.node :: (ins.rest n.children).dropWhile (!sortsAfter name ·) := by
    rw [Insertion.apply_eq, hposition, insertIdx_findIdx]
  have hnamed : isNamed .function (some name) ins.node = true := by
    have hkey := (Insertion.node_eq hins).1
    rw [isNamed_iff_label?, label?, kind_eq_of_key hkey, name_eq_of_key hkey, hkind, hname]
    rfl
  -- what is left of the children once the replaced one is gone
  have hrest : (ins.rest n.children).filter (isNamed .function (some name)) =
        (n.children.filter (isNamed .function (some name))).tail ∧
      (ins.rest n.children).filter (!isNamed .function (some name) ·) =
        n.children.filter (!isNamed .function (some name) ·) := by
    unfold Insertion.rest
    rw [hreplaced]
    cases hfound : n.children.findIdx? (isNamed .function (some name)) with
    | some i => exact filter_eraseIdx_findIdx? hfound
    | none =>
      have hnone := List.findIdx?_eq_none_iff.mp hfound
      rw [List.filter_eq_nil_iff.mpr (by simpa using hnone)]
      exact ⟨rfl, rfl⟩
  rw [hrecord]
  refine ⟨withChildren_self n, ?_, ?_⟩
  · change (ins.apply n.children).filter _ = _
    rw [← hrest.2, happly, List.filter_append, List.filter_cons_of_neg (by simp [hnamed]),
      ← List.filter_append, List.takeWhile_append_dropWhile]
  · change ((ins.apply n.children).filter _).Perm _
    rw [← hrest.1, ← hnode, happly, List.filter_append, List.filter_cons_of_pos hnamed]
    refine List.perm_middle.trans (.cons _ ?_)
    rw [← List.filter_append, List.takeWhile_append_dropWhile]

/-- The class of a name among the children, or else the structure. -/
def recordOf? (tree : Node) (name : String) : Option Node :=
  (tree.find? .classType (some name)).or (tree.find? .structType (some name))

theorem recordNamed?_eq_some {tree c : Node} {name : String} (h : recordOf? tree name = some c) :
    ∃ i, OpenScope.recordNamed? tree name = some (.inScope i) ∧ tree.children[i]? = some c := by
  unfold recordOf? Node.find? at h
  rw [List.find?_eq_bind_findIdx?_getElem?, List.find?_eq_bind_findIdx?_getElem?] at h
  unfold OpenScope.recordNamed?
  cases hclass : tree.children.findIdx? (isNamed .classType (some name)) with
  | some i =>
    obtain ⟨hlt, -, -⟩ := List.findIdx?_eq_some_iff_getElem.mp hclass
    refine ⟨i, rfl, ?_⟩
    simpa [hclass, List.getElem?_eq_getElem hlt] using h
  | none =>
    rw [hclass, Option.bind_none, Option.none_or] at h
    obtain ⟨i, hi, hc⟩ := Option.bind_eq_some_iff.mp h
    exact ⟨i, by rw [hi]; rfl, hc⟩

theorem recordNamed?_eq_none {tree : Node} {name : String} (h : recordOf? tree name = none) :
    OpenScope.recordNamed? tree name = none := by
  unfold recordOf? Node.find? at h
  obtain ⟨hclass, hstruct⟩ := Option.or_eq_none_iff.mp h
  have hnot : ∀ {p : Node → Bool}, tree.children.find? p = none →
      tree.children.findIdx? p = none := fun hp => by
    simpa [List.findIdx?_eq_none_iff] using hp
  unfold OpenScope.recordNamed?
  rw [hnot hclass, hnot hstruct]
  rfl

/-- A tree with a function recorded in the child at a place, or else in its root. -/
def recordFunction (home : Option Place) (function tree : Node) : Node :=
  match home with
  | some (.inScope i) => tree.modifyAt (record · function) [i]
  | some (.aside _) => tree
  | none => record tree function

theorem OpenScope.node_commitHeader (s : OpenScope) (head : Header) :
    (s.commitHeader head).node = recordFunction head.home head.node s.node := by
  unfold OpenScope.commitHeader recordFunction
  dsimp only [OpenScope.update]
  split
  · rename_i hhome
    rw [hhome]
    exact node_commit head.node
  · rename_i i hhome
    rw [hhome]
    exact node_commitTo s [i] head.node
  · rename_i aside hhome
    rw [hhome]
    exact OpenScope.scope_commitAside (P := (·.node = s.node)) rfl (fun _ => rfl) aside head.node

/-! ## The name of a member -/

def Name.qualify (qualifier name : Name) : String := qualifier.text ++ "::" ++ name.text

theorem Name.breakOn?_colons {before : List Char} (h : ':' ∉ before) (after : List Char) :
    breakOn? [':', ':'] (before ++ ':' :: ':' :: after) = some (before, after) := by
  induction before with
  | nil => simp [breakOn?, List.isPrefixOf?]
  | cons c before ih =>
    have hc : ¬ ':' = c := fun he => h (he ▸ List.mem_cons_self)
    have hrest := ih fun hm => h (List.mem_cons_of_mem _ hm)
    simp [breakOn?, List.isPrefixOf?, hc, hrest]

theorem Name.splitQualified_qualify (qualifier name : Name) :
    OpenScope.splitQualified (qualifier.qualify name) = some (qualifier.text, name.text) := by
  have hlist : (qualifier.qualify name).toList =
      qualifier.text.toList ++ ':' :: ':' :: name.text.toList := by
    simp [Name.qualify]
  unfold OpenScope.splitQualified
  rw [hlist, Name.breakOn?_colons (qualifier.notMem (by decide))]
  simp [qualifier.chars.1]

/-- The node of a function without an access, described by the comment that waits before it. -/
def functionNode (name : String) (children : List Node) (waiting : Option String) : Node :=
  { kind := .function
    attrs := { name := some name }
    children := children ++ [descriptionOf (Comment.normalize (waiting.getD "")).text] }

theorem isPrivate_functionNode (name : String) {children arguments : List Node}
    (h : ∀ c ∈ children, c.kind ≠ .description) (waiting : Option String) :
    ((functionNode name children waiting).withChildren
        ((functionNode name children waiting).children ++ arguments)).isPrivate =
      Comment.isPrivate (Comment.normalize (waiting.getD "")).text := by
  have hchild : ((functionNode name children waiting).withChildren
        ((functionNode name children waiting).children ++ arguments)).child? .description =
      some (descriptionOf (Comment.normalize (waiting.getD "")).text) := by
    have hnone : children.find? (isKind .description) = none :=
      List.find?_eq_none.mpr fun c hc => by simpa [isKind] using h c hc
    simp [child?, functionNode, withChildren, List.find?_append, hnone, isKind, descriptionOf]
  rw [Node.isPrivate, Node.descriptionText, hchild]
  exact congrArg Comment.isPrivate (Node.text_descriptionOf _)

/-- The scope at the arguments of a member that is defined in the root: the function has no access of
its own, and belongs into the class or structure that its name is qualified with. -/
theorem OpenScope.startFunction_qualify {tree : Node} {run : Run} (hrun : run ≠ [])
    (hleft : run.texts.head?.any (isLeftOut tree.kind) = false) (parens : Nat)
    (runComment comment : Option String) (joinable : Bool) (qualifier name : Name) :
    ∃ children, (∀ c ∈ children, Node.kind c ≠ .description) ∧
      (idle tree (.pending parens run runComment comment joinable)).startFunction
          (qualifier.qualify name) =
        idle tree
          { parens
            header := some { node := functionNode name.text children comment, typed := true
                             home := recordNamed? tree qualifier.text } } := by
  have htyped : (!run.isEmpty) = true := by simpa using hrun
  refine ⟨(resultOf? run runComment).toList, kind_of_resultOf?, ?_⟩
  unfold OpenScope.startFunction
  dsimp only
  rw [if_neg (by simpa [idle, Context.pending, OpenScope.begin] using hleft),
    Name.splitQualified_qualify, describe_undescribed (by simp) kind_of_resultOf?]
  simp only [idle, Context.pending, OpenScope.update, Context.takeComment, Context.dropRun, htyped]
  rfl

/-! ## Reading a definition -/

/-- Whether a text can stand before the name of a function: it has words, none of which makes another
declaration of it. -/
def Skim.isReturnType (k : Skim) : Bool :=
  k.layer == .code && k.word.isNone && k.depth == 0 && !k.valued && !k.words.isEmpty &&
    !k.isLeftOut && k.words.head? != some "typedef"

/-- The definition of a function outside of the class or structure that it is a member of. -/
structure MemberDefinition where
  /-- The type that is returned, with the white space behind it. -/
  type : String
  qualifier : Name
  name : Name
  arguments : String
  /-- White space before the body. -/
  gap : String
  body : String
  /-- White space behind the body. -/
  ending : String
  type_valid : (skim? type.toList).any Skim.isReturnType = true
  arguments_valid : isArgumentList arguments.toList = true
  gap_valid : IsGap gap.toList
  body_valid : isBalanced body.toList = true
  ending_valid : IsGap ending.toList

namespace MemberDefinition

variable (d : MemberDefinition) {tree : Node}

def text : String :=
  d.type ++ d.qualifier.qualify d.name ++ "(" ++ d.arguments ++ ")" ++ d.gap ++ "\x7b" ++ d.body ++
    "\x7d" ++ d.ending

def header : List Char :=
  d.type.toList ++ ((d.qualifier.qualify d.name).toList ++
    '(' :: (d.arguments.toList ++ [')'] ++ d.gap.toList))

theorem toList_text : d.text.toList =
    d.header ++ ('\x7b' :: (d.body.toList ++ ['\x7d']) ++ d.ending.toList) := by
  simp [text, header]

/-- What the type leads to: nothing has been recorded, and its words are the run. -/
theorem run_type (hroot : tree.kind = .root) :
    ∃ (run : Run) (runComment comment : Option String) (joinable : Bool),
      run ≠ [] ∧ "=" ∉ run.texts ∧
      run.texts.head? ≠ some "typedef" ∧ run.texts.head?.any (isLeftOut tree.kind) = false ∧
      (State.start tree).run d.type.toList =
        { scope := .idle tree (.pending 0 run runComment comment joinable) } := by
  obtain ⟨k, hskim, hk⟩ := (Option.any_eq_true _ _).mp d.type_valid
  simp only [Skim.isReturnType, Bool.and_eq_true, beq_iff_eq, Option.isNone_iff_eq_none,
    Bool.not_eq_true', List.isEmpty_eq_false_iff, bne_iff_ne] at hk
  obtain ⟨⟨⟨⟨⟨⟨hlayer, hword⟩, hdepth⟩, hvalued⟩, hwords⟩, hleft⟩, htypedef⟩ := hk
  obtain ⟨⟨hmode, -⟩, -, hmodeWord, henclosing, run, runComment, comment, joinable, hscope, hfits⟩ :=
    (State.skims_start hroot).run hroot hskim
  refine ⟨run, runComment, comment, joinable, mt hfits.run_eq_nil_iff.mp hwords, ?_, ?_, ?_, ?_⟩
  · rw [hfits.valued, hvalued]
    exact nofun
  · rw [hfits.head]
    exact htypedef
  · rw [hroot, hfits.head]
    exact hleft
  · generalize (State.start tree).run d.type.toList = s at *
    obtain ⟨mode, scope, enclosing⟩ := s
    cases henclosing
    cases hscope
    dsimp only at hmode hmodeWord
    rw [hlayer] at hmode
    rw [hword] at hmodeWord
    rw [hdepth]
    cases mode with
    | plain => rfl
    | word => cases hmodeWord
    | _ => cases hmode

/-- The comment that waits where the name is read. -/
def waiting (tree : Node) : Option String :=
  ((State.start tree).run d.type.toList).scope.context.comment

/-- What the text before the body leads to: the header of a function. -/
theorem run_header (hroot : tree.kind = .root) :
    ∃ function : Node, function.kind = .function ∧ function.name = some d.name.text ∧
      function.scope = none ∧
      function.isPrivate = Comment.isPrivate (Comment.normalize ((d.waiting tree).getD "")).text ∧
      ∃ comment claim, (State.start tree).run d.header =
        { scope := .idle tree
            { comment, claim
              header := some { node := function, typed := true, argumentsOpen := false
                               home := OpenScope.recordNamed? tree d.qualifier.text } } } := by
  obtain ⟨run, runComment, comment, joinable, hrun, hequals, htypedef, hleft, htype⟩ :=
    d.run_type hroot
  have hwaiting : d.waiting tree = comment := by
    rw [waiting, htype]
    rfl
  obtain ⟨children, hchildren, hstart⟩ :=
    OpenScope.startFunction_qualify hrun hleft 0 runComment comment false d.qualifier d.name
  let t : State := { scope := .begin tree .source }
  let c : Context := .pending 0 run runComment comment false
  let home := OpenScope.recordNamed? tree d.qualifier.text
  let head : Header := { node := functionNode d.name.text children comment, typed := true, home }
  -- the qualified name is read as one word, whatever came before it
  obtain ⟨first, cs, hfirst⟩ := List.exists_cons_of_ne_nil d.qualifier.chars.1
  have hchars := d.qualifier.chars.2
  rw [hfirst] at hchars
  have hqualified : (d.qualifier.qualify d.name).toList =
      first :: (cs ++ ':' :: ':' :: d.name.text.toList) := by
    simp [Name.qualify, hfirst]
  have hparts : ∀ e ∈ cs ++ ':' :: ':' :: d.name.text.toList,
      State.isWordPart c.parens e = true := by
    intro e he
    simp only [List.mem_append, List.mem_cons] at he
    rcases he with he | rfl | rfl | he
    · exact (isWordPart_of_isWordChar (hchars e (List.mem_cons_of_mem _ he)) _).2
    · simp [State.isWordPart]
    · simp [State.isWordPart]
    · exact (isWordPart_of_isWordChar (d.name.chars.2 e he) _).2
  have hword : ((t.inContext c).update (·.word (d.qualifier.qualify d.name) '(')) =
      { scope := .idle tree { header := some head } } := by
    have hidle := OpenScope.word_idle hroot 0 run runComment comment false
      (d.qualifier.qualify d.name) '('
    rw [if_pos (by simp [hequals, htypedef]), hstart] at hidle
    exact congrArg (fun scope => ({ scope } : State)) hidle
  have hopened (rest : List Char) :
      (t.inContext { c with joinable }).run ((d.qualifier.qualify d.name).toList ++ '(' :: rest) =
        State.run { scope := .idle tree { parens := 1, header := some head } } rest := by
    have hjoinable := State.run_name_joinable (t := t) (c := c) joinable d.qualifier
      ("::".toList ++ d.name.text.toList ++ '(' :: rest)
    have hsplit : (d.qualifier.qualify d.name).toList ++ '(' :: rest =
        d.qualifier.text.toList ++ ("::".toList ++ d.name.text.toList ++ '(' :: rest) := by
      simp [Name.qualify]
    rw [hsplit, hjoinable, ← hsplit]
    refine (State.run_wordFrom rfl hqualified (isWordPart_of_isWordChar
      (hchars first List.mem_cons_self) 0).1 hparts (by simp [State.isWordPart]; decide) rest).trans ?_
    rw [hword]
    rfl
  obtain ⟨arguments, comment', claim, harguments⟩ := State.run_argumentList
    (s := { scope := .idle tree { parens := 1, header := some head } }) hroot
    (show head.argumentsOpen = true from rfl) rfl rfl
    ⟨_, rfl, [], [], none, none, false, none, .inl rfl, by rw [head.extend_nil]; rfl⟩
    d.arguments_valid
  obtain ⟨claim', hgap⟩ := State.run_gap_inContext (t := t)
    (c := { comment := comment', header := some { head.extend arguments with argumentsOpen := false } })
    rfl claim d.gap_valid []
  refine ⟨(head.extend arguments).node, rfl, rfl, rfl, ?_, comment', claim', ?_⟩
  · rw [hwaiting]
    exact isPrivate_functionNode d.name.text hchildren comment
  · rw [header, State.run_append, htype]
    refine (hopened _).trans ?_
    rw [State.run_append, harguments]
    rw [List.append_nil] at hgap
    exact hgap

/-- The function is recorded in the class or structure that its name is qualified with, or else in the
root. -/
theorem scan_eq (hroot : tree.kind = .root) :
    ∃ function : Node, function.kind = .function ∧ function.name = some d.name.text ∧
      function.scope = none ∧
      function.isPrivate = Comment.isPrivate (Comment.normalize ((d.waiting tree).getD "")).text ∧
      scan d.text tree = recordFunction (OpenScope.recordNamed? tree d.qualifier.text) function tree := by
  obtain ⟨function, hkind, hname, hscope, hprivate, comment, claim, hheader⟩ := d.run_header hroot
  refine ⟨function, hkind, hname, hscope, hprivate, ?_⟩
  have htidy := State.tidy_run tree d.header
  rw [hheader] at htidy
  have hbody := State.AwaitsBody.run_block ⟨rfl, rfl, rfl, rfl, rfl, _, rfl, rfl, .inl rfl⟩ htidy rfl
    d.body_valid
  unfold scan scanWithEvents
  rw [d.toList_text, State.run_append, hheader, State.run_append, hbody]
  refine (State.node_run_gap rfl rfl rfl d.ending_valid).trans ?_
  exact OpenScope.node_commitHeader _ _

/-- Whether the function is not recorded, because of its name or of the comment before it. -/
def isHidden (tree : Node) : Bool :=
  Comment.isPrivate (Comment.normalize ((d.waiting tree).getD "")).text || !isRecordable d.name.text

/-- Reading the definition of a member. If the root has a class of the name that qualifies it, or else
a structure, that gains the function, and nothing else changes. Without either the root gains it: all
children are still there exactly if the function of that name is that was there before. -/
theorem gainsFunction_scan (hroot : tree.kind = .root) :
    ∃ function : Node, function.kind = .function ∧ function.name = some d.name.text ∧
      function.scope = none ∧
      let read := scan d.text tree
      let Changes (n n' : Node) : Prop :=
        if d.isHidden tree then n' = n else GainsFunction function d.name.text n n'
      match recordOf? tree d.qualifier.text with
      | some c => ∃ i c', tree.children[i]? = some c ∧ Changes c c' ∧
          read = tree.withChildren (tree.children.set i c')
      | none => Changes tree read ∧
          ((∀ c ∈ tree.children, c ∈ read.children) ↔
            ∀ old, tree.find? .function (some d.name.text) = some old → old ∈ read.children) := by
  obtain ⟨function, hkind, hname, hscope, hprivate, hscan⟩ := d.scan_eq hroot
  have hhidden : d.isHidden tree = (function.isPrivate || !isRecordable d.name.text) := by
    rw [isHidden, hprivate]
  have hchanges (n : Node) : if d.isHidden tree then record n function = n
      else GainsFunction function d.name.text n (record n function) := by
    rw [hhidden]
    split
    · rename_i h
      exact record_of_hidden hname h n
    · rename_i h
      exact gainsFunction_record hkind hname hscope (by simpa using h) n
  refine ⟨function, hkind, hname, hscope, ?_⟩
  dsimp only
  cases hrecord : recordOf? tree d.qualifier.text with
  | some c =>
    obtain ⟨i, hhome, hc⟩ := recordNamed?_eq_some hrecord
    refine ⟨i, record c function, hc, hchanges c, ?_⟩
    rw [hscan, hhome]
    exact congrArg tree.withChildren (modify_eq_set hc _)
  | none =>
    rw [hscan, recordNamed?_eq_none hrecord]
    have htree := hchanges tree
    refine ⟨htree, fun h old hold => h old (List.mem_of_find?_eq_some hold), fun h c hc => ?_⟩
    change c ∈ (record tree function).children
    split at htree
    · rw [htree]
      exact hc
    · exact htree.mem h hc

end MemberDefinition

/-- A member of a class that was declared in its body, next to a function of the same name. -/
theorem gainsFunction_scan_declared :
    let d : MemberDefinition :=
      { type := "/* runs */ int ", qualifier := ⟨"Foo", by decide⟩, name := ⟨"run", by decide⟩
        arguments := "int a /* in */, int (*cb)(int)", gap := "\n", body := " return cb(a); ", ending := "\n"
        type_valid := by decide +kernel, arguments_valid := by decide +kernel
        gap_valid := by decide, body_valid := by decide +kernel, ending_valid := by decide }
    let tree :=
      scan "class Foo \x7b public: int run(int); int n; \x7d;\nint run(void);\n" .empty
    tree.kind = .root ∧ ∃ function c i c', recordOf? tree d.qualifier.text = some c ∧
      tree.children[i]? = some c ∧ GainsFunction function d.name.text c c' ∧
      scan d.text tree = tree.withChildren (tree.children.set i c') := by
  intro d tree
  have hroot : tree.kind = .root := by decide +kernel
  have hshown : d.isHidden tree = false := by decide +kernel
  have hknown : (recordOf? tree d.qualifier.text).isSome = true := by decide +kernel
  have hread := d.gainsFunction_scan hroot
  rw [hshown] at hread
  generalize recordOf? tree d.qualifier.text = found at hread hknown ⊢
  cases found with
  | none => cases hknown
  | some c =>
    obtain ⟨function, -, -, -, i, c', hi, hgains, hscan⟩ := hread
    exact ⟨hroot, function, c, i, c', rfl, hi, hgains, hscan⟩

/-- Without a class or structure, the definition of a member takes the place of a function. -/
theorem gainsFunction_scan_unknown :
    let tree := scan "int run(void);\n" .empty
    tree.kind = .root ∧ recordOf? tree "Foo" = none ∧
      ¬ ∀ c ∈ tree.children, c ∈ (scan "void Foo::run(int a) \x7b\x7d" tree).children := by
  intro tree
  have hold : tree.children.any (fun c => !(c.childrenOf .result).isEmpty) = true := by
    decide +kernel
  have hnew : (scan "void Foo::run(int a) \x7b\x7d" tree).children.all
      (fun c => (c.childrenOf .result).isEmpty) = true := by
    decide +kernel
  refine ⟨by decide +kernel, by decide +kernel, fun h => ?_⟩
  obtain ⟨c, hc, hresult⟩ := List.any_eq_true.mp hold
  rw [List.all_eq_true.mp hnew c (h c hc)] at hresult
  cases hresult

end HeaderDocs.Scan
