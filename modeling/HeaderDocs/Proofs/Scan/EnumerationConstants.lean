import HeaderDocs.Proofs.Scan.Checked.Scopes
import HeaderDocs.Proofs.Scan.EnumerationTypes
import HeaderDocs.Proofs.Scan.Enumerators

/-!
# Constants of enumerations

The words that an `EnumeratorReader` declares are the constants that are recorded, in ascending
order of name. Names of enumerators with a leading underscore are not recorded.

* `run_enumerators`: reading the body of an enumeration records what the reader declares.
* `constantNames_scan_enumeration`: the constants of an enumeration that has been read.
-/
namespace HeaderDocs

namespace Scan

open HeaderDocs.Text

/-! ## Recording constants -/

/-- A constant of the name, without a description. -/
def constantNode (name : String) : Node := .ofName .constant name

/-- A tree with a constant recorded in the child at `e`. -/
def recordConstant (e : Nat) (tree : Node) (name : String) : Node :=
  tree.modifyAt (record · (constantNode name)) [e]

/-- The context in the body of an enumeration that is the child at `e`. -/
def enumeratorContext (e : Nat) (claim : Option (List Claim)) (r : EnumeratorReader) : Context :=
  { braces := 1, parens := r.parens, claim, enumeration := some (.inScope e), inValue := r.inValue }

theorem declareConstant_commitTo {s u : OpenScope} (word : String) {e : Nat} {path : Option Path}
    (he : s.context.enumeration = some (.inScope e))
    (h : (s.update .takeComment).commitTo [e] ((constantNode word).describeIf s.context.comment) =
      (u, path)) :
    s.declareConstant word =
      path.elim u fun path => u.update ({ · with claim := some [.constant (path.getLastD 0)] }) := by
  unfold OpenScope.declareConstant
  extract_lets node taken
  have htaken : taken.commitTo [e] node = (u, path) := h
  rw [show taken.context.enumeration = some (.inScope e) from he]
  dsimp only
  rw [htaken]
  cases path <;> rfl

theorem declareConstant_commitAside {s u : OpenScope} (word : String) {old new : Node}
    {i? : Option Nat} (he : s.context.enumeration = some (.aside old))
    (h : (s.update .takeComment).commitAside old
      ((constantNode word).describeIf s.context.comment) = (u, i?, new)) :
    s.declareConstant word =
      i?.elim u fun i =>
        u.update ({ · with enumeration := some (.aside new), claim := some [.constant i] }) := by
  unfold OpenScope.declareConstant
  extract_lets node taken
  have htaken : taken.commitAside old node = (u, i?, new) := h
  rw [show taken.context.enumeration = some (.aside old) from he]
  dsimp only
  rw [htaken]
  cases i? <;> rfl

theorem declareConstant_inScope (s : OpenScope) (e : Nat) (claim : Option (List Claim))
    (r : EnumeratorReader) (word : String) :
    ∃ s' : OpenScope, s'.node = recordConstant e s.node word ∧ ∃ claim',
      ({ s with context := enumeratorContext e claim r } : OpenScope).declareConstant word =
        { s' with context := enumeratorContext e claim' r } := by
  let t : OpenScope := { s with context := enumeratorContext e claim r }
  -- recording below the enumeration moves nothing but claims
  obtain ⟨claim', hcontext⟩ : ∃ claim',
      (t.commitTo [e] (constantNode word)).1.context = enumeratorContext e claim' r := by
    refine OpenScope.commitTo_context (s := t)
      (P := fun c => ∃ claim', c = enumeratorContext e claim' r) ⟨claim, rfl⟩ ?_ ?_ _
    · rintro i _ ⟨claim', rfl⟩
      refine ⟨claim'.map (·.map (Claim.afterInsert [e, i])), ?_⟩
      simp [Context.afterInsert, enumeratorContext, Place.afterInsert_below e]
    · rintro i removed _ ⟨claim', rfl⟩
      refine ⟨claim'.map (·.filterMap (Claim.afterRemove? [e, i])), ?_⟩
      simp [Context.afterRemove, enumeratorContext, Place.afterRemove_below e]
  have hnode := node_commitTo t [e] (constantNode word)
  obtain ⟨⟨u, path⟩, hcommit⟩ : ∃ result, t.commitTo [e] (constantNode word) = result := ⟨_, rfl⟩
  rw [hcommit] at hcontext hnode
  refine ⟨u, hnode, (path.map fun path => [Claim.constant (path.getLastD 0)]).or claim', ?_⟩
  refine (declareConstant_commitTo (s := t) word rfl hcommit).trans ?_
  dsimp only at hcontext
  cases path with
  | none => exact congrArg (fun context => { u with context }) hcontext
  | some path =>
    rw [Option.elim_some, OpenScope.update, hcontext]
    rfl

/-! ## Reading the body -/

theorem EnumeratorReader.word_begin {r : EnumeratorReader} {c : Char}
    (hc : State.isWordStart c = false) : (r.begin c).word = [] := by
  simp [begin, hc]

/-- Whether a text is code without comments, literals, directives, braces and semicolons; `slash`
says that a slash is before it. -/
def isBareCode (slash : Bool) : List Char → Bool
  | [] => true
  | c :: cs =>
    !(['\x7b', '\x7d', ';', '#', '"', '\''].contains c) && !(slash && (c == '*' || c == '/')) &&
      isBareCode (c == '/') cs

def EnumeratorReader.mode (slash : Bool) (r : EnumeratorReader) : Mode :=
  if r.word.isEmpty then if slash then .slash else .plain else .word r.word

def State.enumerating (s : OpenScope) (e : Nat) (claim : Option (List Claim)) (slash : Bool)
    (r : EnumeratorReader) : State :=
  (State.reading s (enumeratorContext e claim r)).enter (r.mode slash)

variable {s : OpenScope} {e : Nat} {claim : Option (List Claim)} {r : EnumeratorReader}

/-- Without a word, the mode is the one before the next character. -/
theorem enumerating_of_noWord (hr : r.word = []) :
    State.enumerating s e claim false r = State.reading s (enumeratorContext e claim r) := by
  simp [State.enumerating, EnumeratorReader.mode, hr, State.enter, State.reading]

theorem closeParen_enumeratorContext :
    (enumeratorContext e claim r).closeParen = enumeratorContext e claim (r.begin ')') := by
  have hopen : (enumeratorContext e claim r).inArguments = false := rfl
  unfold Context.closeParen
  rw [hopen]
  simp only [Bool.false_eq_true, if_false]
  split <;> rfl

theorem mark_enumerating {c : Char}
    (hc : ['\x7b', '\x7d', ';', '#', '"', '\''].contains c = false) :
    (State.reading s (enumeratorContext e claim r)).mark c =
      .enumerating s e claim false (r.begin c) := by
  unfold State.mark
  split
  · cases hc
  · cases hc
  · cases hc
  · cases hc
  · cases hc
  · rfl
  · rw [enumerating_of_noWord (EnumeratorReader.word_begin (by decide)),
      ← closeParen_enumeratorContext]
    rfl
  · cases hc
  · rfl
  · rfl
  · rfl
  · rfl
  · rfl
  · rfl
  · rfl
  · rename_i hopen hclose _ hcomma hequals _ _ _ _ _
    have hbegin : r.begin c = { r with word := if State.isWordStart c then [c] else [] } := by
      simp [EnumeratorReader.begin, show c ≠ '(' from hopen, show c ≠ ')' from hclose,
        show c ≠ ',' from hcomma, show c ≠ '=' from hequals]
    rw [hbegin]
    split
    · rfl
    · rfl

theorem plain_enumerating {c : Char}
    (hc : ['\x7b', '\x7d', ';', '#', '"', '\''].contains c = false) :
    ∃ claim', (State.reading s (enumeratorContext e claim r)).plain c =
      .enumerating s e claim' (c == '/') (r.begin c) := by
  have hspace : isSpace c = true → r.begin c = { r with word := [] } := fun h =>
    EnumeratorReader.begin_space (r := { r with word := [] }) rfl h
  unfold State.plain
  split
  · rename_i hnewline
    obtain rfl : c = '\n' := by simpa using hnewline
    exact ⟨none, rfl⟩
  · split
    · rename_i hs
      refine ⟨claim, ?_⟩
      have hslash : (c == '/') = false := by
        refine beq_eq_false_iff_ne.mpr ?_
        rintro rfl
        cases hs
      rw [hspace hs, hslash]
      rfl
    · refine ⟨claim, ?_⟩
      split
      · rename_i hslash
        obtain rfl : c = '/' := by simpa using hslash
        rfl
      · rename_i hslash
        rw [Bool.not_eq_true] at hslash
        rw [hslash]
        exact mark_enumerating hc

/-- The word that a character ends is declared or passed over. -/
theorem word_enumerating (hr : r.word ≠ []) {c : Char} (hc : r.continues c = false) :
    ∃ s' : OpenScope, s'.node = (r.ended? c).toList.foldl (recordConstant e) s.node ∧ ∃ claim',
      ({ s with context := enumeratorContext e claim r } : OpenScope).word
        (String.ofList r.word.reverse) c = { s' with context := enumeratorContext e claim' r } := by
  let t : OpenScope := { s with context := enumeratorContext e claim r }
  have hword : t.word (String.ofList r.word.reverse) c =
      if !r.inValue && !(String.ofList r.word.reverse).toList.head?.any isDigit then
        t.declareConstant (String.ofList r.word.reverse)
      else t := rfl
  have hended : r.ended? c =
      if r.inValue || r.word.getLast?.any isDigit then none
      else some (String.ofList r.word.reverse) := by
    simp [EnumeratorReader.ended?, hc, hr]
  rw [String.toList_ofList, List.head?_reverse, ← Bool.not_or] at hword
  rw [hword, hended]
  cases r.inValue || r.word.getLast?.any isDigit with
  | true => exact ⟨s, rfl, claim, rfl⟩
  | false =>
    obtain ⟨s', hnode, claim', hdeclare⟩ :=
      declareConstant_inScope s e claim r (String.ofList r.word.reverse)
    exact ⟨s', hnode, claim', hdeclare⟩

theorem step_ends {slash : Bool} (hslash : slash = true → r.word = []) {c : Char}
    (hc : r.continues c = false) (hcomment : (slash && (c == '*' || c == '/')) = false) :
    ∃ s' : OpenScope, s'.node = (r.ended? c).toList.foldl (recordConstant e) s.node ∧ ∃ claim',
      (State.enumerating s e claim slash r).step c =
        (State.reading s' (enumeratorContext e claim' r)).plain c := by
  by_cases hr : r.word = []
  · rw [EnumeratorReader.ended?_of_noWord hr]
    refine ⟨s, rfl, claim, ?_⟩
    cases slash with
    | false =>
      rw [enumerating_of_noWord hr]
      rfl
    | true =>
      have hmode : r.mode true = .slash := by simp [EnumeratorReader.mode, hr]
      simp only [Bool.true_and, Bool.or_eq_false_iff] at hcomment
      rw [State.enumerating, hmode]
      exact (if_neg (by simp [hcomment.1])).trans (if_neg (by simp [hcomment.2]))
  · have hmode : r.mode slash = .word r.word := by simp [EnumeratorReader.mode, hr]
    have hpart : State.isWordPart r.parens c = false := by
      simpa [EnumeratorReader.continues, hr] using hc
    obtain ⟨s', hnode, claim', hword⟩ := @word_enumerating s e claim r hr c hc
    refine ⟨s', hnode, claim', ?_⟩
    have hread : (State.reading s (enumeratorContext e claim r)).update
        (·.word (String.ofList r.word.reverse) c) =
          State.reading s' (enumeratorContext e claim' r) :=
      congrArg (fun scope => ({ scope } : State)) hword
    rw [← hread, State.enumerating, hmode]
    exact if_neg (by rw [Bool.not_eq_true]; exact hpart)

theorem step_enumerating {slash : Bool} (hslash : slash = true → r.word = []) {c : Char}
    (hc : ['\x7b', '\x7d', ';', '#', '"', '\''].contains c = false)
    (hcomment : (slash && (c == '*' || c == '/')) = false) :
    ∃ s' : OpenScope, s'.node = (r.ended? c).toList.foldl (recordConstant e) s.node ∧ ∃ claim',
      (State.enumerating s e claim slash r).step c =
        State.enumerating s' e claim' (c == '/') (r.next c) := by
  cases hcontinues : r.continues c with
  | true =>
    have hended : r.ended? c = none := by simp [EnumeratorReader.ended?, hcontinues]
    have hnext : r.next c = { r with word := c :: r.word } := if_pos hcontinues
    simp only [EnumeratorReader.continues, Bool.and_eq_true, Bool.not_eq_true',
      List.isEmpty_eq_false_iff] at hcontinues
    have hmode : r.mode slash = .word r.word := by simp [EnumeratorReader.mode, hcontinues.1]
    refine ⟨s, by rw [hended]; rfl, claim, ?_⟩
    rw [hnext, State.enumerating, hmode]
    exact if_pos hcontinues.2
  | false =>
    obtain ⟨s', hnode, claim', hstep⟩ :=
      @step_ends s e claim r slash hslash c hcontinues hcomment
    obtain ⟨claim'', hplain⟩ := @plain_enumerating s' e claim' r c hc
    refine ⟨s', hnode, claim'', ?_⟩
    rw [hstep, hplain, EnumeratorReader.next_of_not_continues hcontinues]

theorem EnumeratorReader.word_next_slash : (r.next '/').word = [] := by
  have hnot : r.continues '/' = false := not_continues (by simp [State.isWordPart]; decide)
  rw [next_of_not_continues hnot, word_begin (by decide)]

theorem run_enumerating {slash : Bool} (hslash : slash = true → r.word = []) {cs : List Char}
    (hcs : isBareCode slash cs = true) :
    ∃ s' : OpenScope, s'.node = (r.declared cs).foldl (recordConstant e) s.node ∧
      ∃ claim' slash', (slash' = true → (cs.foldl EnumeratorReader.next r).word = []) ∧
        (State.enumerating s e claim slash r).run cs =
          State.enumerating s' e claim' slash' (cs.foldl EnumeratorReader.next r) := by
  induction cs generalizing s claim slash r with
  | nil => exact ⟨s, rfl, claim, slash, hslash, rfl⟩
  | cons c cs ih =>
    simp only [isBareCode, Bool.and_eq_true, Bool.not_eq_true'] at hcs
    obtain ⟨⟨hc, hcomment⟩, hrest⟩ := hcs
    obtain ⟨s', hnode, claim', hstep⟩ :=
      @step_enumerating s e claim r slash hslash c hc hcomment
    have hnext : (c == '/') = true → (r.next c).word = [] := by
      rintro hc
      obtain rfl : c = '/' := by simpa using hc
      exact EnumeratorReader.word_next_slash
    obtain ⟨s'', hnode', claim'', slash', hslash', hrun⟩ :=
      @ih s' claim' (r.next c) (c == '/') hnext hrest
    refine ⟨s'', ?_, claim'', slash', hslash', ?_⟩
    · rw [hnode', hnode, EnumeratorReader.declared, List.foldl_append]
    · change ((State.enumerating s e claim slash r).step c).run cs = _
      rw [hstep, hrun]
      rfl

theorem run_enumerators {cs : List Char} (hcs : isBareCode false cs = true) :
    ∃ s' : OpenScope, s'.node =
        (EnumeratorReader.declared {} (cs ++ ['\x7d'])).foldl (recordConstant e) s.node ∧
      ∃ parens, (State.reading s (enumeratorContext e claim {})).run (cs ++ ['\x7d']) =
        State.reading s' { parens } := by
  obtain ⟨s', hnode, claim', slash, hslash, hrun⟩ :=
    @run_enumerating s e claim {} false (fun _ => rfl) _ hcs
  let last := cs.foldl EnumeratorReader.next {}
  have hends : last.continues '\x7d' = false :=
    EnumeratorReader.not_continues (by simp [State.isWordPart]; decide)
  obtain ⟨s'', hnode', claim'', hstep⟩ := @step_ends s' e claim' last slash hslash _
    hends (by simp)
  refine ⟨s'', ?_, last.parens, ?_⟩
  · rw [hnode', hnode, EnumeratorReader.declared_append, List.foldl_append,
      EnumeratorReader.declared, EnumeratorReader.declared, List.append_nil]
  · rw [State.run_append, ← enumerating_of_noWord rfl, hrun]
    exact hstep

/-! ## The enumeration -/

theorem OpenScope.commitNamed_of_recordable (s : OpenScope) {node : Node} {name : String}
    (hname : node.name = some name) (hrecordable : Node.isRecordable name = true) :
    s.commitNamed node = s.commit node := by
  unfold OpenScope.commitNamed
  rw [if_neg]
  rw [hname]
  simp only [Option.getD_some, beq_iff_eq]
  rintro rfl
  cases hrecordable

/-- A public node with a name that may be recorded is recorded as a child of the scope. -/
theorem exists_commit (s : OpenScope) {node : Node} (hpublic : node.isPrivate = false)
    {name : String} (hname : node.name = some name) (hrecordable : Node.isRecordable name = true) :
    ∃ i m, (s.commit node).2 = some [i] ∧ (s.commit node).1.node.children[i]? = some m ∧
      m.key = node.key ∧ m.children = node.children := by
  obtain ⟨ins, hins, hrecord⟩ := exists_record_eq s.node hpublic hname hrecordable
  have hpath : (s.commit node).2 = some [ins.position] := by
    unfold OpenScope.commit OpenScope.commitTo
    rw [if_neg (by simp [hpublic])]
    rw [show (s.node.get? []).bind (·.insertion? node) = some ins from hins]
    rfl
  obtain ⟨hkey, hchildren⟩ := Node.Insertion.node_eq hins
  refine ⟨ins.position, ins.node, hpath, ?_, hkey, hchildren⟩
  rw [node_commit, hrecord]
  exact Node.getElem?_apply hins

/-- An enumeration before its body, without a comment. -/
def enumerationNode (name : String) : Node :=
  Node.describe { kind := .enumType, attrs := { name := some name } } ""

theorem kind_enumerationNode (name : String) : (enumerationNode name).kind = .enumType :=
  Node.kind_describe _ _

theorem isPrivate_enumerationNode (name : String) : (enumerationNode name).isPrivate = false := by
  change Comment.isPrivate (Node.descriptionOf (Comment.normalize "").text).text = false
  rw [Node.text_descriptionOf, Comment.normalize_empty]
  decide

/-- An enumeration without a name for its type. -/
def enumerationText (name : Name) (body : String) : String :=
  enumerationType (some name) ++ " \x7b" ++ body ++ "\x7d;"

theorem isName_enum : isName "enum".toList = true := by
  decide

def enumKeyword : Name := ⟨"enum", isName_enum⟩

/-- Words that begin with the keyword, and the brace behind them, open an enumeration. -/
theorem run_enumerationHead {tree : Node} (hroot : tree.kind = .root) (name : Name)
    (more : List Name) :
    (State.start tree).run (spacedOut (enumKeyword :: name :: more) ++ ['\x7b']) =
      (State.reading (.begin tree .source)
        { run := wordsRun false (enumKeyword :: name :: more) }).openBlock
          (State.openEnumeration false (wordsRun false (enumKeyword :: name :: more))) := by
  let words := enumKeyword :: name :: more
  have hstart : State.start tree = State.reading (.begin tree .source) {} := by
    simp [State.start, State.reading, OpenScope.begin, Context.ofScope, hroot]
  have hread : (State.start tree).run (spacedOut words ++ ['\x7b']) =
      (State.reading (.begin tree .source) { run := wordsRun false words }).run ['\x7b'] := by
    rw [hstart]
    exact @run_spacedOut (.begin tree .source) 0 [] none hroot false (fun _ => rfl) words ['\x7b']
  rw [hread]
  change (State.reading (.begin tree .source) { run := wordsRun false words }).openBrace = _
  unfold State.openBrace
  simp [State.reading, words, wordsRun, State.splitAlias, Run.texts, State.recordKind?, enumKeyword]

theorem run_enumerationOpening {tree : Node} (hroot : tree.kind = .root) (name : Name)
    (hname : name.text.toList.head? ≠ some '_') :
    ∃ (s : OpenScope) (e : Nat) (m : Node), s.node = record tree (enumerationNode name.text) ∧
      s.node.children[e]? = some m ∧ m.key = (enumerationNode name.text).key ∧
      m.children = (enumerationNode name.text).children ∧
      (State.start tree).run (enumerationType (some name) ++ " \x7b").toList =
        State.reading s (enumeratorContext e none {}) := by
  let begun := OpenScope.begin tree .source
  let node := enumerationNode name.text
  let words := wordsRun false [enumKeyword, name]
  have htext : (enumerationType (some name) ++ " \x7b").toList =
      spacedOut [enumKeyword, name] ++ ['\x7b'] := by
    simp [enumKeyword, spacedOut, enumerationType]
  -- the enumeration has a name, so it is recorded at once
  have hnamed : ({ begun with context := {} } : OpenScope).commitNamed node =
      ({ begun with context := {} } : OpenScope).commit node :=
    OpenScope.commitNamed_of_recordable _ rfl (name.isRecordable_iff.mpr hname)
  obtain ⟨claim, hcontext⟩ := @context_commit begun {} rfl rfl rfl node
  obtain ⟨e, m, hpath, hchild, hkey, hchildren⟩ :=
    exists_commit { begun with context := {} } (isPrivate_enumerationNode name.text) rfl
      (name.isRecordable_iff.mpr hname)
  refine ⟨(({ begun with context := {} } : OpenScope).commit node).1, e, m, node_commit _, hchild,
    hkey, hchildren, ?_⟩
  have hopened : ((State.openEnumeration false words
        { begun with context := { run := words } }).update fun c =>
          { c with braces := c.braces + 1, claim := none }) =
      { (({ begun with context := {} } : OpenScope).commit node).1 with
        context := enumeratorContext e none {} } := by
    have hplace : State.openEnumeration false words { begun with context := { run := words } } =
          (({ begun with context := {} } : OpenScope).commitNamed node).1.update ({ · with
            enumeration := some (OpenScope.placeOf node
              (({ begun with context := {} } : OpenScope).commitNamed node).2),
            inValue := false }) := rfl
    rw [hplace, hnamed, hpath, OpenScope.update, OpenScope.update, hcontext]
    rfl
  rw [htext, run_enumerationHead hroot]
  exact congrArg (fun scope => ({ scope } : State)) hopened

/-! ## Its constants -/

def constantNames (n : Node) : List String := (n.childrenOf .constant).filterMap (·.name)

theorem mem_constantNames {n : Node} {name : String} :
    name ∈ constantNames n ↔ ∃ c ∈ n.children, c.label? = some (.constant, name) := by
  simp only [constantNames, Node.childrenOf, List.mem_filterMap, List.mem_filter, Node.isKind,
    beq_iff_eq, Node.label?, Option.map_eq_some_iff, Prod.mk.injEq]
  constructor
  · rintro ⟨c, ⟨hc, hkind⟩, hname⟩
    exact ⟨c, hc, name, hname, hkind, rfl⟩
  · rintro ⟨c, hc, other, hname, hkind, rfl⟩
    exact ⟨c, ⟨hc, hkind⟩, hname⟩

/-- The constants of an enumeration are in ascending order, and none is there twice. -/
theorem pairwise_constantNames {n : Node} (h : Node.Arranged n.children) :
    (constantNames n).Pairwise (· < ·) := by
  have hsorted : (constantNames n).Pairwise (· ≤ ·) :=
    h.sorted.sublist (List.filter_sublist.filterMap _)
  have hlabels : (n.childrenOf .constant).filterMap Node.label? =
      (constantNames n).map (Kind.constant, ·) := by
    rw [constantNames, List.map_filterMap]
    refine List.filterMap_congr fun c hc => ?_
    have hkind : c.kind = .constant := by simpa [Node.isKind] using (List.mem_filter.mp hc).2
    rw [Node.label?, hkind]
  have hunique : ((constantNames n).map (Kind.constant, ·)).Nodup := by
    rw [← hlabels]
    exact h.unique.sublist (List.filter_sublist.filterMap _)
  have hnodup : (constantNames n).Pairwise (· ≠ ·) :=
    (List.pairwise_map.mp hunique).imp fun hne he => hne (congrArg (Kind.constant, ·) he)
  exact (hsorted.and hnodup).imp fun h => Std.lt_of_le_of_ne h.1 h.2

/-- A child is found by its kind and name. -/
theorem find?_eq_of_label? {n c : Node} (h : Node.Arranged n.children) (hc : c ∈ n.children)
    {k : Kind} {name : String} (hlabel : c.label? = some (k, name)) :
    n.find? k (some name) = some c := by
  obtain ⟨before, after, hsplit⟩ := List.append_of_mem hc
  have hunique := h.unique
  rw [hsplit, List.filterMap_append, List.filterMap_cons_some hlabel] at hunique
  have hbefore : before.find? (Node.isNamed k (some name)) = none := by
    refine List.find?_eq_none.mpr fun d hd hnamed => ?_
    have hmem : (k, name) ∈ before.filterMap Node.label? :=
      List.mem_filterMap.mpr ⟨d, hd, Node.isNamed_iff_label?.mp hnamed⟩
    exact (List.nodup_append.mp hunique).2.2 _ hmem _ (List.mem_cons_self ..) rfl
  rw [Node.find?, hsplit, List.find?_append, hbefore,
    List.find?_cons_of_pos (Node.isNamed_iff_label?.mpr hlabel)]
  rfl

theorem kept_record {scope node : Node} (h : scope.Kept) (hs : scope.kind.isScope = true)
    (hn : node.Kept) (hk : node.kind ≠ .description) : (record scope node).Kept := by
  unfold record Node.insert?
  split
  · exact h
  · cases hins : scope.insertion? node with
    | none => exact h
    | some ins => exact h.insert hn hs hk hins

theorem key_record (scope node : Node) : (record scope node).key = scope.key := by
  unfold record Node.insert?
  split
  · rfl
  · cases scope.insertion? node <;> rfl

theorem mem_constantNames_record {scope : Node} (h : scope.Kept) (hs : scope.kind.isScope = true)
    {name word : String} :
    word ∈ constantNames (record scope (constantNode name)) ↔
      word = name ∧ Node.isRecordable name = true ∨ word ∈ constantNames scope := by
  have hpublic : (constantNode name).isPrivate = false := rfl
  have hlabel : (constantNode name).label? = some (.constant, name) := rfl
  have hnone := Node.insert?_eq_none_iff scope (constantNode name)
  cases hins : scope.insertion? (constantNode name) with
  | none =>
    have hrecord : record scope (constantNode name) = scope := by
      simp [record, Node.insert?, hins]
    have hnot : Node.isRecordable name = false :=
      hnone.mp (by simp [Node.insert?, hins]) name rfl
    simp [hrecord, hnot]
  | some ins =>
    have hrecord := record_of_insertion? hpublic hins
    have hrecordable : Node.isRecordable name = true := by
      obtain ⟨other, hother, hrecordable, -⟩ := Node.insertion?_cases hins
      cases hother
      exact hrecordable
    have hlabel' : ins.node.label? = some (.constant, name) := by
      have hkey := (Node.Insertion.node_eq hins).1
      rw [Node.label?, Node.kind_eq_of_key hkey, Node.name_eq_of_key hkey]
      rfl
    rw [hrecord, mem_constantNames, mem_constantNames]
    change (∃ c ∈ ins.apply scope.children, _) ↔ _
    simp only [Node.mem_apply_iff (h.self.arranged hs) hins, hlabel, hrecordable, and_true]
    constructor
    · rintro ⟨c, rfl | ⟨hc, -⟩, hword⟩
      · rw [hlabel'] at hword
        cases hword
        exact .inl rfl
      · exact .inr ⟨c, hc, hword⟩
    · rintro (rfl | ⟨c, hc, hword⟩)
      · exact ⟨ins.node, .inl rfl, hlabel'⟩
      · by_cases hsame : word = name
        · subst hsame
          exact ⟨ins.node, .inl rfl, hlabel'⟩
        · exact ⟨c, .inr ⟨hc, by simp [hword, hsame]⟩, hword⟩

theorem mem_constantNames_foldl {words : List String} {scope : Node} (h : scope.Kept)
    (hs : scope.kind.isScope = true) {word : String} :
    word ∈ constantNames (words.foldl (fun scope name => record scope (constantNode name)) scope) ↔
      word ∈ words ∧ Node.isRecordable word = true ∨ word ∈ constantNames scope := by
  induction words generalizing scope with
  | nil => simp
  | cons name words ih =>
    have hkept : (record scope (constantNode name)).Kept :=
      kept_record h hs (State.kept_leaf .constant _) (by decide : Kind.constant ≠ .description)
    rw [List.foldl_cons, ih hkept (by rw [kind_record]; exact hs), mem_constantNames_record h hs,
      List.mem_cons]
    grind

theorem key_foldl_record (words : List String) (scope : Node) :
    (words.foldl (fun scope name => record scope (constantNode name)) scope).key = scope.key := by
  induction words generalizing scope with
  | nil => rfl
  | cons name words ih => rw [List.foldl_cons, ih, key_record]

/-- Words are recorded one after another in the same child. -/
theorem foldl_recordConstant (e : Nat) (words : List String) (tree : Node) :
    words.foldl (recordConstant e) tree =
      tree.modifyAt (fun n => words.foldl (fun scope name => record scope (constantNode name)) n)
        [e] := by
  induction words generalizing tree with
  | nil => exact (Node.modifyAt_self tree [e]).symm
  | cons name words ih => rw [List.foldl_cons, ih, recordConstant, Node.modifyAt_modifyAt]; rfl

/-- An enumeration without a comment is recorded, and what its body declares is recorded in it. -/
theorem scan_enumerationText {tree : Node} (hroot : tree.kind = .root) (name : Name)
    (hname : name.text.toList.head? ≠ some '_') {body : String}
    (hbody : isBareCode false body.toList = true) :
    ∃ (e : Nat) (m : Node), (record tree (enumerationNode name.text)).children[e]? = some m ∧
      m.key = (enumerationNode name.text).key ∧
      m.children = (enumerationNode name.text).children ∧
      scan (enumerationText name body) tree =
        (EnumeratorReader.declared {} (body.toList ++ ['\x7d'])).foldl (recordConstant e)
          (record tree (enumerationNode name.text)) := by
  obtain ⟨s, e, m, hnode, hchild, hkey, hchildren, hopening⟩ :=
    run_enumerationOpening hroot name hname
  obtain ⟨s', hnode', parens, hrun⟩ := @run_enumerators s e none _ hbody
  refine ⟨e, m, hnode ▸ hchild, hkey, hchildren, ?_⟩
  have hsource : (enumerationText name body).toList =
      (enumerationType (some name) ++ " \x7b").toList ++ ((body.toList ++ ['\x7d']) ++ [';']) := by
    simp [enumerationText]
  rw [← hnode, ← hnode']
  unfold scan scanWithEvents
  rw [hsource, State.run_append, hopening, State.run_append, hrun]
  exact node_semicolon (s := { s' with context := { parens } }) rfl rfl

/-- What the tree holds under the name is a node without constants, after the words of the body have
been recorded in it. -/
theorem find?_scan_enumerationText {tree : Node} (hkept : tree.Kept) (hroot : tree.kind = .root)
    (name : Name) (hname : name.text.toList.head? ≠ some '_') {es : List Enumerator} {body : String}
    (htext : EnumeratorText es body.toList) (hbare : isBareCode false body.toList = true) :
    ∃ m n : Node, (m.Kept ∧ m.kind.isScope = true ∧ constantNames m = []) ∧
      n = (es.flatMap fun e => e.name.text :: e.leftover).foldl
        (fun scope name => record scope (constantNode name)) m ∧
      (scan (enumerationText name body) tree).find? .enumType (some name.text) = some n ∧
      Node.Arranged n.children := by
  obtain ⟨e, m, hchild, hkey, hchildren, hscan⟩ := scan_enumerationText hroot name hname hbare
  rw [EnumeratorReader.declared_enumerators htext, foldl_recordConstant] at hscan
  have hkind : ∀ n : Node, n.key = (enumerationNode name.text).key → n.kind = .enumType :=
    fun n hn => (Node.kind_eq_of_key hn).trans (kind_enumerationNode _)
  have hmkept : m.Kept := by
    have hrecord : (record tree (enumerationNode name.text)).Kept :=
      kept_record hkept (by rw [hroot]; rfl) ((State.kept_leaf .enumType _).describe "")
        (by rw [kind_enumerationNode]; decide)
    exact hrecord.child (List.mem_of_getElem? hchild)
  have hempty : constantNames m = [] := by
    rw [constantNames, Node.childrenOf, hchildren]
    rfl
  let words := es.flatMap fun e => e.name.text :: e.leftover
  let n := words.foldl (fun scope name => record scope (constantNode name)) m
  have hnkey : n.key = (enumerationNode name.text).key := (key_foldl_record words m).trans hkey
  have hlabel : n.label? = some (.enumType, name.text) := by
    rw [Node.label?, hkind n hnkey, Node.name_eq_of_key hnkey]
    rfl
  have hfound : n ∈ (scan (enumerationText name body) tree).children := by
    refine List.mem_of_getElem? (i := e) ?_
    rw [hscan, Node.modifyAt, List.getElem?_modify_eq, hchild]
    rfl
  obtain ⟨htree, htreeKind⟩ :=
    scan_kept (enumerationText name body) (by rw [hroot]; rfl) hkept
  refine ⟨m, n, ⟨hmkept, by rw [hkind m hkey]; rfl, hempty⟩, rfl, ?_, ?_⟩
  · exact find?_eq_of_label? (htree.self.arranged (by rw [htreeKind, hroot]; rfl)) hfound hlabel
  · exact (htree.child hfound).self.arranged (by rw [hkind n hnkey]; rfl)

/-- The constants of an enumeration are the names of its enumerators and what is left over of their
values, except for those with a leading underscore, in ascending order. Without commas in the values
these are the names alone. -/
theorem constantNames_scan_enumeration (sources : List String) (name : Name)
    (hname : name.text.toList.head? ≠ some '_') {es : List Enumerator} {body : String}
    (htext : EnumeratorText es body.toList) (hbare : isBareCode false body.toList = true) :
    ∃ n, (scan (enumerationText name body) (scanEach sources .empty)).find? .enumType
        (some name.text) = some n ∧
      (constantNames n).Pairwise (· < ·) ∧
      (∀ word, word ∈ constantNames n ↔
        Node.isRecordable word = true ∧ ∃ e ∈ es, word = e.name.text ∨ word ∈ e.leftover) ∧
      ((∀ e ∈ es, ∀ v ∈ e.value, ',' ∉ v.toList) → ∀ word, word ∈ constantNames n ↔
        word.toList.head? ≠ some '_' ∧ ∃ e ∈ es, word = e.name.text) := by
  obtain ⟨hkept, hroot⟩ := scanEach_kept sources rfl (State.kept_leaf .root {})
  obtain ⟨m, n, ⟨hmkept, hmscope, hempty⟩, rfl, hfound, harranged⟩ :=
    find?_scan_enumerationText hkept hroot name hname htext hbare
  have hmem : ∀ word, word ∈ constantNames ((es.flatMap fun e => e.name.text :: e.leftover).foldl
        (fun scope name => record scope (constantNode name)) m) ↔
      Node.isRecordable word = true ∧ ∃ e ∈ es, word = e.name.text ∨ word ∈ e.leftover := by
    intro word
    rw [mem_constantNames_foldl hmkept hmscope, hempty]
    simp [and_comm]
  refine ⟨_, hfound, pairwise_constantNames harranged, hmem, fun hcommas word => ?_⟩
  rw [hmem]
  constructor
  · rintro ⟨hrecordable, e, he, rfl | hleft⟩
    · exact ⟨e.name.isRecordable_iff.mp hrecordable, e, he, rfl⟩
    · rw [Enumerator.leftover_eq_nil (hcommas e he)] at hleft
      cases hleft
  · rintro ⟨hpublic, e, he, rfl⟩
    exact ⟨e.name.isRecordable_iff.mpr hpublic, e, he, .inl rfl⟩

/-- An enumeration with a call in a value, a private constant and a comma behind the last value. -/
theorem constantNames_scan_enumeration_call :
    let name : Name := ⟨"Flags", by decide +kernel⟩
    let one : Enumerator :=
      { name := ⟨"C", by decide +kernel⟩, value := some " f(2) + 1", valid := by decide +kernel }
    let hidden : Enumerator := { name := ⟨"_B", by decide +kernel⟩ }
    let other : Enumerator :=
      { name := ⟨"A", by decide +kernel⟩, value := some " (C * 2)", valid := by decide +kernel }
    let body := " C = f(2) + 1, _B, A = (C * 2), "
    EnumeratorText [one, hidden, other] body.toList ∧ isBareCode false body.toList = true ∧
      ∃ n, (scan (enumerationText name body) (scanEach [] .empty)).find? .enumType
        (some name.text) = some n ∧ ∀ word, word ∈ constantNames n ↔ word = "A" ∨ word = "C" := by
  intro name one hidden other body
  have hone : one.Spelled " C = f(2) + 1".toList :=
    ⟨[' '], [' '], by decide, by decide, by decide⟩
  have hhidden : hidden.Spelled " _B".toList := ⟨[' '], [], by decide, by decide, by decide⟩
  have hother : other.Spelled " A = (C * 2)".toList :=
    ⟨[' '], [' '], by decide, by decide, by decide⟩
  have hbody : body.toList = " C = f(2) + 1".toList ++ ',' :: (" _B".toList ++ ',' ::
      (" A = (C * 2)".toList ++ [',', ' '])) := by decide
  have htext : EnumeratorText [one, hidden, other] body.toList :=
    hbody ▸ .cons hone (.cons hhidden (.cons hother (.none (by decide : IsGap [' ']))))
  have hbare : isBareCode false body.toList = true := by decide +kernel
  obtain ⟨n, hfound, -, -, hnames⟩ :=
    constantNames_scan_enumeration [] name (by decide +kernel) htext hbare
  refine ⟨htext, hbare, n, hfound, fun word => ?_⟩
  rw [hnames (by decide +kernel)]
  constructor
  · rintro ⟨hpublic, e, he, rfl⟩
    simp only [List.mem_cons, List.not_mem_nil, or_false] at he
    obtain rfl | rfl | rfl := he
    · exact .inr rfl
    · exact absurd hpublic (by decide)
    · exact .inl rfl
  · rintro (rfl | rfl)
    · exact ⟨by decide, other, by simp, rfl⟩
    · exact ⟨by decide, one, by simp, rfl⟩

/-- A word behind the comma of a call is taken for a constant. -/
theorem constantNames_scan_enumeration_comma :
    let name : Name := ⟨"Flags", by decide +kernel⟩
    let call : Enumerator :=
      { name := ⟨"A", by decide +kernel⟩, value := some " f(x, y)", valid := by decide +kernel }
    let plain : Enumerator := { name := ⟨"B", by decide +kernel⟩ }
    let body := " A = f(x, y), B "
    let found := (scan (enumerationText name body) .empty).find? .enumType (some name.text)
    enumerationText name body = "enum Flags \x7b A = f(x, y), B \x7d;" ∧
      EnumeratorText [call, plain] body.toList ∧
      found.map constantNames = some ["A", "B", "y"] ∧
      ¬ ∃ n, found = some n ∧
        ∀ word ∈ constantNames n, ∃ e ∈ [call, plain], word = e.name.text := by
  intro name call plain body found
  have hcall : call.Spelled " A = f(x, y)".toList :=
    ⟨[' '], [' '], by decide, by decide, by decide⟩
  have hplain : plain.Spelled " B ".toList := ⟨[' '], [' '], by decide, by decide, by decide⟩
  have hnames : found.map constantNames = some ["A", "B", "y"] := by decide +kernel
  have hbody : body.toList = " A = f(x, y)".toList ++ ',' :: " B ".toList := by decide
  refine ⟨by decide +kernel, hbody ▸ .cons hcall (.last hplain), hnames, ?_⟩
  rintro ⟨n, hn, hall⟩
  rw [hn, Option.map_some, Option.some.injEq] at hnames
  obtain ⟨e, he, hy⟩ := hall "y" (by simp [hnames])
  simp only [List.mem_cons, List.not_mem_nil, or_false] at he
  obtain rfl | rfl := he
  · exact absurd hy (by decide)
  · exact absurd hy (by decide)

end Scan

end HeaderDocs
