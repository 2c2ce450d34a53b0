import HeaderDocs.Proofs.Scan.HostedSources
import HeaderDocs.Proofs.Scan.Lexemes

/-!
# Sources in blocks

A balanced source can stand in a block. Nothing in it closes the brace before it, so what it declares
is that of the source on its own, recorded elsewhere: a linkage block records in the scope around it,
and a new namespace in itself. Only static declarations are different, because they are left out
outside of all scopes.

* `State.run_opening_linkage`, `State.run_opening_nameSpace`: what is open when the source begins.
* `State.step_closing_brace`: what the brace after the source closes.
* `scan_block`: reading a source in a linkage block and in a namespace.
-/
namespace HeaderDocs.Scan

open HeaderDocs.Text HeaderDocs.Node

/-! ## Before the source -/

/-- A word before a space is collected, unless it is the access of the members that follow. -/
theorem OpenScope.word_space {s : OpenScope} {word : String} (hbraces : s.context.braces = 0)
    (hheader : s.context.header = none)
    (haccess : s.context.run = [] → isAccess (withoutColons word) = false) :
    s.word word ' ' = s.update (·.pushWord word) := by
  have hstart : s.context.startRun.startRun = s.context.startRun := by
    unfold Context.startRun
    split <;> simp_all
  have hkeeps : s.context.startRun.header = none := by
    unfold Context.startRun
    split <;> exact hheader
  have harguments : (s.update .startRun).context.inArguments = false := by
    simp only [OpenScope.update, Context.inArguments, hkeeps]
  have hmember : ¬(s.context.run.isEmpty && s.node.kind.isRecord &&
      isAccess (withoutColons word)) = true := by
    cases hrun : s.context.run with
    | nil => simp [haccess hrun]
    | cons f run => simp
  unfold OpenScope.word OpenScope.declarationWord
  dsimp only
  rw [if_pos (by simpa using hbraces), if_neg hmember, if_neg (by simp), harguments,
    if_neg (by simp), if_neg (by simp)]
  simp only [OpenScope.update, Context.pushWord, hstart]

namespace State

theorem run_word_space {s : OpenScope} {c : Context} (hjoinable : c.joinable = false)
    (hbraces : c.braces = 0) (hheader : c.header = none) {word : String} (hne : word.toList ≠ [])
    (hchars : ∀ d ∈ word.toList, isWordChar d = true)
    (haccess : c.run = [] → isAccess (withoutColons word) = false) (rest : List Char) :
    (reading s c).run (word.toList ++ ' ' :: rest) = (reading s (c.pushWord word)).run rest := by
  have hword := OpenScope.word_space (s := { s with context := c }) hbraces hheader haccess
  rw [run_wordChars hjoinable hne hchars (isWordPart_of_isSpace (by decide) _)]
  exact congrArg (fun scope => ({ scope } : State).run rest) hword

/-! ### Linkage blocks -/

theorem run_opening_linkage (tree : Node) :
    (start tree).run "extern \"C\" \x7b".toList =
      { scope := { OpenScope.begin tree .source with suspended := [.ofScope tree] } } := by
  change (reading (.begin tree .source) (.ofScope tree)).run
    ("extern".toList ++ ' ' :: "\"C\" \x7b".toList) = _
  rw [run_word_space rfl rfl rfl (by decide) (List.all_eq_true.mp (by decide)) fun _ => by decide]
  rfl

/-! ### Namespaces -/

/-- A namespace before anything is declared in it. -/
def newNameSpace (name : String) : Node := (Node.ofName .nameSpace name).setDescription ""

theorem commit_newNameSpace {name : String} (hname : isRecordable name = true) {s : OpenScope}
    (hs : s.node = .empty) :
    s.commit (newNameSpace name) =
      ((s.insertAt [0] (newNameSpace name)).noteRecorded [] .nameSpace name, some [0]) := by
  have hinsertion : s.node.insertion? (newNameSpace name) =
      some { replaced := none, position := 0, node := newNameSpace name } := by
    rw [hs]
    unfold Node.insertion?
    change (if isRecordable name then _ else _) = _
    rw [if_pos hname]
    rfl
  have hpublic : (newNameSpace name).isPrivate = false := rfl
  unfold OpenScope.commit OpenScope.commitTo
  simp only [hpublic, Node.get?, Option.bind_some, hinsertion]
  rfl

/-- A namespace that is opened in the empty documentation becomes its only child. -/
theorem openNameSpace_empty {name : String} (hname : isRecordable name = true) {s : State}
    (hs : s.scope.node = .empty) (hcomment : s.scope.context.comment = none) :
    ∃ outer : OpenScope, outer.node = Node.empty.withChildren [newNameSpace name] ∧
      s.openNameSpace name = { s with
        scope := .begin (newNameSpace name) (.nameSpace (some 0))
        enclosing := outer :: s.enclosing } := by
  have hnode : (Node.ofName .nameSpace name).describe "" = newNameSpace name := rfl
  have hnew : s.scope.node.children.findIdx? (isNamed .nameSpace (some name)) = none := by
    rw [hs]
    rfl
  let begun : OpenScope := s.scope.update fun c => { c.takeComment.dropRun with claim := none }
  refine ⟨((begun.insertAt [0] (newNameSpace name)).noteRecorded [] .nameSpace name), ?_, ?_⟩
  · change s.scope.node.insertAt _ _ = _
    rw [hs]
    rfl
  · rw [openNameSpace_eq]
    unfold beginNameSpace
    dsimp only
    rw [hcomment, Option.getD_none, hnode,
      show (s.scope.update _).node.children.findIdx? _ = none from hnew]
    dsimp only
    rw [commit_newNameSpace hname (by exact hs)]
    rfl

theorem openBrace_nameSpace {s : State} {name : String} (hheader : s.scope.context.header = none)
    (hrun : s.scope.context.run.texts = ["namespace", name]) : s.openBrace = s.openNameSpace name := by
  unfold State.openBrace splitAlias
  simp [hheader, hrun, recordKind?]

theorem run_opening_nameSpace {name : String} (hname : isRecordable name = true)
    (hchars : ∀ d ∈ name.toList, isWordChar d = true) :
    ∃ outer : OpenScope, outer.node = Node.empty.withChildren [newNameSpace name] ∧
      (start .empty).run ("namespace ".toList ++ (name.toList ++ " \x7b".toList)) =
        { scope := .begin (newNameSpace name) (.nameSpace (some 0)), enclosing := [outer] } := by
  have hne : name.toList ≠ [] := by
    intro he
    rw [isRecordable, he] at hname
    cases hname
  have htext : "namespace ".toList ++ (name.toList ++ " \x7b".toList) =
      "namespace".toList ++ ' ' :: (name.toList ++ [' ', '\x7b']) := rfl
  have hstep : ∀ s c, (reading s c).run ['\x7b'] =
      (reading s { c with joinable := false }).openBrace := fun _ _ => rfl
  obtain ⟨outer, hnode, hopen⟩ := openNameSpace_empty hname (s := reading (.begin .empty .source)
    { (Context.pushWord {} "namespace").pushWord name with joinable := false }) rfl rfl
  refine ⟨outer, hnode, ?_⟩
  rw [htext, show start .empty = reading (.begin .empty .source) {} from rfl,
    run_word_space rfl rfl rfl (by decide) (List.all_eq_true.mp (by decide)) fun _ => by decide,
    run_word_space rfl rfl rfl hne hchars fun hrun => absurd hrun (by decide),
    hstep, openBrace_nameSpace rfl rfl, hopen]
  rfl

/-! ## After the source -/

theorem next_newline_ne_slash (l : Layer) : l.next '\n' ≠ .slash := by
  intro h
  cases l with
  | comment star => cases star <;> cases h
  | directiveComment star => cases star <;> cases h
  | literal quote =>
    simp only [Layer.next] at h
    split at h
    · cases h
    · split at h <;> cases h
  | _ => cases h

/-- A source that ends with a line ends outside of words, comments, literals and directives. -/
theorem mode_run_of_newline (tree : Node) {text : List Char} (h : isBalanced text = true)
    (hnewline : text.getLast? = some '\n') : ((start tree).run text).mode = .plain := by
  obtain ⟨before, rfl⟩ := List.getLast?_eq_some_iff.mp hnewline
  obtain ⟨n, hn, hlayer, -⟩ := isBalanced_iff.mp h
  have hmode := ((reads_start tree).run hn).layer.1
  have hread := readAfter_run tree (before ++ ['\n'])
  rw [List.foldlM_append] at hn
  obtain ⟨m, -, hm⟩ := Option.bind_eq_some_iff.mp hn
  have hcode : n.layer = .code := hlayer.resolve_right fun hslash => by
    obtain ⟨n', hn', hm⟩ := Option.bind_eq_some_iff.mp hm
    obtain ⟨awaited, -, rfl⟩ := Option.map_eq_some_iff.mp hn'
    cases hm
    exact next_newline_ne_slash _ hslash
  rw [hcode] at hmode
  cases hs : ((start tree).run (before ++ ['\n'])).mode with
  | plain => rfl
  | word text =>
    rw [hs] at hread
    obtain ⟨rest, hrest, -, ⟨first, hfirst, -⟩, hparts⟩ := hread
    have hlast : text.reverse.getLast? = some '\n' := by
      have hne : text.reverse ≠ [] := List.ne_nil_of_mem (List.mem_of_mem_head? hfirst)
      rw [← List.getLast?_append_of_ne_nil rest hne,
        ← hrest, List.getLast?_concat]
    exact absurd (hparts _ (List.mem_of_mem_getLast? hlast)) (by decide)
  | _ =>
    rw [hs] at hmode
    cases hmode

theorem step_closing_brace {s : State} (hmode : s.mode = .plain)
    (hbraces : s.scope.context.braces = 0) :
    ∃ f : Context → Context, s.step '\x7d' = (s.update (·.update f)).pop := by
  refine ⟨fun c => { c with joinable := false }.afterBody, ?_⟩
  have hstep : s.step '\x7d' = (s.update (·.update ({ · with joinable := false }))).closeBrace := by
    unfold State.step
    rw [hmode]
    rfl
  rw [hstep, closeBrace_eq, if_neg (by simp [State.update, OpenScope.update, hbraces])]
  rfl

theorem ends_ne_of_not_hasWord {tree : Node} {before after : List Char} {c : Char}
    {word lexeme : String} (h : ¬ HasWord word.toList (before ++ c :: after))
    (hword : ∀ d ∈ word.toList.head?, isWordChar d = true)
    (hends : ((start tree).run before).Ends c lexeme) : lexeme ≠ word := by
  rintro rfl
  obtain ⟨-, hall⟩ | ⟨quote, hquote, hhead, -⟩ := hends.lexeme
  · exact h (hall after)
  · obtain rfl | rfl := hquote <;> exact absurd (hword _ hhead) (by decide)

/-- Reads a source that is recorded elsewhere, and the brace after it, which ends what was opened
before. -/
theorem run_block {host : Host} {below : Nat} {home : Origin} {beneath : List OpenScope} {s : State}
    {tree : Node} {source : String} (h : s.Hosted host below home beneath (start tree))
    (hbalanced : isBalanced source.toList = true) (hnewline : source.toList.getLast? = some '\n')
    (hstatic : (tree = .empty ∧ ¬ HasWord "static".toList source.toList) ∨ host = none) :
    ∃ t : State, s.run (source.toList ++ ['\x7d']) = t.pop ∧
      t.scope.node = host.hold (scan source tree) ∧ t.scope.origin = home ∧
      t.scope.suspended.length = below ∧ t.enclosing = beneath := by
  obtain ⟨n, hn, -, -⟩ := isBalanced_iff.mp hbalanced
  have hclosed := closed_run tree hbalanced
  have hread := h.run source.toList (hstatic.imp_left ?_)
    (.inr ⟨{}, n, reads_start tree, hn⟩)
  · obtain ⟨houter, horigin, henclosing⟩ := hread.outermost hclosed.enclosing
    obtain ⟨others, hlength, hsuspended⟩ := houter.suspended
    obtain ⟨f, hstep⟩ := step_closing_brace
      (hread.mode.trans (mode_run_of_newline tree hbalanced hnewline))
      ((congrArg Context.braces houter.context).trans hclosed.braces)
    refine ⟨_, (run_append ..).trans hstep, houter.node.trans ?_, horigin, ?_, henclosing⟩
    · unfold scan scanWithEvents State.result
      rw [hclosed.enclosing]
      rfl
    · change (s.run source.toList).scope.suspended.length = below
      rw [hsuspended, hclosed.suspended, ← hlength]
      rfl
  · rintro ⟨rfl, hne⟩
    refine ⟨⟨_, sound_start rfl (kept_leaf .root {})⟩,
      written_start (everywhere_written_leaf rfl), fun before c after he word hends => ?_⟩
    refine ends_ne_of_not_hasWord (he ▸ hne) ?_ hends
    rintro _ ⟨⟩
    decide

end State

/-! ## Blocks -/

/-- A balanced source that ends with a line can be put into a linkage block, which changes nothing of
what is recorded in any tree. Without static declarations it can be put into a new namespace, which
then has the same children after its description, as the documentation would have otherwise. -/
theorem scan_block (source : String) (hbalanced : isBalanced source.toList = true)
    (hnewline : source.toList.getLast? = some '\n') :
    (∀ tree, scan ("extern \"C\" \x7b" ++ source ++ "\x7d") tree = scan source tree) ∧
      ∀ name : String, isRecordable name = true → (∀ c ∈ name.toList, isWordChar c = true) →
        ¬ HasWord "static".toList source.toList →
        scan ("namespace " ++ name ++ " \x7b" ++ source ++ "\x7d") .empty =
          Node.empty.withChildren [(Node.ofName .nameSpace name).withChildren
            (descriptionOf "" :: (scan source .empty).children)] := by
  constructor
  · intro tree
    have hstart : State.Hosted none 1 .source []
        { scope := { OpenScope.begin tree .source with suspended := [.ofScope tree] } }
        (State.start tree) := by
      refine ⟨rfl, none, 1, .source ⟨rfl, .inl rfl, (Context.mapIndex_id _).symm, ?_, ?_⟩ rfl⟩
      · exact ⟨[.ofScope tree], rfl, rfl⟩
      · exact Host.fits_none _
    obtain ⟨t, hrun, hnode, -, hsuspended, henclosing⟩ :=
      State.run_block hstart hbalanced hnewline (.inr rfl)
    obtain ⟨context, hcontext⟩ := List.length_eq_one_iff.mp hsuspended
    rw [String.append_assoc, scan_append, String.toList_append, State.run_opening_linkage]
    refine Eq.trans ?_ hnode
    rw [show "\x7d".toList = ['\x7d'] from rfl, hrun, State.pop, hcontext]
    dsimp only
    rw [State.result, henclosing]
    rfl
  · intro name hname hchars hstatic
    obtain ⟨outer, houter, hopening⟩ := State.run_opening_nameSpace hname hchars
    have hstart : State.Hosted (some (State.newNameSpace name)) 0 (.nameSpace (some 0)) [outer]
        { scope := .begin (State.newNameSpace name) (.nameSpace (some 0)), enclosing := [outer] }
        (State.start .empty) := by
      refine ⟨rfl, _, 0, .source ⟨rfl, .inr rfl, rfl, ⟨[], rfl, rfl⟩, ?_⟩ rfl⟩
      rintro node ⟨⟩
      exact ⟨fun c hc => List.mem_singleton.mp hc ▸ rfl, rfl, rfl⟩
    obtain ⟨t, hrun, hnode, horigin, hsuspended, henclosing⟩ :=
      State.run_block hstart hbalanced hnewline (.inl ⟨rfl, hstatic⟩)
    rw [String.append_assoc, scan_append, String.toList_append, String.toList_append,
      String.toList_append, List.append_assoc, hopening, show "\x7d".toList = ['\x7d'] from rfl, hrun,
      State.pop, List.length_eq_zero_iff.mp hsuspended, henclosing]
    dsimp only
    rw [State.result, State.unwind, State.putBack, horigin]
    change outer.node.modifyAt (fun _ => t.scope.node) [0] = _
    rw [houter, hnode]
    rfl

/-- A structure and a function, in a linkage block and in a namespace. -/
theorem scan_block_struct :
    isBalanced "struct s \x7b int x; \x7d;\nint f(void);\n".toList = true ∧
      ¬ HasWord "static".toList "struct s \x7b int x; \x7d;\nint f(void);\n".toList ∧
      scan ("extern \"C\" \x7b" ++ "struct s \x7b int x; \x7d;\nint f(void);\n" ++ "\x7d") .empty =
        scan "struct s \x7b int x; \x7d;\nint f(void);\n" .empty ∧
      scan ("namespace " ++ "n" ++ " \x7b" ++ "struct s \x7b int x; \x7d;\nint f(void);\n" ++ "\x7d")
          .empty =
        Node.empty.withChildren [(Node.ofName .nameSpace "n").withChildren
          (descriptionOf "" :: (scan "struct s \x7b int x; \x7d;\nint f(void);\n" .empty).children)] := by
  have hbalanced : isBalanced "struct s \x7b int x; \x7d;\nint f(void);\n".toList = true := by
    decide +kernel
  have hstatic : ¬ HasWord "static".toList "struct s \x7b int x; \x7d;\nint f(void);\n".toList := by
    rintro ⟨before, after, htext, -⟩
    have hinfix : ¬ "static".toList <:+: "struct s \x7b int x; \x7d;\nint f(void);\n".toList := by
      decide +kernel
    exact hinfix ⟨before, after, htext.symm⟩
  obtain ⟨hlinkage, hnameSpace⟩ := scan_block _ hbalanced (by decide +kernel)
  exact ⟨hbalanced, hstatic, hlinkage .empty,
    hnameSpace "n" (by decide) (List.all_eq_true.mp (by decide)) hstatic⟩

end HeaderDocs.Scan
