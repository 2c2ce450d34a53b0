import HeaderDocs.Proofs.Scan.Skim

/-!
# Declarations that are left out

A declaration that starts with `static` or `extern` is left out at the end of its first declarator:
before the parenthesis of an argument list, a comma or a semicolon. The text after that is read as a
declaration of its own, and whether that leaves nothing in the tree depends on what it looks like.

* `scan_leftOut`: a declaration that leaves nothing. Its arguments do not hold an equals sign or
  another parenthesis, if a semicolon ends it; they do not start as the definition of a type does, if
  it has a body; and a list has at most one further variable, without a value.
* `scan_leftOut_structArgument`: a function that is left out leaves the structure that its first
  argument points to.
-/
namespace HeaderDocs.Scan

namespace Skim

/-! ## What leaves nothing -/

/-- Whether a semicolon makes nothing of what has been read: it starts with a word for which it is
left out, or it is neither a variable with a value, nor a pointer to a function, nor a type and a
name. -/
def endsIdly (k : Skim) : Bool :=
  k.isWhole && (k.isLeftOut ||
    (!k.valued && !k.opened && (k.word.isNone || k.words.isEmpty) &&
      k.endWord.words.head? != some "typedef"))

/-- The words after which a brace opens something that is recorded. -/
def openers : List String := ["typedef", "class", "struct", "union", "enum", "namespace", "extern"]

/-- Whether an opening brace makes nothing of what has been read. -/
def opensNothing (k : Skim) : Bool :=
  k.isWhole && k.endWord.words.head?.all (!openers.contains ·)

end Skim

/-- A declaration of which nothing is made after the given keyword. -/
inductive IsPassedOver (keyword : String) : String → Prop
  /-- A prototype or a list of variables. -/
  | statement {text : String} :
      (skim? (keyword ++ " " ++ text).toList).any (·.endsIdly) = true →
      IsPassedOver keyword (text ++ ";")
  /-- A function with its body. -/
  | definition {text body : String} :
      (skim? (keyword ++ " " ++ text).toList).any (·.opensNothing) = true →
      isBalanced body.toList = true → IsPassedOver keyword (text ++ "\x7b" ++ body ++ "\x7d")

namespace OpenScope

variable {tree : Node} {parens : Nat} {run : Run} {runComment comment : Option String}
  {joinable : Bool}

theorem node_semicolon_idle (htypedef : run.texts.head? ≠ some "typedef")
    (hvariable : declaresVariable tree.kind (.pending parens run runComment comment joinable) = false) :
    (idle tree (.pending parens run runComment comment joinable)).semicolon.node = tree := by
  have hheader : (idle tree (.pending parens run runComment comment joinable)).endHeader =
      idle tree (.pending parens run runComment comment joinable) := rfl
  have hrun : (idle tree (.pending parens run runComment comment joinable)).endRun =
      idle tree (.pending parens run runComment comment joinable) := by
    unfold endRun
    rw [if_neg (by simpa [idle, Context.pending] using htypedef), if_neg]
    simpa [idle, begin] using hvariable
  unfold semicolon
  rw [hheader, hrun]
  rfl

theorem declaresVariable_of_isLeftOut {kind : Kind} {c : Context}
    (h : c.run.texts.head?.any (isLeftOut kind) = true) : declaresVariable kind c = false := by
  unfold declaresVariable
  simp [h]

/-- Neither a value nor a pointer to a function. -/
theorem declaresVariable_of_notMem {kind : Kind} {c : Context} (he : "=" ∉ c.run.texts)
    (hp : "(" ∉ c.run.texts) : declaresVariable kind c = false := by
  have hvalue : (c.run.texts.drop 2).contains "=" = false := by
    rw [List.contains_eq_mem, decide_eq_false_iff_not]
    exact fun hm => he (List.mem_of_mem_drop hm)
  have hpointer : c.run.isFunctionPointer = false := by
    have hnone : c.run.texts.findIdx? (· == "(") = none := by
      rw [List.findIdx?_eq_none_iff]
      intro text ht
      rw [beq_eq_false_iff_ne]
      rintro rfl
      exact hp ht
    unfold Run.isFunctionPointer
    simp [hnone]
  unfold declaresVariable
  simp only [hvalue, hpointer, Bool.or_self, Bool.and_false, Bool.false_and]

end OpenScope

namespace Skim

variable {k : Skim} {tree : Node} {s : OpenScope}

theorem Fits.leftOut {run : Run} (h : k.Fits run) (hleft : k.isLeftOut = true) :
    run.texts.head?.any (Scan.isLeftOut .root) = true ∧ run.texts.head? ≠ some "typedef" := by
  rw [h.head]
  refine ⟨hleft, fun he => ?_⟩
  rw [isLeftOut, he] at hleft
  exact absurd hleft (by decide)

/-- A semicolon leaves the tree alone where nothing, or only what is left out, is being declared. -/
theorem Fits.node_semicolon {run : Run} (h : k.Fits run) (hroot : tree.kind = .root)
    (hends : k.isLeftOut = true ∨
      k.valued = false ∧ k.opened = false ∧ k.words.head? ≠ some "typedef")
    (parens : Nat) (runComment comment : Option String) (joinable : Bool) :
    (OpenScope.idle tree (.pending parens run runComment comment joinable)).semicolon.node = tree := by
  rcases hends with hleft | ⟨hvalued, hopened, htypedef⟩
  · obtain ⟨hany, htypedef⟩ := h.leftOut hleft
    exact OpenScope.node_semicolon_idle htypedef
      (OpenScope.declaresVariable_of_isLeftOut (by rw [hroot]; exact hany))
  · refine OpenScope.node_semicolon_idle (h.head ▸ htypedef)
      (OpenScope.declaresVariable_of_notMem (fun hm => ?_) fun hm => ?_)
    · rw [h.valued.mp hm] at hvalued
      cases hvalued
    · rw [h.opened hm] at hopened
      cases hopened

theorem isLeftOut_endWord (h : k.isLeftOut = true) : k.endWord.isLeftOut = true := by
  obtain ⟨first, hfirst, hout⟩ := (Option.any_eq_true _ _).mp h
  rw [isLeftOut, head?_words_endWord hfirst]
  exact hout

theorem endsIdly_iff : k.endsIdly = true ↔
    k.isWhole = true ∧ (k.isLeftOut = true ∨
      k.valued = false ∧ k.opened = false ∧ (k.word = none ∨ k.words = []) ∧
        k.endWord.words.head? ≠ some "typedef") := by
  simp [endsIdly, and_assoc]

theorem Holds.semicolon (h : k.Holds tree s) (hroot : tree.kind = .root) (hends : k.endsIdly = true)
    (hnone : k.word = none) : s.semicolon.node = tree := by
  obtain ⟨run, runComment, comment, joinable, rfl, hfits⟩ := h
  refine hfits.node_semicolon hroot ?_ _ _ _ _
  obtain ⟨-, hleft | ⟨hvalued, hopened, -, htypedef⟩⟩ := endsIdly_iff.mp hends
  · exact .inl hleft
  · exact .inr ⟨hvalued, hopened, endWord_of_none hnone ▸ htypedef⟩

theorem Holds.word_semicolon (h : k.Holds tree s) (hroot : tree.kind = .root)
    (hends : k.endsIdly = true) {word : List Char} (hw : k.word = some word)
    (he : String.ofList word.reverse ≠ "=") (hp : String.ofList word.reverse ≠ "(") :
    ((s.word (String.ofList word.reverse) ';').update ({ · with joinable := false })).semicolon.node =
      tree := by
  obtain ⟨run, runComment, comment, joinable, rfl, hfits⟩ := h
  have hfits' := hfits.word hw he hp
  have hend := endWord_of_word hw
  -- whatever becomes of the word, the scope is still idle
  suffices hword : ∃ run' runComment' , ∃ k' : Skim, k'.Fits run' ∧
      (k'.isLeftOut = true ∨
        k'.valued = false ∧ k'.opened = false ∧ k'.words.head? ≠ some "typedef") ∧
      (OpenScope.idle tree (.pending k.depth run runComment comment joinable)).word
        (String.ofList word.reverse) ';' =
          .idle tree (.pending k.depth run' runComment' comment joinable) by
    obtain ⟨run', runComment', k', hk', hidle, he⟩ := hword
    rw [he]
    exact hk'.node_semicolon hroot hidle k.depth runComment' comment false
  rw [OpenScope.word_idle hroot, if_neg (by simp)]
  obtain ⟨-, hleft | ⟨hvalued, hopened, hwords, htypedef⟩⟩ := endsIdly_iff.mp hends
  · obtain ⟨hany, hhead⟩ := hfits.leftOut hleft
    obtain ⟨first, hfirst, hout⟩ := (Option.any_eq_true _ _).mp hany
    have hne : run ≠ [] := by
      rintro rfl
      cases hfirst
    rw [if_pos (by simpa using hne), OpenScope.endDeclarator,
      if_neg (by simp [OpenScope.idle, Context.pending]), if_neg]
    · split
      · rw [if_pos (by simpa [OpenScope.idle, Context.pending, OpenScope.begin, hfirst, hroot] using hout)]
        exact ⟨[], none, { depth := k.depth }, .nil .., .inr ⟨rfl, rfl, by simp⟩, rfl⟩
      · exact ⟨_, runComment, k.endWord, hfits', .inl (isLeftOut_endWord hleft),
          OpenScope.pushWord_idle ..⟩
    · have hne : first ≠ "typedef" := fun he => hhead (he ▸ hfirst)
      simpa [OpenScope.idle, Context.pending, hfirst] using hne
  · have hnil : run = [] := hfits.run_eq_nil_iff.mpr (hwords.resolve_left (by simp [hw]))
    subst hnil
    rw [if_neg (by simp)]
    exact ⟨_, runComment, k.endWord, hfits', .inr ⟨by rw [hend]; exact hvalued,
      by rw [hend]; exact hopened, htypedef⟩, rfl⟩

end Skim

namespace State

variable {k : Skim} {tree : Node} {s : State}

theorem skims_start (hroot : tree.kind = .root) : (State.start tree).Skims tree {} := by
  refine ⟨readsIn_code rfl, trivial, rfl, rfl, [], none, none, false, ?_, .nil ..⟩
  have hcontext : Context.ofScope tree = .pending 0 [] none none false := by
    unfold Context.ofScope
    rw [hroot]
    rfl
  rw [State.start, OpenScope.begin, hcontext]
  rfl

/-- A mark after a text that is whole comes after its last word, if that is still being read. -/
theorem Skims.step_mark (h : s.Skims tree k) (hwhole : k.isWhole = true) {c : Char}
    (hc : c ∈ [';', '\x7b']) :
    ∃ t : State, s.step c = t.plain c ∧ t.mode = .plain ∧ t.enclosing = [] ∧
      (k.word = none ∧ k.Holds tree t.scope ∨
        ∃ word, k.word = some word ∧ t.scope = s.scope.word (String.ofList word.reverse) c) := by
  have hpart : isWordPart s.scope.context.parens c = false := by
    simp only [List.mem_cons, List.not_mem_nil, or_false] at hc
    obtain rfl | rfl := hc <;>
    · simp [isWordPart]
      decide
  have hcode : s.mode.layer.isCode c = true := by
    rw [h.reads.1]
    simp only [Skim.isWhole, Bool.or_eq_true, beq_iff_eq] at hwhole
    simp only [List.mem_cons, List.not_mem_nil, or_false] at hc
    obtain hl | hl := hwhole <;> obtain rfl | rfl := hc <;> rw [hl] <;> rfl
  have hword := h.word
  obtain ⟨t, ht, hmode, hstep⟩ := step_of_isCode hcode hpart
  refine ⟨t, hstep, hmode, ?_⟩
  cases ht with
  | code hm =>
    rw [hm] at hword
    exact ⟨h.enclosing, .inl ⟨hword.symm, h.scope⟩⟩
  | slash hm =>
    rw [hm] at hword
    exact ⟨h.enclosing, .inl ⟨hword.symm,
      (h.scope.withJoinable false).pushMark (by decide : "/" ≠ "=") (by decide)⟩⟩
  | @word text hm =>
    rw [hm] at hword
    exact ⟨h.enclosing, .inr ⟨text, hword.symm, rfl⟩⟩

theorem Skims.node_semicolon (h : s.Skims tree k) (hroot : tree.kind = .root)
    (hends : k.endsIdly = true) : (s.step ';').result.node = tree := by
  have hwhole : k.isWhole = true := by
    simp only [Skim.endsIdly, Bool.and_eq_true] at hends
    exact hends.1
  obtain ⟨t, hstep, hmode, henclosing, hcase⟩ := h.step_mark hwhole (c := ';') (by decide)
  rw [hstep]
  have hresult : (t.plain ';').result =
      (t.scope.update ({ · with joinable := false })).semicolon := by
    have hplain : t.plain ';' =
        t.update fun scope => (scope.update ({ · with joinable := false })).semicolon := rfl
    rw [hplain, State.result]
    simp only [State.update, henclosing, unwind]
  rw [hresult]
  rcases hcase with ⟨hnone, hscope⟩ | ⟨word, hword, hscope⟩
  · exact (hscope.withJoinable false).semicolon hroot hends hnone
  · obtain ⟨he, hp⟩ := h.word_ne hword
    rw [hscope]
    exact h.scope.word_semicolon hroot hends hword he hp

theorem openBrace_eq_openBlock {t : State} (hheader : t.scope.context.header = none)
    (hfirst : t.scope.context.run.texts.headD "" ∉ Skim.openers) :
    t.openBrace = t.openBlock (·.update .dropRun) := by
  have hne : ∀ word ∈ Skim.openers, t.scope.context.run.texts.headD "" ≠ word :=
    fun word hm he => hfirst (he ▸ hm)
  simp only [Skim.openers, List.forall_mem_cons] at hne
  obtain ⟨htypedef, hclass, hstruct, hunion, henum, hnameSpace, hextern, -⟩ := hne
  have hsplit : splitAlias t.scope.context.run = (false, t.scope.context.run) := by
    unfold splitAlias
    rw [if_neg]
    intro he
    rw [List.headD_eq_head?_getD, eq_of_beq he] at htypedef
    exact htypedef rfl
  have hrecord : recordKind? (t.scope.context.run.texts.headD "") = none := by
    unfold recordKind?
    rw [if_neg (by simpa using hclass), if_neg (by simpa using hstruct),
      if_neg (by simpa using hunion)]
  unfold State.openBrace
  simp only [hsplit, hheader, hrecord]
  split
  · rename_i name _ hwords
    rw [hwords] at hnameSpace
    exact absurd rfl hnameSpace
  · rw [if_neg, if_neg]
    · simp only [Bool.and_eq_true, beq_iff_eq, not_and]
      exact fun he => absurd he hextern
    · simp only [Bool.and_eq_true, beq_iff_eq, not_and]
      exact fun _ he => absurd he henum

theorem Skims.node_body (h : s.Skims tree k) (hroot : tree.kind = .root)
    (hopens : k.opensNothing = true) {body : List Char} (hbody : isBalanced body = true) :
    (s.run ('\x7b' :: body ++ ['\x7d'])).result.node = tree := by
  simp only [Skim.opensNothing, Bool.and_eq_true] at hopens
  obtain ⟨hwhole, hfirst⟩ := hopens
  obtain ⟨t, hstep, hmode, henclosing, hcase⟩ := h.step_mark hwhole (c := '\x7b') (by decide)
  have hscope : k.endWord.Holds tree t.scope := by
    rcases hcase with ⟨hnone, hscope⟩ | ⟨word, hword, hscope⟩
    · rwa [Skim.endWord_of_none hnone]
    · obtain ⟨he, hp⟩ := h.word_ne hword
      have htypedef : k.endWord.words.head? ≠ some "typedef" := by
        intro he
        rw [he] at hfirst
        exact absurd hfirst (by decide)
      rw [hscope]
      exact h.scope.word hroot hword he hp (by simp [Skim.ends]) (by decide) htypedef
  obtain ⟨run, runComment, comment, joinable, hidle, hfits⟩ := hscope.withJoinable false
  have hhead : run.texts.headD "" ∉ Skim.openers := by
    rw [List.headD_eq_head?_getD, hfits.head]
    cases hk : k.endWord.words.head? with
    | none => decide
    | some first =>
      rw [hk] at hfirst
      simpa using hfirst
  -- the brace opens a block in a scope without a run
  have hopen : s.step '\x7b' =
      (t.update (·.update ({ · with joinable := false }))).openBlock (·.update .dropRun) := by
    rw [hstep, show t.plain '\x7b' = (t.update (·.update ({ · with joinable := false }))).openBrace
      from rfl]
    refine openBrace_eq_openBlock ?_ ?_
    · simp only [State.update, hidle]
      rfl
    · simp only [State.update, hidle]
      exact hhead
  have hin : InBlock (.idle tree (.pending k.endWord.depth [] none comment joinable)) [] {}
      (s.step '\x7b') := by
    rw [hopen]
    refine ⟨readsIn_code hmode, henclosing, comment, joinable, none, false, ?_⟩
    simp only [State.openBlock, State.update, hidle]
    rfl
  calc (s.run ('\x7b' :: body ++ ['\x7d'])).result.node
      = ((s.step '\x7b').run (body ++ ['\x7d'])).result.node := rfl
    _ = tree := by
        rw [hin.close rfl hbody]
        rfl

end State

/-- A declaration of which nothing is made leaves any documentation as it was. -/
theorem scan_leftOut {tree : Node} (hroot : tree.kind = .root) {keyword declaration : String}
    (h : IsPassedOver keyword declaration) : scan (keyword ++ " " ++ declaration) tree = tree := by
  have hrun : ∀ {text : String} {k : Skim}, skim? text.toList = some k →
      ((State.start tree).run text.toList).Skims tree k := fun hk =>
    (State.skims_start hroot).run hroot hk
  cases h with
  | @statement text hskim =>
    obtain ⟨k, hk, hends⟩ := (Option.any_eq_true _ _).mp hskim
    have htext : (keyword ++ " " ++ (text ++ ";")).toList = (keyword ++ " " ++ text).toList ++ [';'] := by
      simp
    unfold scan scanWithEvents
    rw [htext, State.run_append]
    exact (hrun hk).node_semicolon hroot hends
  | @definition text body hskim hbody =>
    obtain ⟨k, hk, hopens⟩ := (Option.any_eq_true _ _).mp hskim
    have htext : (keyword ++ " " ++ (text ++ "\x7b" ++ body ++ "\x7d")).toList =
        (keyword ++ " " ++ text).toList ++ ('\x7b' :: body.toList ++ ['\x7d']) := by
      simp
    unfold scan scanWithEvents
    rw [htext, State.run_append]
    exact (hrun hk).node_body hroot hopens hbody

example : IsPassedOver "static" ("int f(struct foo *p, char **names)" ++ ";") :=
  .statement (by decide +kernel)

example : IsPassedOver "extern" ("const char *greeting = \"a; b\"" ++ ";") :=
  .statement (by decide +kernel)

example : IsPassedOver "static" ("int g (int a = 1, int (*cb)(int))" ++ ";") :=
  .statement (by decide +kernel)

example : IsPassedOver "extern" ("int f(const struct foo *p, int (*cb)(int), int a = 1)" ++ "\x7b" ++
    " return cb(a); " ++ "\x7d") := .definition (by decide +kernel) (by decide +kernel)

/-- A list of two variables that are left out, one of them documented already. -/
theorem scan_leftOut_twoVariables :
    IsPassedOver "static" ("int y = 1, *z" ++ ";") ∧
      scan ("static" ++ " " ++ ("int y = 1, *z" ++ ";"))
          { kind := .root, children := [.ofName .var "z"] } =
        { kind := .root, children := [.ofName .var "z"] } :=
  have h : IsPassedOver "static" ("int y = 1, *z" ++ ";") := .statement (by decide +kernel)
  ⟨h, scan_leftOut rfl h⟩

/-- With a body, what is left of a function is read as the definition of the structure that its
first argument points to. -/
theorem scan_leftOut_structArgument :
    scan ("static" ++ " " ++ "int f(struct foo *p) \x7b return 0; \x7d") .empty ≠ .empty := fun h =>
  absurd (congrArg (·.children.map (·.name)) h) (by decide +kernel)

end HeaderDocs.Scan
