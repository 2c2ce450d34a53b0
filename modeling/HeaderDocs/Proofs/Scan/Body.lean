import HeaderDocs.Proofs.Scan.Invariants

/-!
# Bodies of functions

Between the braces of a block that records nothing, a source leaves the scope as it is: only the
brackets are counted, and comments are collected that the closing brace drops again
(`Within.invariant`, `InBlock.close`). So the body of a function says as much as a semicolon in its
place.

* `scan_body`: a source with a body, and the source with a semicolon and a line feed instead.
-/
namespace HeaderDocs.Scan

open HeaderDocs.Text

/-! ## Blocks that record nothing -/

/-- The context inside of a block that was opened where the context was `outer`: nothing is being
declared, and the brackets that are open are counted. -/
def Context.inBlock (outer : Context) (awaited : List Char) (comment : Option String)
    (joinable : Bool) (record : Option Place) (inValue : Bool) : Context :=
  { access := outer.access
    braces := outer.braces + 1 + awaited.count '\x7d'
    parens := outer.parens + awaited.count ')'
    comment, joinable, record, inValue }

def OpenScope.Within (outer : OpenScope) (awaited : List Char) (s : OpenScope) : Prop :=
  ∃ comment joinable record inValue,
    s = { outer with context := outer.context.inBlock awaited comment joinable record inValue }

namespace OpenScope.Within

variable {outer s : OpenScope} {awaited rest : List Char}

theorem withJoinable (h : outer.Within awaited s) (joinable : Bool) :
    outer.Within awaited (s.update ({ · with joinable })) := by
  obtain ⟨comment, -, record, inValue, rfl⟩ := h
  exact ⟨comment, joinable, record, inValue, rfl⟩

theorem openBrace (h : outer.Within awaited s) :
    outer.Within ('\x7d' :: awaited)
      ((s.update .dropRun).update fun c => { c with braces := c.braces + 1, claim := none }) := by
  obtain ⟨comment, joinable, record, inValue, rfl⟩ := h
  exact ⟨comment, joinable, record, inValue, by
    simp [Context.inBlock, OpenScope.update, Context.dropRun, Nat.add_assoc]⟩

theorem openParen (h : outer.Within awaited s) :
    outer.Within (')' :: awaited) (s.update .openParen) := by
  obtain ⟨comment, joinable, record, inValue, rfl⟩ := h
  exact ⟨comment, joinable, record, inValue, by
    simp [Context.inBlock, OpenScope.update, Context.openParen, Context.pushMark, Context.startRun,
      Nat.add_assoc]⟩

theorem closeBrace (h : outer.Within ('\x7d' :: rest) s) :
    0 < s.context.braces ∧ outer.Within rest (s.update .afterBlock) := by
  obtain ⟨comment, joinable, record, inValue, rfl⟩ := h
  refine ⟨?_, comment, joinable, none, false, ?_⟩
  · simp only [Context.inBlock]
    omega
  · simp [Context.inBlock, OpenScope.update, Context.afterBlock, Context.afterBody]

theorem closeParen (h : outer.Within (')' :: rest) s) : outer.Within rest (s.update .closeParen) := by
  obtain ⟨comment, joinable, record, inValue, rfl⟩ := h
  exact ⟨comment, joinable, record, inValue, by
    simp [Context.inBlock, OpenScope.update, Context.closeParen, Context.inArguments,
      Context.pushIfStarted]⟩

/-- A context in which nothing is being read keeps no marks and no literals. -/
theorem push (h : outer.Within awaited s) (text : String) (spaced : Bool) :
    outer.Within awaited (s.update (·.pushMark text)) ∧
      outer.Within awaited (s.update (·.pushFragment text spaced)) ∧
      outer.Within awaited (s.update (·.pushIfStarted text spaced)) := by
  obtain ⟨comment, joinable, record, inValue, rfl⟩ := h
  exact ⟨⟨comment, joinable, record, inValue, rfl⟩, ⟨comment, joinable, record, inValue, rfl⟩,
    ⟨comment, joinable, record, inValue, rfl⟩⟩

theorem comma (h : outer.Within awaited s) : outer.Within awaited (s.update .comma) := by
  obtain ⟨comment, joinable, record, inValue, rfl⟩ := h
  exact ⟨comment, joinable, record, inValue, rfl⟩

theorem equals (h : outer.Within awaited s) : outer.Within awaited (s.update .equals) := by
  obtain ⟨comment, joinable, record, inValue, rfl⟩ := h
  exact ⟨comment, joinable, record, inValue, rfl⟩

theorem dropRun (h : outer.Within awaited s) : outer.Within awaited (s.update .dropRun) := by
  obtain ⟨comment, joinable, record, inValue, rfl⟩ := h
  exact ⟨comment, joinable, record, inValue, rfl⟩

theorem endLine (h : outer.Within awaited s) : outer.Within awaited (s.update .endLine) := by
  obtain ⟨comment, joinable, record, inValue, rfl⟩ := h
  exact ⟨comment, joinable, record, inValue, rfl⟩

theorem braces_ne_zero (h : outer.Within awaited s) : (s.context.braces == 0) = false := by
  obtain ⟨comment, joinable, record, inValue, rfl⟩ := h
  simp [Context.inBlock]

theorem semicolon (h : outer.Within awaited s) : outer.Within awaited s.semicolon := by
  have hb := h.braces_ne_zero
  obtain ⟨comment, joinable, record, inValue, rfl⟩ := h
  refine ⟨comment, joinable, none, inValue, ?_⟩
  simp [Context.inBlock, OpenScope.update, OpenScope.semicolon, OpenScope.endHeader,
    OpenScope.endRun, OpenScope.declaresVariable, Run.texts, Context.dropRun]

theorem word (h : outer.Within awaited s) (word : String) (terminator : Char) :
    outer.Within awaited (s.word word terminator) := by
  have hb := h.braces_ne_zero
  have hdrop := h.dropRun
  unfold OpenScope.word
  obtain ⟨comment, joinable, record, inValue, rfl⟩ := h
  dsimp only at hb ⊢
  rw [if_neg (by simpa using hb)]
  exact hdrop

/-- A comment waits for a declaration, which will not come before the block ends. -/
theorem takeComment (h : outer.Within awaited s) (text : String) (line : Bool) :
    outer.Within awaited (s.takeComment text line) := by
  have hb := h.braces_ne_zero
  have hs := h
  unfold OpenScope.takeComment
  obtain ⟨comment, joinable, record, inValue, rfl⟩ := h
  dsimp only at hb ⊢
  split
  · exact hs
  · rw [if_neg (by simp [hb])]
    exact ⟨_, line, record, inValue, rfl⟩

end OpenScope.Within

/-! ## Reading a block -/

theorem OpenScope.Within.openBrace_eq {outer : OpenScope} {awaited : List Char} {s : State}
    (h : outer.Within awaited s.scope) : s.openBrace = s.openBlock (·.update .dropRun) := by
  obtain ⟨mode, scope, enclosing⟩ := s
  obtain ⟨comment, joinable, record, inValue, rfl⟩ := h
  rfl

/-- Nothing that is read in a block changes the scope around it. -/
theorem OpenScope.Within.invariant (outer : OpenScope) : Invariant true outer.Within where
  interrupted h := h.withJoinable false
  endLine h := h.endLine
  word h := h.word
  takeComment h := h.takeComment
  pushMark h text := (h.push text false).1
  pushFragment h text spaced := (h.push text spaced).2.1
  pushIfStarted h text spaced := (h.push text spaced).2.2
  comma h := h.comma
  equals h := h.equals
  openParen h := h.openParen
  closeParen h := h.closeParen
  semicolon _ _ _ h := h.semicolon
  openBrace _ _ s h := by
    rw [h.openBrace_eq]
    exact ⟨h.openBrace, rfl⟩
  closeBrace _ _ s h := by
    obtain ⟨hpos, hclose⟩ := h.closeBrace
    rw [State.closeBrace_eq, if_pos hpos]
    exact ⟨hclose, rfl⟩

/-- What a state in a block is: the scopes are as they were, but for the brackets that are open. -/
abbrev InBlock (outer : OpenScope) : List OpenScope → Nesting → State → Prop := Inside outer.Within

namespace InBlock

variable {outer : OpenScope} {enclosing : List OpenScope} {s : State}

/-- After a balanced text, the brace that closes the outermost block leaves the scope as it was
before. -/
theorem close (h : InBlock outer enclosing {} s) (hb : outer.context.braces = 0) {body : List Char}
    (hbody : isBalanced body = true) :
    s.run (body ++ ['\x7d']) =
      { mode := .plain
        scope :=
          { outer with
            context := { access := outer.context.access, parens := outer.context.parens } }
        enclosing } := by
  obtain ⟨⟨layer, awaited⟩, hn, hlayer, rfl⟩ := isBalanced_iff.mp hbody
  have hinvariant := OpenScope.Within.invariant outer
  rw [← Nesting.readIn?_true] at hn
  obtain ⟨t, hstep, hmode, henclosing, hw⟩ :=
    (h.run hinvariant hn).step_bracket hinvariant hlayer (c := '\x7d') (by decide)
  rw [State.run_append]
  change (s.run body).step '\x7d' = _
  rw [hstep]
  obtain ⟨mode, scope, enclosing'⟩ := t
  obtain ⟨comment, joinable, record, inValue, rfl⟩ := hw
  cases hmode
  cases henclosing
  rw [show ∀ t : State, t.plain '\x7d' = (t.update (·.update ({ · with joinable := false }))).closeBrace
    from fun _ => rfl, State.closeBrace_eq]
  simp [State.update, OpenScope.update, Context.inBlock, Context.afterBlock, Context.afterBody, hb]

end InBlock

/-! ## Recording the function -/

namespace Context

/-- What recording a node leaves alone in a context: all but the references. -/
def frame (c : Context) : Option String × Nat × Nat × Run × Bool × Option Node × Bool × Bool :=
  (c.access, c.braces, c.parens, c.base, c.joinable, c.typeAlias, c.enumeration.isSome, c.inValue)

theorem frame_afterInsert (path : Path) (c : Context) : (c.afterInsert path).frame = c.frame := by
  simp [frame, Context.afterInsert]

theorem frame_afterRemove (path : Path) (removed : Node) (c : Context) :
    (c.afterRemove path removed).frame = c.frame := by
  simp [frame, Context.afterRemove]

end Context

namespace OpenScope

theorem frame_removeAt (s : OpenScope) (path : Path) :
    (s.removeAt path).context.frame = s.context.frame := by
  unfold OpenScope.removeAt
  split
  · exact Context.frame_afterRemove path _ _
  · rfl

theorem frame_commitTo (s : OpenScope) (home : Path) (node : Node) :
    (s.commitTo home node).1.context.frame = s.context.frame :=
  commitTo_context (P := (·.frame = s.context.frame)) rfl
    (fun i _ hc => (Context.frame_afterInsert (home ++ [i]) _).trans hc)
    (fun i removed _ hc => (Context.frame_afterRemove (home ++ [i]) removed _).trans hc) node

theorem frame_commitAside (s : OpenScope) (home node : Node) :
    (s.commitAside home node).1.context.frame = s.context.frame :=
  scope_commitAside (P := (·.context.frame = s.context.frame)) rfl (fun _ => rfl) home node

/-- Recording a function leaves nothing of its header, and the rest of the context alone. -/
theorem context_commitHeader (s : OpenScope) (head : Header) :
    (s.commitHeader head).context.frame = s.context.frame ∧
      ∃ record enumeration claim, (s.commitHeader head).context =
        { s.context with
          run := [], runComment := none, comment := none, header := none
          record, enumeration, claim } := by
  have hfinish : ∀ (t : OpenScope) (path : Option Path), t.context.frame = s.context.frame →
      (t.update fun c => (c.settleArgument path).dropHeader.dropRun).context.frame = s.context.frame ∧
        ∃ record enumeration claim,
          (t.update fun c => (c.settleArgument path).dropHeader.dropRun).context =
            { s.context with
              run := [], runComment := none, comment := none, header := none
              record, enumeration, claim } := by
    intro t path ht
    refine ⟨ht, t.context.record, t.context.enumeration,
      ((t.context.settleArgument path).dropHeader).claim, ?_⟩
    simp only [Context.frame, Prod.mk.injEq] at ht
    obtain ⟨h1, h2, h3, h4, h5, h6, -, h8⟩ := ht
    simp only [OpenScope.update, Context.settleArgument, Context.dropHeader, Context.dropRun, h1, h2,
      h3, h4, h5, h6, h8]
  unfold OpenScope.commitHeader
  dsimp only
  split
  · exact hfinish _ _ (frame_commitTo s [] _)
  · exact hfinish _ _ (frame_commitTo s _ _)
  · exact hfinish _ _ (frame_commitAside s _ _)

end OpenScope

/-! ## Functions with bodies -/

/-- A function header has been read, and its body or a semicolon may come. The function has a type
or is a member of a record, and no definition is waiting for its name. -/
structure State.AwaitsBody (s : State) : Prop where
  mode : s.mode = .plain
  braces : s.scope.context.braces = 0
  run : s.scope.context.run = []
  typeAlias : s.scope.context.typeAlias = none
  enumeration : s.scope.context.enumeration = none
  header : ∃ head, s.scope.context.header = some head ∧ head.argumentsOpen = false ∧
    (head.typed = true ∨ s.scope.node.kind.isRecord = true)

theorem State.awaitsBody_iff (s : State) :
    s.AwaitsBody ↔
      s.mode = .plain ∧ s.scope.context.braces = 0 ∧ s.scope.context.run = [] ∧
        s.scope.context.typeAlias.isNone ∧ s.scope.context.enumeration.isNone ∧
        s.scope.context.header.any fun head =>
          !head.argumentsOpen && (head.typed || s.scope.node.kind.isRecord) := by
  simp only [Option.isNone_iff_eq_none, Option.any_eq_true, Bool.and_eq_true, Bool.not_eq_true',
    Bool.or_eq_true]
  exact ⟨fun h => ⟨h.mode, h.braces, h.run, h.typeAlias, h.enumeration, h.header⟩,
    fun ⟨h1, h2, h3, h4, h5, h6⟩ => ⟨h1, h2, h3, h4, h5, h6⟩⟩

instance (s : State) : Decidable s.AwaitsBody := decidable_of_iff _ s.awaitsBody_iff.symm

namespace State.AwaitsBody

variable {s : State}

/-- The state after the function has been recorded and its line has ended. -/
def recorded (s : State) (head : Header) : State :=
  let scope := (s.scope.update ({ · with joinable := false })).commitHeader head
  { mode := .plain
    scope := { scope with context := { access := scope.context.access, parens := scope.context.parens } }
    enclosing := s.enclosing }

/-- The context after the function has been recorded: only references are left in it. -/
theorem context_commitHeader (h : s.AwaitsBody) (htidy : s.Tidy) (head : Header) :
    ∃ record claim, ((s.scope.update ({ · with joinable := false })).commitHeader head).context =
      { access := s.scope.context.access, parens := s.scope.context.parens, record, claim } := by
  obtain ⟨hframe, record, enumeration, claim, hcontext⟩ :=
    OpenScope.context_commitHeader (s.scope.update ({ · with joinable := false })) head
  have hscope := (htidy s.scope (List.mem_cons_self ..)).context
  have hbase : s.scope.context.base = [] := by
    obtain ⟨head, hhead, -⟩ := h.header
    exact hscope.base (.inr (by rw [hhead]; rfl))
  have henumeration : enumeration = none := by
    rw [hcontext] at hframe
    simpa [Context.frame, OpenScope.update, h.enumeration] using hframe
  refine ⟨record, claim, ?_⟩
  rw [hcontext, henumeration]
  simp [OpenScope.update, h.braces, h.typeAlias, hbase, hscope.inValue h.braces]

/-- A semicolon and a line feed record the function. -/
theorem run_semicolon (h : s.AwaitsBody) (htidy : s.Tidy) {head : Header}
    (hhead : s.scope.context.header = some head)
    (htyped : head.typed = true ∨ s.scope.node.kind.isRecord = true) :
    s.run [';', '\n'] = recorded s head := by
  obtain ⟨record, claim, hcontext⟩ := h.context_commitHeader htidy head
  have hend : (s.scope.update ({ · with joinable := false })).endHeader =
      (s.scope.update ({ · with joinable := false })).commitHeader head := by
    simp [OpenScope.endHeader, OpenScope.update, hhead, htyped]
  have hstep : s.run [';', '\n'] = ((s.update fun scope =>
      (scope.update ({ · with joinable := false })).semicolon)).plain '\n' := by
    obtain ⟨mode, scope, enclosing⟩ := s
    cases h.mode
    rfl
  rw [hstep]
  unfold recorded
  simp only [State.update, OpenScope.semicolon, hend]
  generalize (s.scope.update ({ · with joinable := false })).commitHeader head = scope at hcontext
  obtain ⟨node, origin, attached, context, suspended, declared, events⟩ := scope
  cases hcontext
  cases s
  cases h.mode
  simp [State.plain, State.update, OpenScope.update, OpenScope.endRun, OpenScope.declaresVariable,
    Run.texts, Run.isFunctionPointer, Context.dropRun]

theorem run_block (h : s.AwaitsBody) (htidy : s.Tidy) {head : Header}
    (hhead : s.scope.context.header = some head) {body : List Char} (hbody : isBalanced body = true) :
    s.run ('\x7b' :: (body ++ ['\x7d'])) = recorded s head := by
  obtain ⟨record, claim, hcontext⟩ := h.context_commitHeader htidy head
  have hopen : s.step '\x7b' =
      s.update fun scope =>
        ((scope.update ({ · with joinable := false })).commitHeader head).update fun c =>
          { c with braces := c.braces + 1, claim := none } := by
    have hplain : s.step '\x7b' =
        (s.update (·.update ({ · with joinable := false }))).openBrace := by
      rw [State.step, h.mode]
      rfl
    rw [hplain, State.openBrace]
    simp only [State.update, OpenScope.update, hhead]
    rfl
  have hin : InBlock ((s.scope.update ({ · with joinable := false })).commitHeader head) s.enclosing
      {} (s.step '\x7b') := by
    rw [hopen]
    refine ⟨readsIn_code h.mode, rfl, none, false, record, false, ?_⟩
    dsimp only [State.update]
    generalize (s.scope.update ({ · with joinable := false })).commitHeader head = scope at hcontext
    obtain ⟨node, origin, attached, context, suspended, declared, events⟩ := scope
    cases hcontext
    rfl
  change (s.step '\x7b').run (body ++ ['\x7d']) = _
  rw [hin.close (by rw [hcontext]) hbody]
  rfl

/-- The end of the line changes nothing behind a body. -/
theorem run_body (h : s.AwaitsBody) (htidy : s.Tidy) {head : Header}
    (hhead : s.scope.context.header = some head) {body : List Char} (hbody : isBalanced body = true) :
    s.run ('\x7b' :: body ++ ['\x7d', '\n']) = recorded s head :=
  calc s.run ('\x7b' :: body ++ ['\x7d', '\n'])
      = (s.run ('\x7b' :: (body ++ ['\x7d']))).step '\n' := by simp [State.run]
    _ = recorded s head := by
        rw [h.run_block htidy hhead hbody]
        rfl

end State.AwaitsBody

/-- The body of a function says as much about a source as a semicolon in its place. -/
theorem scan_body {tree : Node} {before : String}
    (h : ((State.start tree).run before.toList).AwaitsBody) {body : String}
    (hbody : isBalanced body.toList = true) (after : String) :
    scanWithEvents (before ++ "\x7b" ++ body ++ "\x7d\n" ++ after) tree =
      scanWithEvents (before ++ ";\n" ++ after) tree := by
  have htidy := State.tidy_run tree before.toList
  obtain ⟨head, hhead, -, htyped⟩ := h.header
  have hrun : ((State.start tree).run before.toList).run ('\x7b' :: body.toList ++ ['\x7d', '\n']) =
      ((State.start tree).run before.toList).run [';', '\n'] :=
    (h.run_body htidy hhead hbody).trans (h.run_semicolon htidy hhead htyped).symm
  have hwith : (before ++ "\x7b" ++ body ++ "\x7d\n" ++ after).toList =
      before.toList ++ (('\x7b' :: body.toList ++ ['\x7d', '\n']) ++ after.toList) := by
    simp
  have hwithout : (before ++ ";\n" ++ after).toList =
      before.toList ++ ([';', '\n'] ++ after.toList) := by
    simp
  unfold scanWithEvents
  rw [hwith, hwithout]
  simp only [State.run_append, hrun]

/-- A member with a body in which a literal, a comment and a directive hold braces. -/
theorem scan_body_member :
    scanWithEvents ("class A \x7b public: int f(int a)" ++ "\x7b" ++
        " return g(\"\x7d\", a); // \x7d\n#define H \x7b\n" ++ "\x7d\n" ++ "/** A constant. */ int b; \x7d;")
        .empty =
      scanWithEvents ("class A \x7b public: int f(int a)" ++ ";\n" ++
        "/** A constant. */ int b; \x7d;") .empty :=
  scan_body (by decide +kernel) (by decide +kernel) _

end HeaderDocs.Scan
