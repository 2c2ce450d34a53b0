import HeaderDocs.Proofs.Scan.Checked.Scopes
import HeaderDocs.Proofs.Scan.CommentedScopes
import Mathlib.Data.List.Induction

/-!
# Descriptions come from the comments of the sources

A comment is handed on to the declarations by its last character (`State.EndsComment`). Whatever the
sources are, every description in the tree that they are read into is what is left of their comments,
or is the empty one of a declaration without a comment.

* `State.Commented.step`, `State.Commented.run`: reading a character, and a text.
* `CommentOf`: a comment of some sources, or line comments that have been joined.
* `scanEach_commented`: reading sources into the empty documentation.
-/
namespace HeaderDocs.Scan

open HeaderDocs.Node HeaderDocs.Text

variable {Q : String → Prop} {root : Kind × Option String}

namespace State

open OpenScope

variable {s : State} {inner outer scope : OpenScope}

/-! ## Scopes -/

/-- A scope around the one that is being filled claims nothing. -/
structure Waiting (Q : String → Prop) (s : OpenScope) : Prop extends s.Commented Q where
  unclaimed : s.context.claims = []

theorem waiting_of_described (h : scope.Described Q) (hclaims : scope.context.claims = [])
    (hsuspended : ∀ c ∈ scope.suspended, c.claims = []) : Waiting Q scope :=
  ⟨⟨h, by simp [hclaims], hsuspended⟩, hclaims⟩

/-- A scope is left for the one inside of it when its line can claim no more. -/
theorem Waiting.of_commented (h : scope.Commented Q) {f : Context → Context}
    (hf : (f scope.context).Described Q) (hclaims : (f scope.context).claims = []) :
    Waiting Q (scope.update f) :=
  waiting_of_described (h.toDescribed.update hf) hclaims h.suspended

theorem commented_begin {node : Node} (h : node.Everywhere (Node.Commented Q)) (origin : Origin) :
    OpenScope.Commented Q (begin node origin) := by
  have hcontext : (Context.ofScope node).Commented Q node := Context.commented_ofScope node node
  refine ⟨⟨h, fun c hc => ?_⟩, hcontext.claims, List.forall_mem_nil _⟩
  rw [List.mem_singleton.mp hc]
  exact hcontext.toDescribed

theorem commented_putBack (hi : inner.node.Everywhere (Node.Commented Q)) (hs : inner.Sound)
    (ho : Waiting Q outer) (hos : outer.Sound) : (putBack inner outer).Commented Q := by
  have hevents : OpenScope.Commented Q { outer with events := outer.events ++ inner.events } :=
    ⟨⟨ho.node, ho.contexts⟩, ho.claims, ho.suspended⟩
  have hreplace : ∀ i : Nat,
      OpenScope.Commented Q (OpenScope.modifyAt (fun _ => inner.node) [i]
        { outer with events := outer.events ++ inner.events }) := by
    intro i
    have hnode := everywhere_commented_replace ho.node hi (ne_description_of_isScope hs.scope) i
    have hw : Waiting Q (OpenScope.modifyAt (fun _ => inner.node) [i]
        { outer with events := outer.events ++ inner.events }) :=
      waiting_of_described ⟨hnode, ho.contexts⟩ ho.unclaimed ho.suspended
    exact hw.toCommented
  have hown : ∀ i m, (OpenScope.modifyAt (fun _ => inner.node) [i]
      { outer with events := outer.events ++ inner.events }).node.get? [] = some m →
        m.kind ≠ .description := by
    rintro i _ ⟨⟩
    exact ne_description_of_isScope hos.scope
  unfold putBack
  dsimp only
  split
  · exact hevents
  · split
    · split
      · exact hreplace _
      · exact (hreplace _).removeBelow [] (hown _)
    · refine hevents.updateRecord ?_
      rintro _ ⟨⟩
      exact hi
    · exact hevents
  · exact hreplace _
  · exact hevents

/-! ## Definitions -/

theorem commented_beginDefinition (h : scope.Commented Q) (aliased : Bool) (run : Run) :
    OpenScope.Commented Q (scope.update fun c =>
      let c := if aliased then { c with run := run.closeUp } else c.dropRun
      { c.takeComment with typeAlias := aliasOf aliased scope.context.comment }) := by
  have halias : ∀ n, aliasOf aliased scope.context.comment = some n →
      n.Everywhere (Node.Commented Q) := by
    intro n hn
    unfold aliasOf at hn
    split at hn
    · cases hn
      exact everywhere_commented_describeIf (everywhere_commented_leaf rfl) h.context.comment
    · cases hn
  refine h.update ⟨?_, ?_⟩
  · cases aliased with
    | true => exact { h.context with comment := nofun, typeAlias := halias }
    | false => exact { h.context with comment := nofun, runComment := nofun, typeAlias := halias }
  · cases aliased <;> exact h.claims

theorem commented_beginRecord (h : scope.Commented Q) (hs : scope.Sound) {kind : Kind}
    (hkind : kind.isScope = true) (aliased : Bool) (run : Run) :
    Waiting Q (beginRecord kind aliased run scope).1 ∧
      (beginRecord kind aliased run scope).2.Everywhere (Node.Commented Q) := by
  unfold beginRecord
  extract_lets c attrs node begun
  have hnode : node.Everywhere (Node.Commented Q) :=
    everywhere_commented_describeWith (everywhere_commented_leaf rfl)
      (Kind.not_isCommented_of_isScope hkind) h.context.comment
  have hscope : node.kind.isScope = true := by
    rw [show node.kind = kind from kind_describe _ _]
    exact hkind
  have hbegun : begun.Commented Q := commented_beginDefinition h aliased run
  have hcommit := hbegun.commitNamed (sound_beginDefinition hs aliased run c.comment).sound hnode
    (recordable_of_isScope hscope)
  rcases he : begun.commitNamed node with ⟨t, path⟩
  rw [he] at hcommit
  dsimp only at hcommit ⊢
  refine ⟨.of_commented hcommit
    { hcommit.context with record := fun n hn => commented_placeOf hnode hn } rfl, ?_⟩
  unfold placeOf
  split
  · rename_i i
    simp only [Place.node?]
    cases hi : t.node.children[i]? with
    | none => exact hnode
    | some m => exact hcommit.node.child (List.mem_of_getElem? hi)
  · exact hnode

theorem commented_beginNameSpace (h : scope.Commented Q) (hs : scope.Sound) (name : String) :
    Waiting Q (beginNameSpace name scope).1 ∧
      (beginNameSpace name scope).2.1.Everywhere (Node.Commented Q) := by
  unfold beginNameSpace
  extract_lets comment updated node
  have hupdated : Waiting Q updated :=
    .of_commented h { h.context with comment := nofun, runComment := nofun } rfl
  have hsupdated : updated.Sound := (hs.update (hs.context.forgetClaim.of_refs rfl)).sound
  split
  · rename_i i _
    refine ⟨hupdated, ?_⟩
    cases hi : updated.node.get? [i] with
    | none => exact everywhere_commented_leaf rfl
    | some m => exact hupdated.node.get? hi
  · have hnode : node.Everywhere (Node.Commented Q) :=
      everywhere_commented_describeWith (everywhere_commented_leaf rfl) rfl h.context.comment
    have hkind : node.kind = .nameSpace := kind_describe _ _
    have hcommit : Waiting Q (updated.commit node).1 :=
      ⟨hupdated.commit hsupdated hnode (recordable_of_kind .nameSpace hkind (by decide)),
        claims_commit hupdated.unclaimed node⟩
    exact ⟨hcommit, hnode⟩

theorem commented_openEnumeration (h : scope.Commented Q) (hs : scope.Sound) (aliased : Bool)
    (run : Run) : (openEnumeration aliased run scope).Commented Q := by
  unfold State.openEnumeration
  extract_lets c name node typeAlias begun
  have hnode : node.Everywhere (Node.Commented Q) :=
    everywhere_commented_describeWith (everywhere_commented_leaf rfl) rfl h.context.comment
  have hkind : node.kind = .enumType := kind_describe _ _
  have hbegun : begun.Commented Q := commented_beginDefinition h aliased run
  have hcommit := hbegun.commitNamed (sound_beginDefinition hs aliased run c.comment).sound hnode
    (recordable_of_kind .enumType hkind (by decide))
  exact hcommit.update
    ⟨{ hcommit.context with enumeration := fun n hn => commented_placeOf hnode hn },
      hcommit.claims⟩

/-! ## States -/

/-- The text of a block comment, from its characters backwards. -/
def blockText (text : List Char) : String :=
  String.ofList (trimEnd (dropEndWhile (· == '*') (trimEnd text.reverse)))

/-- The text of a line comment, from its characters backwards. -/
def lineText (text : List Char) : String :=
  String.ofList (trim (text.reverse.dropWhile fun c => c == '/' || c == '!'))

inductive EndsComment (s : State) (c : Char) : String → Prop
  | block {text : List Char} {lineStart : Bool}
      (hmode : s.mode = .blockComment ('*' :: text) lineStart) (hc : c = '/') :
      EndsComment s c (blockText text)
  | star {text : List Char} (hmode : s.mode = .blockStar text) (hc : c = '/') :
      EndsComment s c (blockText text)
  | line {text : List Char} (hmode : s.mode = .lineComment text) (hc : c = '\n') :
      EndsComment s c (lineText text)

/-- The descriptions of the open scopes come from comments. -/
structure Commented (Q : String → Prop) (s : State) : Prop where
  scope : s.scope.Commented Q
  enclosing : ∀ outer ∈ s.enclosing, Waiting Q outer

theorem Commented.enter (h : s.Commented Q) (mode : Mode) : (s.enter mode).Commented Q :=
  ⟨h.scope, h.enclosing⟩

theorem Commented.update (h : s.Commented Q) {f : OpenScope → OpenScope}
    (hf : (f s.scope).Commented Q) : (s.update f).Commented Q :=
  ⟨hf, h.enclosing⟩

theorem Commented.updateContext (h : s.Commented Q) {f : Context → Context}
    (hf : (f s.scope.context).Commented Q s.scope.node) : (s.update (·.update f)).Commented Q :=
  h.update (h.scope.update hf)

theorem Commented.updatePasses (h : s.Commented Q) {f : Context → Context}
    (hf : s.scope.context.Passes (f s.scope.context)) : (s.update (·.update f)).Commented Q :=
  h.update (h.scope.update_passes hf)

/-! ### Braces -/

theorem Commented.push (h : s.Commented Q) (hscope : Waiting Q scope) {node : Node}
    (hn : node.Everywhere (Node.Commented Q)) (origin : Origin) :
    (State.push node origin { s with scope }).Commented Q := by
  refine ⟨commented_begin hn origin, fun outer houter => ?_⟩
  rcases List.mem_cons.mp houter with rfl | houter
  · exact hscope
  · exact h.enclosing outer houter

theorem Commented.pop (h : s.Commented Q) (hs : s.Sound root) : s.pop.Commented Q := by
  unfold State.pop
  split
  · rename_i context suspended hsuspended
    have hmem : ∀ c ∈ context :: suspended, c ∈ s.scope.suspended := fun c hc => hsuspended ▸ hc
    have hw : Waiting Q { s.scope with context, suspended } := by
      refine waiting_of_described ⟨h.scope.node, fun c hc => ?_⟩ ?_ fun c hc => ?_
      · exact h.scope.contexts c (List.mem_cons_of_mem _ (hmem c hc))
      · exact h.scope.suspended context (hmem _ (List.mem_cons_self ..))
      · exact h.scope.suspended c (hmem c (List.mem_cons_of_mem _ hc))
    exact ⟨hw.toCommented, h.enclosing⟩
  · rename_i outer enclosing _ henclosing
    have hstack := hs
    rw [State.Sound, henclosing] at hstack
    have hmem : ∀ t ∈ outer :: enclosing, Waiting Q t := fun t ht =>
      h.enclosing t (henclosing ▸ ht)
    exact ⟨commented_putBack h.scope.node hstack.1 (hmem _ (List.mem_cons_self ..))
      hstack.2.2.sound, fun t ht => hmem t (List.mem_cons_of_mem _ ht)⟩
  · exact h

theorem Commented.openBlock (h : s.Commented Q) {f : OpenScope → OpenScope}
    (hf : (f s.scope).Commented Q) : (s.openBlock f).Commented Q :=
  h.update (hf.update ⟨{ hf.context with }, nofun⟩)

theorem Commented.openLinkage (h : s.Commented Q) : s.openLinkage.Commented Q := by
  have houter : Context.Described Q { s.scope.context.dropRun with claim := none } :=
    { h.scope.context with runComment := nofun }
  refine h.update ⟨⟨h.scope.node, fun c hc => ?_⟩, nofun, fun c hc => ?_⟩
  · rcases List.mem_cons.mp hc with rfl | hc
    · exact (Context.commented_ofScope s.scope.node s.scope.node).toDescribed
    · rcases List.mem_cons.mp hc with rfl | hc
      · exact houter
      · exact h.scope.contexts c (List.mem_cons_of_mem _ hc)
  · rcases List.mem_cons.mp hc with rfl | hc
    · rfl
    · exact h.scope.suspended c hc

theorem Commented.openBrace (h : s.Commented Q) (hs : s.Sound root) : s.openBrace.Commented Q := by
  have hsound := hs.sound
  refine s.openBrace_cases ?header ?record ?nameSpace ?enumeration ?linkage ?block
  case header =>
    intro head hhead
    exact h.openBlock (h.scope.commitHeader hsound (hsound.context.header head hhead)
      (h.scope.context.header head hhead))
  case record =>
    intro kind hkind
    rw [openRecord_eq]
    obtain ⟨hscope, hnode⟩ :=
      commented_beginRecord h.scope hsound (isScope_of_recordKind? hkind) _ _
    exact h.push hscope hnode _
  case nameSpace =>
    intro name rest _
    rw [openNameSpace_eq]
    obtain ⟨hscope, hnode⟩ := commented_beginNameSpace h.scope hsound name
    exact h.push hscope hnode _
  case enumeration => exact h.openBlock (commented_openEnumeration h.scope hsound _ _)
  case linkage => exact h.openLinkage
  case block => exact h.openBlock (h.scope.update_passes (Context.passes_dropRun _))

theorem Commented.closeBrace (h : s.Commented Q) (hs : s.Sound root) :
    s.closeBrace.Commented Q := by
  rw [closeBrace_eq]
  split
  · exact h.updateContext (h.scope.context.afterBlock.commented (Context.claims_afterBlock _))
  · exact (h.updateContext (h.scope.context.afterBody.commented rfl)).pop
      (hs.update fun hs => hs.update hs.context.afterBody)

/-! ### Characters -/

theorem Commented.mark (h : s.Commented Q) (hs : s.Sound root) (c : Char) :
    (s.mark c).Commented Q := by
  refine mark_cases c ?begins ?openBrace ?closeBrace ?openParen ?closeParen ?semicolon ?comma
    ?equals ?sign ?ampersand ?colon ?other
  case begins => exact fun mode _ => h.enter mode
  case openBrace => exact fun _ => h.openBrace hs
  case closeBrace => exact fun _ => h.closeBrace hs
  case openParen => exact fun _ => h.updatePasses (Context.passes_openParen _)
  case closeParen => exact fun _ => h.updateContext h.scope.current.closeParen
  case semicolon => exact fun _ => h.update (h.scope.semicolon hs.sound)
  case comma => exact fun _ => h.updateContext h.scope.current.comma
  case equals => exact fun _ => h.updatePasses (Context.passes_equals _)
  case sign => exact fun _ => h.updatePasses (Context.passes_pushMark _ _)
  case ampersand =>
    exact fun _ => h.updatePasses
      ((Context.passes_startRun _).trans (Context.passes_pushIfStarted _ _ _))
  case colon => exact fun _ => h.updatePasses (Context.passes_pushIfStarted _ _ _)
  case other => exact fun _ _ => h

theorem Commented.endLine (h : s.Commented Q) : (s.update (·.update .endLine)).Commented Q :=
  h.updateContext (h.scope.current.withClaim nofun)

theorem Commented.plain (h : s.Commented Q) (hs : s.Sound root) (c : Char) :
    (s.plain c).Commented Q := by
  refine plain_cases c ?newline ?space ?slash ?mark
  case newline => exact fun _ => h.updateContext ⟨{ h.scope.context with }, nofun⟩
  case space => exact fun _ => h
  case slash => exact fun _ => h.enter .slash
  case mark =>
    exact fun _ _ => (h.updatePasses ⟨rfl, .inr rfl, .inr rfl⟩).mark (hs.update_refs rfl) c

/-- What is asked of the property of comments: it is kept where line comments are joined. -/
def Joins (Q : String → Prop) : Prop :=
  ∀ first second, Q first → Q second → Q (first ++ "\n" ++ second)

theorem Commented.endComment (h : s.Commented Q) (hs : s.Sound root) (hj : Joins Q)
    {text : List Char} (ht : Q (String.ofList text)) (line : Bool) :
    (s.endComment text line).Commented Q :=
  (h.enter .plain).update (h.scope.takeComment hs.sound hj ht line)

/-- Reading a character, with which no comment ends that lacks the property. -/
theorem Commented.step (h : s.Commented Q) (hs : s.Sound root) (hj : Joins Q) {c : Char}
    (hp : ∀ raw, s.EndsComment c raw → Q raw) : (s.step c).Commented Q := by
  have hplain : (s.enter .plain).Commented Q := h.enter .plain
  obtain ⟨a, ha, hstep⟩ := s.step_acts c
  rw [hstep]
  cases a with
  | turn mode => exact h.enter mode
  | code => exact h.plain hs c
  | slash =>
    let unjoined : Context := { s.scope.context with joinable := false }
    have hunjoined : s.scope.context.Passes unjoined := ⟨rfl, .inr rfl, .inr rfl⟩
    have hpushed := hunjoined.trans (Context.passes_pushMark unjoined "/")
    refine Commented.plain (hplain.updatePasses ?_) (Sound.update_refs (hs.enter .plain) ?_) c
    · exact hpushed
    · exact hpushed.refs
  | word text =>
    exact Commented.plain (hplain.update (h.scope.word hs.sound _ c))
      (Sound.update (hs.enter .plain) fun hs => hs.word _ c) c
  | blockComment text =>
    refine h.endComment hs hj (hp _ ?_) false
    cases ha with
    | block hmode hc => exact .block hmode hc
    | star hmode hc => exact .star hmode hc
  | lineComment text =>
    cases ha with | line hmode hc
    exact (h.endComment hs hj (hp _ (.line hmode hc)) true).endLine
  | directive => exact hplain.endLine
  | literal text => exact hplain.updatePasses (Context.passes_pushIfStarted _ _ true)

/-- Reading a text in which no comment ends that lacks the property. -/
theorem Commented.run (h : s.Commented Q) (hs : s.Sound root) (hj : Joins Q) {source : List Char}
    (hp : ∀ before c after, source = before ++ c :: after →
      ∀ raw, (s.run before).EndsComment c raw → Q raw) : (s.run source).Commented Q := by
  induction source generalizing s with
  | nil => exact h
  | cons c source ih =>
    refine ih (h.step hs hj (hp [] c source rfl)) (hs.step c) fun before d after he => ?_
    exact hp (c :: before) d after (congrArg (c :: ·) he)

theorem commented_unwind {scope : OpenScope} {enclosing : List OpenScope}
    (hs : Stacked root scope enclosing) (h : scope.node.Everywhere (Node.Commented Q))
    (henclosing : ∀ outer ∈ enclosing, Waiting Q outer) :
    (unwind scope enclosing).node.Everywhere (Node.Commented Q) := by
  induction enclosing generalizing scope with
  | nil => exact h
  | cons outer enclosing ih =>
    obtain ⟨hsound, hfits, hrest⟩ := hs
    refine ih (hrest.continues (putBack_continues hsound hrest.sound hfits)) ?_ fun t ht =>
      henclosing t (List.mem_cons_of_mem _ ht)
    exact (commented_putBack h hsound (henclosing outer (List.mem_cons_self ..))
      hrest.sound).node

end State

/-! ## Whole sources -/

/-- Reading a source in which no comment ends that lacks the property. -/
theorem scan_commented {tree : Node} (hs : tree.kind.isScope = true) (hk : tree.Kept)
    (h : tree.Everywhere (Node.Commented Q)) (hj : State.Joins Q) {source : String}
    (hp : ∀ before c after, source.toList = before ++ c :: after →
      ∀ raw, ((State.start tree).run before).EndsComment c raw → Q raw) :
    (scan source tree).Everywhere (Node.Commented Q) := by
  have hsound := State.sound_start hs hk
  have hstart : (State.start tree).Commented Q := 
    ⟨State.commented_begin h .source, List.forall_mem_nil _⟩
  have hrun := hstart.run hsound hj hp
  exact State.commented_unwind (hsound.run source.toList) hrun.scope.node hrun.enclosing

/-- A comment of the sources, which are read one after another, or several line comments that have
been joined. -/
inductive CommentOf (sources : List String) : String → Prop
  | read {earlier later : List String} {source raw : String} {before after : List Char} {c : Char}
      (hsources : sources = earlier ++ source :: later)
      (hsource : source.toList = before ++ c :: after)
      (hends : ((State.start (scanEach earlier .empty)).run before).EndsComment c raw) :
      CommentOf sources raw
  | joined {first second : String} (hfirst : CommentOf sources first)
      (hsecond : CommentOf sources second) : CommentOf sources (first ++ "\n" ++ second)

/-- Every description in a tree that sources are read into comes from their comments. -/
theorem scanEach_commented (sources : List String) :
    (scanEach sources .empty).Everywhere (Node.Commented (CommentOf sources)) := by
  have hall : ∀ read left, sources = read ++ left →
      (scanEach read .empty).Everywhere (Node.Commented (CommentOf sources)) := by
    intro read
    induction read using List.reverseRecOn with
    | nil => exact fun _ _ => everywhere_commented_leaf rfl
    | append_singleton read source ih =>
      intro left he
      rw [List.append_assoc] at he
      obtain ⟨hkept, hkind⟩ := scanEach_kept read rfl (State.kept_leaf .root {})
      have hscan := scan_commented (hkind ▸ rfl) hkept (ih _ he) (fun _ _ => .joined)
        fun before c after hsource raw => CommentOf.read he hsource
      rwa [scanEach, List.foldl_append]
  exact hall sources [] (List.append_nil _).symm

end HeaderDocs.Scan
