import HeaderDocs.Proofs.Comment.Marker
import HeaderDocs.Proofs.Scan.Arrangement
import HeaderDocs.Proofs.Scan.Written

/-!
# What the trees of sources are made of

While a source is read, words and literals end and are taken into declarations (`State.Ends`), and
comments are handed on. What all of these have in common is found in the open scopes
(`State.Written`), and in the tree that the source is read into.

* `Written.step`, `Written.run`: reading a character, and a text.
* `scan_written`: reading a whole source.
-/
namespace HeaderDocs.Scan

open HeaderDocs.Node HeaderDocs.Text

variable {P Q : String → Prop} {R : Char → Prop} {root : Kind × Option String}

namespace State

open OpenScope

variable {s : State} {inner outer scope : OpenScope}

/-! ## Scopes -/

theorem written_begin {node : Node} (h : node.Everywhere (Node.Written P Q)) (origin : Origin) :
    OpenScope.Written P Q (begin node origin) := by
  refine ⟨h, fun c hc => ?_⟩
  rw [List.mem_singleton.mp hc]
  exact Context.written_ofScope node

theorem written_putBack (hi : inner.Written P Q) (ho : outer.Written P Q) (hs : outer.Sound) :
    (putBack inner outer).Written P Q := by
  have hreplace : ∀ i : Nat,
      Written P Q (OpenScope.modifyAt (fun _ => inner.node) [i]
        { outer with events := outer.events ++ inner.events }) := fun i =>
    ⟨everywhere_written_replace ho.node hs.scope hi.node i, ho.contexts⟩
  have hevents : Written P Q { outer with events := outer.events ++ inner.events } :=
    ⟨ho.node, ho.contexts⟩
  unfold putBack
  dsimp only
  split
  · exact hevents
  · split
    · split
      · exact hreplace _
      · exact (hreplace _).removeAt _
    · refine hevents.updateRecord ?_
      rintro _ ⟨⟩
      exact hi.node
    · exact hevents
  · exact hreplace _
  · exact hevents

theorem written_beginDefinition (h : scope.Written P Q) (hl : Lexicon P Q) (aliased : Bool)
    {run : Run} (hr : run.Each P) :
    Written P Q (scope.update fun c =>
      let c := if aliased then { c with run := run.closeUp } else c.dropRun
      { c.takeComment with typeAlias := aliasOf aliased scope.context.comment }) := by
  have halias : ∀ n, aliasOf aliased scope.context.comment = some n →
      n.Everywhere (Node.Written P Q) := by
    intro n hn
    unfold aliasOf at hn
    split at hn
    · cases hn
      exact hl.describeIf h.context.comment (everywhere_written_leaf rfl)
    · cases hn
  refine h.update ?_
  cases aliased with
  | true => exact { h.context.takeComment with run := hr.closeUp, typeAlias := halias }
  | false => exact { h.context.dropRun.takeComment with typeAlias := halias }

theorem written_beginRecord (h : scope.Written P Q) (hs : scope.Sound) (hl : Lexicon P Q)
    (kind : Kind) (aliased : Bool) {run : Run} (hr : run.Each P) :
    (beginRecord kind aliased run scope).1.Written P Q ∧
      (beginRecord kind aliased run scope).2.Everywhere (Node.Written P Q) := by
  unfold beginRecord
  extract_lets c attrs node begun
  have hnode : node.Everywhere (Node.Written P Q) :=
    hl.describeWith h.context.comment (everywhere_written_leaf rfl)
  have hbegun : begun.Written P Q := written_beginDefinition h hl aliased hr
  have hcommit := hbegun.commitNamed (sound_beginDefinition hs aliased run c.comment).sound hnode
  rcases he : begun.commitNamed node with ⟨t, path⟩
  rw [he] at hcommit
  dsimp only at hcommit ⊢
  refine ⟨hcommit.update { hcommit.context with record := fun n hn => written_placeOf hnode hn }, ?_⟩
  unfold placeOf
  split
  · rename_i i
    simp only [Place.node?]
    cases hi : t.node.children[i]? with
    | none => exact hnode
    | some m => exact hcommit.node.child (List.mem_of_getElem? hi)
  · exact hnode

theorem written_beginNameSpace (h : scope.Written P Q) (hs : scope.Sound) (hl : Lexicon P Q)
    (name : String) :
    (beginNameSpace name scope).1.Written P Q ∧
      (beginNameSpace name scope).2.1.Everywhere (Node.Written P Q) := by
  unfold beginNameSpace
  extract_lets comment updated node
  have hupdated : updated.Written P Q := h.update { h.context.takeComment.dropRun with }
  have hsupdated : updated.Sound := (hs.update (hs.context.forgetClaim.of_refs rfl)).sound
  split
  · rename_i i _
    refine ⟨hupdated, ?_⟩
    cases hi : updated.node.get? [i] with
    | none => exact everywhere_written_leaf rfl
    | some m => exact hupdated.node.get? hi
  · have hnode : node.Everywhere (Node.Written P Q) :=
      hl.describeWith h.context.comment (everywhere_written_leaf rfl)
    exact ⟨hupdated.commit hsupdated hnode, hnode⟩

theorem written_openEnumeration (h : scope.Written P Q) (hs : scope.Sound) (hl : Lexicon P Q)
    (aliased : Bool) {run : Run} (hr : run.Each P) :
    (openEnumeration aliased run scope).Written P Q := by
  unfold State.openEnumeration
  extract_lets c name node typeAlias begun
  have hnode : node.Everywhere (Node.Written P Q) :=
    hl.describeWith h.context.comment (everywhere_written_leaf rfl)
  have hbegun : begun.Written P Q := written_beginDefinition h hl aliased hr
  have hcommit := hbegun.commitNamed (sound_beginDefinition hs aliased run c.comment).sound hnode
  exact hcommit.update { hcommit.context with
    enumeration := fun n hn => written_placeOf hnode hn }

/-! ## States -/

/-- A word or literal ends with the character. -/
inductive Ends (s : State) (c : Char) : String → Prop
  | word {text : List Char} (hmode : s.mode = .word text)
      (hc : isWordPart s.scope.context.parens c = false) : Ends s c (String.ofList text.reverse)
  | literal {quote : Char} {text : List Char} (hmode : s.mode = .literal quote text)
      (hc : c = quote) (hescape : c ≠ '\\') : Ends s c (String.ofList (c :: text).reverse)

end State

namespace State

open OpenScope

variable {s : State}

/-- What the open scopes are made of, and the comment that is being read. -/
structure Written (P : String → Prop) (R : Char → Prop) (s : State) : Prop where
  scopes : ∀ scope ∈ s.scope :: s.enclosing, scope.Written P (Made R)
  comment : ∀ c ∈ s.mode.comment, R c

theorem Written.scope (h : s.Written P R) : s.scope.Written P (Made R) :=
  h.scopes _ (List.mem_cons_self ..)

theorem Written.enter (h : s.Written P R) {mode : Mode} (hm : ∀ c ∈ mode.comment, R c) :
    (s.enter mode).Written P R :=
  ⟨h.scopes, hm⟩

theorem Written.withScope (h : s.Written P R) {scope : OpenScope}
    (hs : scope.Written P (Made R)) : Written P R { s with scope } := by
  refine ⟨fun t ht => ?_, h.comment⟩
  rcases List.mem_cons.mp ht with rfl | ht
  · exact hs
  · exact h.scopes t (List.mem_cons_of_mem _ ht)

theorem Written.update (h : s.Written P R) {f : OpenScope → OpenScope}
    (hf : (f s.scope).Written P (Made R)) : (s.update f).Written P R :=
  h.withScope hf

theorem Written.updateContext (h : s.Written P R) {f : Context → Context}
    (hf : (f s.scope.context).Written P (Made R)) : (s.update (·.update f)).Written P R :=
  h.update (h.scope.update hf)

/-! ### Braces -/

theorem Written.push (h : s.Written P R) {node : Node}
    (hn : node.Everywhere (Node.Written P (Made R))) (origin : Origin) :
    (s.push node origin).Written P R := by
  refine ⟨fun t ht => ?_, h.comment⟩
  rcases List.mem_cons.mp ht with rfl | ht
  · exact written_begin hn origin
  · exact h.scopes t ht

theorem Written.pop (h : s.Written P R) (hs : s.Sound root) : s.pop.Written P R := by
  unfold State.pop
  split
  · rename_i context suspended hsuspended
    refine h.withScope ⟨h.scope.node, fun c hc => ?_⟩
    exact h.scope.contexts c (List.mem_cons_of_mem _ (hsuspended ▸ hc))
  · rename_i outer enclosing _ henclosing
    have hstack := hs
    rw [State.Sound, henclosing] at hstack
    have houter : outer.Written P (Made R) := h.scopes outer (by simp [henclosing])
    refine ⟨fun t ht => ?_, h.comment⟩
    rcases List.mem_cons.mp ht with rfl | ht
    · exact written_putBack h.scope houter hstack.2.2.sound
    · exact h.scopes t (by simp [henclosing, show t ∈ enclosing from ht])
  · exact h

theorem Written.openBlock (h : s.Written P R) {f : OpenScope → OpenScope}
    (hf : (f s.scope).Written P (Made R)) : (s.openBlock f).Written P R :=
  h.update (hf.update { hf.context with })

theorem Written.openLinkage (h : s.Written P R) : s.openLinkage.Written P R := by
  refine h.update ⟨h.scope.node, fun c hc => ?_⟩
  rcases List.mem_cons.mp hc with rfl | hc
  · exact Context.written_ofScope _
  · rcases List.mem_cons.mp hc with rfl | hc
    · exact h.scope.context.dropRun.withClaim none
    · exact h.scope.contexts c (List.mem_cons_of_mem _ hc)

theorem Written.openBrace (h : s.Written P R) (hs : s.Sound root) (hl : Lexicon P (Made R)) :
    s.openBrace.Written P R := by
  have hsound := hs.sound
  have hrun : (splitAlias s.scope.context.run).2.Each P :=
    h.scope.context.run.subset (splitAlias_sublist _).subset
  refine s.openBrace_cases ?header ?record ?nameSpace ?enumeration ?linkage ?block
  case header =>
    intro head hhead
    exact h.openBlock (h.scope.commitHeader hsound (hsound.context.header head hhead)
      (h.scope.context.header head hhead))
  case record =>
    intro kind _
    rw [openRecord_eq]
    obtain ⟨hscope, hnode⟩ := written_beginRecord h.scope hsound hl kind _ hrun
    exact (h.withScope hscope).push hnode _
  case nameSpace =>
    intro name rest _
    rw [openNameSpace_eq]
    obtain ⟨hscope, hnode⟩ := written_beginNameSpace h.scope hsound hl name
    exact (h.withScope hscope).push hnode _
  case enumeration => exact h.openBlock (written_openEnumeration h.scope hsound hl _ hrun)
  case linkage => exact h.openLinkage
  case block => exact h.openBlock (h.scope.update h.scope.context.dropRun)

theorem Written.closeBrace (h : s.Written P R) (hs : s.Sound root) : s.closeBrace.Written P R := by
  rw [closeBrace_eq]
  split
  · exact h.updateContext h.scope.context.afterBlock
  · exact (h.updateContext h.scope.context.afterBody).pop
      (hs.update fun hs => hs.update hs.context.afterBody)

/-! ### Characters -/

theorem Written.mark (h : s.Written P R) (hs : s.Sound root) (hl : Lexicon P (Made R))
    (c : Char) : (s.mark c).Written P R := by
  have hc := h.scope.context
  have hfunction := function_header hs.sound
  refine mark_cases c ?begins ?openBrace ?closeBrace ?openParen ?closeParen ?semicolon ?comma
    ?equals ?sign ?ampersand ?colon ?other
  case begins =>
    intro mode hmode
    exact h.enter (by cases hmode <;> exact nofun)
  case openBrace => exact fun _ => h.openBrace hs hl
  case closeBrace => exact fun _ => h.closeBrace hs
  case openParen => exact fun _ => h.updateContext (hc.openParen hl)
  case closeParen => exact fun _ => h.updateContext (hc.closeParen hl hfunction)
  case semicolon => exact fun _ => h.update (h.scope.semicolon hs.sound hl)
  case comma => exact fun _ => h.updateContext (hc.comma hl hfunction)
  case equals => exact fun _ => h.updateContext (hc.equals hl)
  case sign =>
    rintro (rfl | rfl | rfl) <;> exact h.updateContext (hc.pushMark (hl.marks _ (by decide)))
  case ampersand => exact fun _ => h.updateContext (hc.pushFragment (hl.marks "&" (by decide)) true)
  case colon => exact fun _ => h.updateContext (hc.pushIfStarted (hl.marks ":" (by decide)) true)
  case other => exact fun _ _ => h

theorem Written.endLine (h : s.Written P R) : (s.update (·.update .endLine)).Written P R :=
  h.updateContext (h.scope.context.withClaim none)

theorem Written.plain (h : s.Written P R) (hs : s.Sound root) (hl : Lexicon P (Made R))
    (c : Char) : (s.plain c).Written P R := by
  refine plain_cases c ?newline ?space ?slash ?mark
  case newline => exact fun _ => h.updateContext { h.scope.context with }
  case space => exact fun _ => h
  case slash => exact fun _ => h.enter nofun
  case mark =>
    exact fun _ _ =>
      (h.updateContext (h.scope.context.withJoinable false)).mark (hs.update_refs rfl) hl c

theorem Written.endComment (h : s.Written P R) (hl : Lexicon P (Made R)) {text : List Char}
    (ht : ∀ c ∈ text, R c) (line : Bool) : (s.endComment text line).Written P R :=
  Written.update (s := s.enter .plain) (h.enter nofun) (h.scope.takeComment hl (made_ofList ht) line)

theorem Written.endBlockComment (h : s.Written P R) (hl : Lexicon P (Made R)) {text : List Char}
    (ht : ∀ c ∈ text, R c) : (s.endBlockComment text).Written P R := by
  refine h.endComment hl (fun c hc => ht c ?_) false
  have hstart := (trimEnd_isPrefix _).trans
    ((dropEndWhile_isPrefix (· == '*') _).trans (trimEnd_isPrefix text.reverse))
  exact List.mem_reverse.mp (hstart.subset hc)

theorem Written.endLineComment (h : s.Written P R) (hl : Lexicon P (Made R)) {text : List Char}
    (ht : ∀ c ∈ text, R c) : (s.endLineComment text).Written P R := by
  refine (h.endComment hl (fun c hc => ht c ?_) true).endLine
  have hkept := (trimStart_suffix _).subset ((trimEnd_isPrefix _).subset hc)
  exact List.mem_reverse.mp ((List.dropWhile_suffix _).subset hkept)

/-- Reading a character, with which no word or literal ends that lacks the property. -/
theorem Written.step (h : s.Written P R) (hs : s.Sound root) (hl : Lexicon P (Made R)) {c : Char}
    (hc : R c) (hp : ∀ text, s.Ends c text → P text) : (s.step c).Written P R := by
  have hplain : (s.enter .plain).Written P R := h.enter nofun
  have hcomment := h.comment
  obtain ⟨a, ha, hstep⟩ := s.step_acts c
  rw [hstep]
  cases a with
  | turn mode =>
    refine h.enter fun d hd => ?_
    cases ha with
    | part => cases hd
    | outside _ hnext => exact (hnext.comment d hd).elim (fun he => he ▸ hc) (hcomment d)
  | code => exact h.plain hs hl c
  | slash =>
    have hpushed := (h.scope.context.withJoinable false).pushMark (hl.marks "/" (by decide))
    exact (hplain.updateContext hpushed).plain
      ((hs.enter .plain).update_refs ((Context.refs_pushMark _ _).trans rfl)) hl c
  | word text =>
    cases ha with | word hmode hpart
    have hword := hp _ (.word hmode hpart)
    exact (hplain.update (h.scope.word hs.sound hl hword c)).plain
      ((hs.enter .plain).update fun hs => hs.word _ c) hl c
  | blockComment text =>
    refine h.endBlockComment hl fun d hd => hcomment d ?_
    cases ha with
    | block hmode => exact hmode ▸ List.mem_cons_of_mem _ hd
    | star hmode => exact hmode ▸ hd
  | lineComment text =>
    cases ha with | line hmode
    exact h.endLineComment hl fun d hd => hcomment d (hmode ▸ hd)
  | directive => exact hplain.endLine
  | literal text =>
    cases ha with | literal hmode hquote hescape
    have htext := hp _ (.literal hmode hquote hescape)
    exact hplain.updateContext (h.scope.context.pushIfStarted htext true)

/-- Reading a text in which no word or literal ends that lacks the property. -/
theorem Written.run (h : s.Written P R) (hs : s.Sound root) (hl : Lexicon P (Made R))
    {source : List Char} (hR : ∀ c ∈ source, R c)
    (hp : ∀ before c after, source = before ++ c :: after →
      ∀ text, (s.run before).Ends c text → P text) : (s.run source).Written P R := by
  induction source generalizing s with
  | nil => exact h
  | cons c source ih =>
    refine ih (h.step hs hl (hR c (List.mem_cons_self ..)) (hp [] c source rfl)) (hs.step c)
      (fun d hd => hR d (List.mem_cons_of_mem _ hd)) fun before d after he => ?_
    exact hp (c :: before) d after (congrArg (c :: ·) he)

theorem written_start {tree : Node} (h : tree.Everywhere (Node.Written P (Made R))) :
    (State.start tree).Written P R := by
  refine ⟨fun scope hscope => ?_, nofun⟩
  rw [List.mem_singleton.mp hscope]
  exact written_begin h .source

theorem written_unwind {scope : OpenScope} {enclosing : List OpenScope}
    (hs : Stacked root scope enclosing)
    (h : ∀ t ∈ scope :: enclosing, OpenScope.Written P Q t) :
    (unwind scope enclosing).node.Everywhere (Node.Written P Q) := by
  induction enclosing generalizing scope with
  | nil => exact (h scope (List.mem_cons_self ..)).node
  | cons outer enclosing ih =>
    obtain ⟨hsound, hfits, hrest⟩ := hs
    refine ih (hrest.continues (putBack_continues hsound hrest.sound hfits)) fun t ht => ?_
    rcases List.mem_cons.mp ht with rfl | ht
    · exact written_putBack (h scope (List.mem_cons_self ..)) (h outer (by simp)) hrest.sound
    · exact h t (by simp [ht])

end State

/-! ## Whole sources -/

/-- All words and literals that end in a source have the property, whatever tree it is read into. -/
def Spelled (P : String → Prop) (source : String) : Prop :=
  ∀ (tree : Node) (before : List Char) (c : Char) (after : List Char),
    source.toList = before ++ c :: after →
      ∀ text, ((State.start tree).run before).Ends c text → P text

theorem scan_written {tree : Node} (hs : tree.kind.isScope = true) (hk : tree.Kept)
    (h : tree.Everywhere (Node.Written P (Made R))) (hl : Lexicon P (Made R)) {source : String}
    (hR : Made R source) (hp : Spelled P source) :
    (scan source tree).Everywhere (Node.Written P (Made R)) := by
  have hsound := State.sound_start hs hk
  exact State.written_unwind (hsound.run source.toList)
    ((State.written_start h).run hsound hl hR (hp tree)).scopes

/-- Trees that sources are read into are made of the words and comments of these sources. -/
theorem scanEach_written (hl : Lexicon P (Made R)) {sources : List String}
    (hR : ∀ source ∈ sources, Made R source) (hp : ∀ source ∈ sources, Spelled P source) :
    (scanEach sources .empty).Everywhere (Node.Written P (Made R)) := by
  have hall : ∀ tree : Node, tree.kind.isScope = true → tree.Kept →
      tree.Everywhere (Node.Written P (Made R)) →
      (scanEach sources tree).Everywhere (Node.Written P (Made R)) := by
    induction sources with
    | nil => exact fun tree _ _ h => h
    | cons source sources ih =>
      intro tree hs hk h
      obtain ⟨hkept, hkind⟩ := scan_kept source hs hk
      refine ih (fun t ht => hR t (List.mem_cons_of_mem _ ht))
        (fun t ht => hp t (List.mem_cons_of_mem _ ht)) _ (hkind ▸ hs) hkept ?_
      exact scan_written hs hk h hl (hR source (List.mem_cons_self ..))
        (hp source (List.mem_cons_self ..))
  exact hall .empty rfl (State.kept_leaf .root {}) (everywhere_written_leaf rfl)

end HeaderDocs.Scan
