import HeaderDocs.Proofs.Scan.Arrangement
import HeaderDocs.Proofs.Scan.NamedScopes

/-!
# The names in the trees of sources

While a source is read, all names in the open scopes are declared ones, and so are those in the tree
that the source is read into.

* `State.Named.step`, `State.Named.run`: reading a character, and a text.
* `declared_scanEach`: whatever the sources are.
-/
namespace HeaderDocs.Scan

open HeaderDocs.Node

namespace State

open OpenScope

def Named (s : State) : Prop := ∀ scope ∈ s.scope :: s.enclosing, scope.Named

variable {s : State} {inner outer : OpenScope}

theorem named_begin {node : Node} (h : node.Declared) (origin : Origin) :
    OpenScope.Named (begin node origin) := by
  refine ⟨h, fun c hc => ?_⟩
  rw [List.mem_singleton.mp hc]
  exact Context.named_ofScope node

theorem named_putBack (hi : inner.Named) (ho : outer.Named) : (putBack inner outer).Named := by
  have hevents : OpenScope.Named { outer with events := outer.events ++ inner.events } :=
    ⟨ho.node, ho.contexts⟩
  have hreplace := fun i : Nat => hevents.modifyAt (fun _ _ => hi.node) [i]
  unfold putBack
  dsimp only
  split
  · exact hevents
  · split
    · split
      · exact hreplace _
      · exact (hreplace _).removeAt _
    · refine hevents.update { hevents.context with record := ?_ }
      rintro _ ⟨⟩
      exact hi.node
    · exact hevents
  · exact hreplace _
  · exact hevents

theorem named_beginDefinition {scope : OpenScope} (h : scope.Named) (aliased : Bool) {run : Run}
    (hr : run.Each IsLexeme) :
    OpenScope.Named (scope.update fun c =>
      let c := if aliased then { c with run := run.closeUp } else c.dropRun
      { c.takeComment with typeAlias := aliasOf aliased scope.context.comment }) := by
  have halias : ∀ n, aliasOf aliased scope.context.comment = some n → n.Declared := by
    intro n hn
    unfold aliasOf at hn
    split at hn
    · cases hn
      exact everywhere_named_describeIf (everywhere_named_leaf (named_of_none rfl) rfl) _
    · cases hn
  refine h.update ?_
  cases aliased with
  | true => exact { h.context with run := hr.closeUp, typeAlias := halias }
  | false => exact { h.context.dropRun with typeAlias := halias }

theorem named_definition {run : Run} (hr : run.Each IsLexeme) {f : String → String}
    (hf : ∀ text, IsLexeme text → IsLexeme (f text)) (kind : Kind) (base : Option String)
    (raw : String) :
    (Node.describe { kind, attrs := { name := (run.texts[1]?).map f, base } } raw).Declared := by
  refine everywhere_named_describe (everywhere_named_leaf (fun name hname => ?_) rfl) raw
  obtain ⟨word, hword, rfl⟩ := Option.map_eq_some_iff.mp hname
  obtain ⟨fragment, hfragment, rfl⟩ := List.mem_map.mp (List.mem_of_getElem? hword)
  exact (hf _ (hr fragment hfragment)).isDeclared

theorem named_beginRecord {scope : OpenScope} (h : scope.Named) (kind : Kind) (aliased : Bool)
    {run : Run} (hr : run.Each IsLexeme) :
    (beginRecord kind aliased run scope).1.Named ∧
      (beginRecord kind aliased run scope).2.Declared := by
  unfold beginRecord
  extract_lets c attrs node begun
  have hnode : node.Declared := named_definition hr (fun _ => IsLexeme.withoutColons) kind _ _
  have hbegun : begun.Named := named_beginDefinition h aliased hr
  have hcommit := hbegun.commitNamed hnode
  rcases he : begun.commitNamed node with ⟨t, path⟩
  rw [he] at hcommit
  dsimp only at hcommit ⊢
  refine ⟨hcommit.update { hcommit.context with record := fun n hn => named_placeOf hnode hn }, ?_⟩
  unfold placeOf
  split
  · rename_i i
    simp only [Place.node?]
    cases hi : t.node.children[i]? with
    | none => exact hnode
    | some m => exact hcommit.node.child (List.mem_of_getElem? hi)
  · exact hnode

theorem named_beginNameSpace {scope : OpenScope} (h : scope.Named) {name : String}
    (hname : IsDeclared name) :
    (beginNameSpace name scope).1.Named ∧ (beginNameSpace name scope).2.1.Declared := by
  unfold beginNameSpace
  extract_lets comment updated node
  have hupdated : updated.Named := h.update { h.context.dropRun with }
  have hleaf : (ofName .nameSpace name).Declared :=
    everywhere_named_leaf (named_of_some rfl hname) rfl
  split
  · rename_i i _
    refine ⟨hupdated, ?_⟩
    cases hi : updated.node.get? [i] with
    | none => exact hleaf
    | some m => exact hupdated.node.get? hi
  · have hnode : node.Declared := everywhere_named_describe hleaf _
    exact ⟨hupdated.commitTo [] hnode, hnode⟩

theorem named_openEnumeration {scope : OpenScope} (h : scope.Named) (aliased : Bool) {run : Run}
    (hr : run.Each IsLexeme) : (openEnumeration aliased run scope).Named := by
  unfold State.openEnumeration
  extract_lets c name node typeAlias begun
  have hnode : node.Declared := by
    have hnamed := named_definition hr (fun _ => id) .enumType none (c.comment.getD "")
    rwa [Option.map_id'] at hnamed
  have hbegun : begun.Named := named_beginDefinition h aliased hr
  have hcommit := hbegun.commitNamed hnode
  exact hcommit.update { hcommit.context with
    enumeration := fun n hn => named_placeOf hnode hn }

theorem Named.update (h : s.Named) {f : OpenScope → OpenScope} (hf : (f s.scope).Named) :
    (s.update f).Named := by
  intro t ht
  rcases List.mem_cons.mp ht with rfl | ht
  · exact hf
  · exact h t (List.mem_cons_of_mem _ ht)

theorem Named.scope (h : s.Named) : s.scope.Named := h _ (List.mem_cons_self ..)

theorem Named.updateContext (h : s.Named) {f : Context → Context} (hf : (f s.scope.context).Named) :
    (s.update (·.update f)).Named :=
  h.update (h.scope.update hf)

/-! ### Braces -/

theorem Named.push (h : s.Named) {node : Node} (hn : node.Declared)
    (origin : Origin) : (s.push node origin).Named := by
  intro t ht
  rcases List.mem_cons.mp ht with rfl | ht
  · exact named_begin hn origin
  · exact h t ht

theorem Named.pop (h : s.Named) : s.pop.Named := by
  unfold State.pop
  split
  · rename_i context suspended hsuspended
    refine Named.update (f := fun t => { t with context, suspended }) h ⟨h.scope.node, fun c hc => ?_⟩
    exact h.scope.contexts c (List.mem_cons_of_mem _ (hsuspended ▸ hc))
  · rename_i outer enclosing _ henclosing
    intro t ht
    rcases List.mem_cons.mp ht with rfl | ht
    · exact named_putBack h.scope (h outer (by simp [henclosing]))
    · exact h t (by simp [henclosing, show t ∈ enclosing from ht])
  · exact h

theorem Named.openBlock (h : s.Named) {f : OpenScope → OpenScope} (hf : (f s.scope).Named) :
    (s.openBlock f).Named :=
  h.update (hf.update { hf.context with })

theorem Named.openLinkage (h : s.Named) : s.openLinkage.Named := by
  refine h.update ⟨h.scope.node, fun c hc => ?_⟩
  rcases List.mem_cons.mp hc with rfl | hc
  · exact Context.named_ofScope _
  · rcases List.mem_cons.mp hc with rfl | hc
    · exact { h.scope.context.dropRun with }
    · exact h.scope.contexts c (List.mem_cons_of_mem _ hc)

theorem Named.openBrace (h : s.Named) : s.openBrace.Named := by
  have hrun : (splitAlias s.scope.context.run).2.Each IsLexeme :=
    h.scope.context.run.subset (splitAlias_sublist _).subset
  refine s.openBrace_cases ?header ?record ?nameSpace ?enumeration ?linkage ?block
  case header =>
    intro head hhead
    exact h.openBlock (h.scope.commitHeader (h.scope.context.header head hhead))
  case record =>
    intro kind _
    rw [openRecord_eq]
    obtain ⟨hscope, hnode⟩ := named_beginRecord h.scope kind _ hrun
    exact (h.update (f := fun _ => _) hscope).push hnode _
  case nameSpace =>
    intro name rest hwords
    rw [openNameSpace_eq]
    have hmem : name ∈ s.scope.context.run.texts := by simp [hwords]
    obtain ⟨fragment, hfragment, rfl⟩ := List.mem_map.mp hmem
    obtain ⟨hscope, hnode⟩ :=
      named_beginNameSpace h.scope (h.scope.context.run fragment hfragment).isDeclared
    exact (h.update (f := fun _ => _) hscope).push hnode _
  case enumeration => exact h.openBlock (named_openEnumeration h.scope _ hrun)
  case linkage => exact h.openLinkage
  case block => exact h.openBlock (h.scope.update h.scope.context.dropRun)

theorem Named.closeBrace (h : s.Named) : s.closeBrace.Named := by
  rw [closeBrace_eq]
  split
  · exact h.updateContext h.scope.context.afterBlock
  · exact (h.updateContext h.scope.context.afterBody).pop

/-! ### Characters -/

theorem Named.mark (h : s.Named) (c : Char) : (s.mark c).Named := by
  have hc := h.scope.context
  refine mark_cases c ?begins ?openBrace ?closeBrace ?openParen ?closeParen ?semicolon ?comma
    ?equals ?sign ?ampersand ?colon ?other
  case begins => exact fun _ _ => h
  case openBrace => exact fun _ => h.openBrace
  case closeBrace => exact fun _ => h.closeBrace
  case openParen => exact fun _ => h.updateContext hc.openParen
  case closeParen => exact fun _ => h.updateContext hc.closeParen
  case semicolon => exact fun _ => h.update h.scope.semicolon
  case comma => exact fun _ => h.updateContext hc.comma
  case equals => exact fun _ => h.updateContext hc.equals
  case sign =>
    rintro (rfl | rfl | rfl) <;> exact h.updateContext (hc.pushMark (isLexeme_mark (by decide)))
  case ampersand =>
    exact fun _ => h.updateContext (hc.startRun.pushIfStarted (isLexeme_mark (by decide)) true)
  case colon => exact fun _ => h.updateContext (hc.pushIfStarted (isLexeme_mark (by decide)) true)
  case other => exact fun _ _ => h

theorem Named.endLine (h : s.Named) : (s.update (·.update .endLine)).Named :=
  h.updateContext { h.scope.context with }

theorem Named.plain (h : s.Named) (c : Char) : (s.plain c).Named := by
  refine plain_cases c ?newline ?space ?slash ?mark
  case newline => exact fun _ => h.updateContext { h.scope.context with }
  case space => exact fun _ => h
  case slash => exact fun _ => h
  case mark =>
    exact fun _ _ =>
      (h.updateContext (f := ({ · with joinable := false })) { h.scope.context with }).mark c

theorem Named.endComment (h : s.Named) (text : List Char) (line : Bool) :
    (s.endComment text line).Named :=
  Named.update (s := s.enter .plain) h (h.scope.takeComment _ _)

/-- Reading a character behind a text, whose last word or literal may end with it. -/
theorem Named.step (h : s.Named) {before : List Char} (hread : s.mode.ReadAfter before) (c : Char) :
    (s.step c).Named := by
  have hplain : (s.enter .plain).Named := h
  obtain ⟨a, ha, hstep⟩ := s.step_acts c
  rw [hstep]
  cases a with
  | turn mode => exact h
  | code => exact h.plain c
  | slash =>
    refine Named.plain (hplain.updateContext ?_) c
    exact Context.Named.pushMark (c := { s.scope.context with joinable := false })
      { h.scope.context with } (isLexeme_mark (by decide))
  | word text =>
    cases ha with | word hmode hc
    rw [hmode] at hread
    obtain ⟨rest, -, -, hword⟩ := hread
    refine (hplain.update (h.scope.word ?_ c)).plain c
    exact made_ofList fun d hd => isIdChar_of_isWordPart (hword.parts d hd)
  | blockComment text => exact h.endComment _ _
  | lineComment text => exact (h.endComment _ true).endLine
  | directive => exact hplain.endLine
  | literal text =>
    cases ha with | @literal quote _ hmode hc hescape
    rw [hmode] at hread
    obtain ⟨hquote, hlast, -⟩ := hread
    refine hplain.updateContext (h.scope.context.pushIfStarted (.inr ⟨quote, ?_, ?_⟩) true)
    · simpa using hquote
    · rw [String.toList_ofList, List.head?_reverse, List.getLast?_cons, hlast]
      rfl

theorem Named.run (h : s.Named) {before : List Char} (hread : s.mode.ReadAfter before)
    (source : List Char) : (s.run source).Named := by
  induction source generalizing s before with
  | nil => exact h
  | cons c source ih => exact ih (h.step hread c) (readAfter_step hread c)

theorem named_unwind {scope : OpenScope} {enclosing : List OpenScope}
    (h : ∀ t ∈ scope :: enclosing, OpenScope.Named t) :
    (unwind scope enclosing).node.Declared := by
  induction enclosing generalizing scope with
  | nil => exact (h scope (List.mem_cons_self ..)).node
  | cons outer enclosing ih =>
    refine ih fun t ht => ?_
    rcases List.mem_cons.mp ht with rfl | ht
    · exact named_putBack (h scope (List.mem_cons_self ..)) (h outer (by simp))
    · exact h t (by simp [ht])

end State

/-! ## Whole sources -/

theorem scan_declared (source : String) {tree : Node} (h : tree.Declared) :
    (scan source tree).Declared := by
  have hstart : (State.start tree).Named := by
    intro t ht
    rw [List.mem_singleton.mp ht]
    exact State.named_begin h .source
  exact State.named_unwind (hstart.run (State.readAfter_run tree []) source.toList)

/-- Whatever sources are read into the empty documentation, all names in it are as declarations are
recorded under them. -/
theorem declared_scanEach (sources : List String) :
    (scanEach sources .empty).Declared := by
  have hall : ∀ tree : Node, tree.Declared →
      (scanEach sources tree).Declared := by
    induction sources with
    | nil => exact fun _ h => h
    | cons source sources ih => exact fun tree h => ih _ (scan_declared source h)
  exact hall .empty (everywhere_named_leaf (named_of_none rfl) rfl)

end HeaderDocs.Scan
