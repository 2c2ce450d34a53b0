import HeaderDocs.Proofs.Scan.Clear

/-!
# Nothing hidden is recorded

A stack of open scopes is clear if each of them is, and if none that takes the place of a node of the
scope around it hides itself there. Every character keeps it so.

* `isPrivate_scanEach`: whatever the sources are, no node of the tree they are read into hides itself,
  but for what functions return.
* `isPrivate_scanEach_result`: a return value that does.
-/
namespace HeaderDocs.Scan

open HeaderDocs.Node

namespace OpenScope

variable {s t : OpenScope}

/-! ## Open scopes -/

/-- If a scope takes the place of a node of the scope around it, it does not hide itself there. -/
def ShownIn (inner outer : OpenScope) : Prop :=
  match inner.origin with
  | .record => ∀ i, outer.context.record = some (.inScope i) → inner.Shown
  | .nameSpace (some _) =>
    inner.attached = true ∧ inner.node.kind.isRecord = false ∧ inner.node.Discreet
  | _ => True

/-- The open scopes, from the innermost one out. The last is the scope of the source. -/
def AllClear : OpenScope → List OpenScope → Prop
  | s, [] => s.Clear ∧ s.attached = true ∧ s.node.kind.isRecord = false ∧ s.node.Discreet
  | s, outer :: enclosing => s.Clear ∧ s.ShownIn outer ∧ AllClear outer enclosing

variable {inner outer : OpenScope} {enclosing : List OpenScope}

theorem StaysClear.attached_discreet (h : s.StaysClear t)
    (hs : s.attached = true ∧ s.node.kind.isRecord = false ∧ s.node.Discreet) :
    t.attached = true ∧ t.node.kind.isRecord = false ∧ t.node.Discreet := by
  obtain ⟨ha, hk, hd⟩ := hs
  have hat := (h.attached hk).trans ha
  exact ⟨hat, h.kind ▸ hk, h.shown (fun _ => hd) hat⟩

theorem StaysClear.shownIn (h : s.StaysClear t) (hs : s.ShownIn outer) : t.ShownIn outer := by
  unfold ShownIn at hs ⊢
  rw [h.origin]
  split at hs
  · exact fun i hi => h.shown (hs i hi)
  · exact h.attached_discreet hs
  · trivial

theorem AllClear.clear (h : AllClear s enclosing) : s.Clear := by
  cases enclosing with
  | nil => exact h.1
  | cons outer enclosing => exact h.1

theorem AllClear.stays (h : AllClear s enclosing) (hs : s.StaysClear t) : AllClear t enclosing := by
  cases enclosing with
  | nil => exact ⟨hs.clear, hs.attached_discreet h.2⟩
  | cons outer enclosing => exact ⟨hs.clear, hs.shownIn h.2.1, h.2.2⟩

/-- A scope whose body begins, on top of the one around it. -/
theorem AllClear.begin (h : AllClear outer enclosing) {node : Node} {origin : Origin}
    (hn : node.Below Discreet) (hshown : (begin node origin).ShownIn outer) :
    AllClear (begin node origin) (outer :: enclosing) := by
  refine ⟨⟨hn, ?_⟩, hshown, h⟩
  intro c hc
  cases List.mem_singleton.mp hc
  exact Context.clear_ofScope node

end OpenScope

namespace State

open OpenScope

variable {root : Kind × Option String} {inner outer : OpenScope} {s : State}

/-! ## Closing scopes -/

/-- A child that is put back and taken out at once is gone, and kept aside. -/
theorem staysClear_takeOut {s : OpenScope} (h : s.Clear) {m node : Node} {i : Nat}
    (hm : s.node.children[i]? = some m) (hn : node.Below Discreet) :
    s.StaysClear ((s.modifyAt (fun _ => node) [i]).removeAt [i]) := by
  have hget : (s.node.modifyAt (fun _ => node) [i]).get? [i] = some node := by
    rw [get?_modifyAt, get?_singleton, hm]
    rfl
  have hremove : (s.node.modifyAt (fun _ => node) [i]).removeAt [i] = s.node.removeAt [i] := by
    simp only [Node.modifyAt, Node.removeAt, List.eraseIdx_modify_of_eq]
  have he : (s.modifyAt (fun _ => node) [i]).removeAt [i] =
      { s.mapContexts (.afterRemove [i] node) with node := s.node.removeAt [i] } := by
    unfold OpenScope.removeAt
    simp only [OpenScope.modifyAt, hget, mapContexts, hremove]
  rw [he]
  exact h.change (StaysDiscreet.removeAt _ [i]) fun c hc => (h.contexts c hc).afterRemove [i] hn

theorem putBack_staysClear (hi : inner.Sound) (hci : inner.Clear) (hco : outer.Clear)
    (hfits : inner.FitsIn outer) (hshown : inner.ShownIn outer) :
    outer.StaysClear (putBack inner outer) := by
  have he : outer.StaysClear { outer with events := outer.events ++ inner.events } :=
    ⟨⟨hco.below, hco.contexts⟩, id, rfl, rfl, fun _ => rfl⟩
  unfold putBack
  unfold FitsIn at hfits
  unfold ShownIn at hshown
  cases horigin : inner.origin with
  | source => exact he
  | record =>
    rw [horigin] at hfits hshown
    dsimp only at hfits hshown ⊢
    split
    · rename_i i hplace
      obtain ⟨m, hm, hkey, -⟩ := hfits _ hplace
      split
      · rename_i hattached
        have hnode : inner.node.Everywhere Discreet :=
          everywhere_iff_below.mpr ⟨hshown i hplace hattached, hci.below⟩
        have hkind := kind_eq_of_key hkey
        exact he.trans (he.clear.replaceChild hm hkind.symm (hkind ▸ hi.scope) hnode)
      · exact he.trans (staysClear_takeOut he.clear hm hci.below)
    · refine he.trans (he.clear.updateRecord ?_)
      rintro _ ⟨⟩
      exact hci.below
    · exact he
  | nameSpace index =>
    cases index with
    | none => exact he
    | some i =>
      rw [horigin] at hfits hshown
      obtain ⟨m, hm, hkey⟩ := hfits
      have hkind := kind_eq_of_key hkey
      exact he.trans (he.clear.replaceChild hm hkind.symm (hkind ▸ hi.scope)
        (everywhere_iff_below.mpr ⟨hshown.2.2, hci.below⟩))

/-- Putting all scopes back leaves a tree that shows nothing hidden. -/
theorem unwind_clear {enclosing : List OpenScope} {scope : OpenScope}
    (hs : Stacked root scope enclosing) (h : AllClear scope enclosing) :
    (unwind scope enclosing).node.Everywhere Discreet := by
  induction enclosing generalizing scope with
  | nil => exact everywhere_iff_below.mpr ⟨h.2.2.2, h.1.below⟩
  | cons outer enclosing ih =>
    obtain ⟨hsound, hfits, hrest⟩ := hs
    obtain ⟨hclear, hshown, hclearRest⟩ := h
    exact ih (hrest.continues (putBack_continues hsound hrest.sound hfits))
      (hclearRest.stays (putBack_staysClear hsound hclear hclearRest.clear hfits hshown))

/-- Nothing hidden has been recorded in the open scopes of a state. -/
def Clear (s : State) : Prop := AllClear s.scope s.enclosing

theorem Clear.update (h : s.Clear) {f : OpenScope → OpenScope}
    (hf : s.scope.Clear → s.scope.StaysClear (f s.scope)) : (s.update f).Clear :=
  h.stays (hf (AllClear.clear h))

theorem Clear.update_refs (h : s.Clear) {f : Context → Context}
    (hf : (f s.scope.context).refs = s.scope.context.refs) : (s.update (·.update f)).Clear :=
  h.update fun hc => hc.update_refs hf

theorem Clear.pop (h : s.Clear) (hs : s.Sound root) : s.pop.Clear := by
  unfold State.pop
  split
  · rename_i context suspended hsuspended
    have hc := AllClear.clear h
    refine AllClear.stays h ⟨⟨hc.below, ?_⟩, id, rfl, rfl, fun _ => rfl⟩
    intro c hm
    exact hc.contexts c (List.mem_cons_of_mem _ (hsuspended ▸ hm))
  · rename_i outer enclosing _ henclosing
    have hstack := hs
    have hall := h
    rw [State.Sound, henclosing] at hstack
    rw [State.Clear, henclosing] at hall
    obtain ⟨hsound, hfits, -⟩ := hstack
    obtain ⟨hclear, hshown, hrest⟩ := hall
    exact hrest.stays (putBack_staysClear hsound hclear hrest.clear hfits hshown)
  · exact h

/-! ## Opening scopes -/

/-- What the context holds on to after the words of a definition have been taken. -/
theorem clear_beginDefinition {scope : OpenScope} (h : scope.Clear) (aliased : Bool) (run : Run)
    (comment : Option String) :
    scope.StaysClear (scope.update fun c =>
      let c := if aliased then { c with run := run.closeUp } else c.dropRun
      { c.takeComment with typeAlias := aliasOf aliased comment }) := by
  have hc := h.context
  have halias : ∀ n, aliasOf aliased comment = some n →
      n.Below Discreet ∧ n.children.countP (isKind .description) ≤ 1 := by
    intro n hn
    unfold aliasOf at hn
    split at hn
    · cases hn
      exact ⟨below_describeIf (by simp [Below]) _, countP_describeIf (by simp) _⟩
    · cases hn
  refine h.update ?_
  cases aliased with
  | true => exact ⟨hc.header, hc.record, hc.enumeration, halias⟩
  | false => exact ⟨hc.header, hc.record, hc.enumeration, halias⟩

theorem below_describe_leaf (kind : Kind) (attrs : Attributes) (raw : String) :
    (Node.describe { kind, attrs } raw).Below Discreet ∧
      (Node.describe { kind, attrs } raw).children.countP (isKind .description) ≤ 1 :=
  ⟨below_describe (by simp [Below]) raw, countP_describe (by simp) raw⟩

/-- The record whose body begins shows nothing hidden if it has been recorded. -/
theorem clear_beginRecord {scope : OpenScope} (hs : scope.Sound) (h : scope.Clear) {kind : Kind}
    (hkind : kind.isScope = true) (aliased : Bool) (run : Run) :
    scope.StaysClear (beginRecord kind aliased run scope).1 ∧
      (beginRecord kind aliased run scope).2.Below Discreet ∧
      (begin (beginRecord kind aliased run scope).2 .record).ShownIn
        (beginRecord kind aliased run scope).1 := by
  unfold beginRecord
  extract_lets c attrs node begun
  obtain ⟨hnode, hd⟩ := below_describe_leaf kind attrs (c.comment.getD "")
  have hk : node.kind ≠ .description := by
    rw [show node.kind = kind from kind_describe _ _]
    exact ne_description_of_isScope hkind
  have hbegin : scope.StaysClear begun := clear_beginDefinition h aliased run c.comment
  have hsbegin : scope.Continues begun := sound_beginDefinition hs aliased run c.comment
  have hcommit := hbegin.clear.commitNamed hsbegin.sound hnode hd hk
  obtain ⟨-, m, hm, -⟩ := hsbegin.sound.commitNamed (Kept.describe (kept_leaf kind attrs) _) hk
  rcases he : begun.commitNamed node with ⟨t, path⟩
  rw [he] at hcommit hm
  dsimp only at hcommit hm ⊢
  have hplace (n : Node) (hn : some (placeOf node path) = some (.aside n)) : n.Below Discreet :=
    below_placeOf hnode hn
  have hupdate := hcommit.clear.update
    (f := ({ · with record := some (placeOf node path), claim := none }))
    ((hcommit.clear.context.withRecord hplace).withClaim none)
  obtain ⟨hbelow, hdiscreet⟩ := hcommit.clear.below_node? (fun n hn => hplace n (congrArg some hn)) hm
  rw [hm]
  exact ⟨(hbegin.trans hcommit).trans hupdate, hbelow,
    fun i hi _ => hdiscreet i (Option.some.inj hi)⟩

theorem Clear.openRecord (h : s.Clear) (hs : s.Sound root) {kind : Kind}
    (hkind : kind.isScope = true) (aliased : Bool) (run : Run) :
    (s.openRecord kind aliased run).Clear := by
  obtain ⟨hc, hbelow, hshown⟩ := clear_beginRecord hs.sound (AllClear.clear h) hkind aliased run
  rw [openRecord_eq]
  exact (AllClear.stays h hc).begin hbelow hshown

/-- The namespace whose body begins shows nothing hidden if it has been recorded. -/
theorem clear_beginNameSpace {scope : OpenScope} (hs : scope.Sound) (h : scope.Clear)
    (name : String) :
    scope.StaysClear (beginNameSpace name scope).1 ∧
      (beginNameSpace name scope).2.1.Below Discreet ∧
      (begin (beginNameSpace name scope).2.1 (beginNameSpace name scope).2.2).ShownIn
        (beginNameSpace name scope).1 := by
  unfold beginNameSpace
  extract_lets comment updated node
  have hupdate : scope.StaysClear updated := h.update ((h.context.withClaim none).of_refs rfl)
  have hsupdate : scope.Continues updated := hs.update (hs.context.forgetClaim.of_refs rfl)
  split
  · rename_i i hi
    obtain ⟨c, hc, hget, hkind⟩ := exists_of_findIdx?_isNamed hi
    have hchild : c.Everywhere Discreet := hupdate.clear.below _ hc
    simp only [Node.get?, hget, Option.getD_some]
    refine ⟨hupdate, hchild.below, rfl, ?_, hchild.self⟩
    change c.kind.isRecord = false
    rw [hkind]
    rfl
  · have hnode : node.Below Discreet := below_describe (by simp [Below, ofName]) _
    have hd : node.children.countP (isKind .description) ≤ 1 := countP_describe (by simp [ofName]) _
    have hk : node.kind = .nameSpace := kind_eq_of_key (key_describe _ _)
    have hcommit := hupdate.clear.commit hsupdate.sound hnode hd (by rw [hk]; decide)
    have hpublic := fun path (hp : (updated.commit node).2 = some path) =>
      everywhere_discreet_of_public hnode (by rw [hk]; decide) hd (public_of_commit hp)
    rcases he : updated.commit node with ⟨t, path⟩
    rw [he] at hcommit hpublic
    refine ⟨hupdate.trans hcommit, hnode, ?_⟩
    have hrecord : node.kind.isRecord = false := by
      rw [hk]
      rfl
    rcases path with - | - | ⟨i, path⟩
    · exact trivial
    · exact trivial
    · exact ⟨rfl, hrecord, (hpublic _ rfl).self⟩

theorem Clear.openNameSpace (h : s.Clear) (hs : s.Sound root) (name : String) :
    (s.openNameSpace name).Clear := by
  obtain ⟨hc, hbelow, hshown⟩ := clear_beginNameSpace hs.sound (AllClear.clear h) name
  rw [openNameSpace_eq]
  exact (AllClear.stays h hc).begin hbelow hshown

theorem clear_openEnumeration {scope : OpenScope} (hs : scope.Sound) (h : scope.Clear)
    (aliased : Bool) (run : Run) : scope.StaysClear (openEnumeration aliased run scope) := by
  unfold State.openEnumeration
  extract_lets c name node typeAlias scope₀
  obtain ⟨hnode, hd⟩ := below_describe_leaf .enumType { name } (c.comment.getD "")
  have hbegin : scope.StaysClear scope₀ := clear_beginDefinition h aliased run c.comment
  have hsbegin : scope.Continues scope₀ := sound_beginDefinition hs aliased run c.comment
  have hk : node.kind ≠ .description := by
    rw [show node.kind = .enumType from kind_describe _ _]
    decide
  have hcommit := hbegin.clear.commitNamed hsbegin.sound hnode hd hk
  refine (hbegin.trans hcommit).trans (hcommit.clear.update ?_)
  exact (hcommit.clear.context.withEnumeration fun n hn => below_placeOf hnode hn).of_refs rfl

theorem Clear.openLinkage (h : s.Clear) : s.openLinkage.Clear := by
  refine h.update fun hc => ⟨⟨hc.below, ?_⟩, id, rfl, rfl, fun _ => rfl⟩
  intro c hm
  rcases List.mem_cons.mp hm with rfl | hm
  · exact Context.clear_ofScope _
  · rcases List.mem_cons.mp hm with rfl | hm
    · exact (hc.context.withClaim none).of_refs rfl
    · exact hc.contexts c (List.mem_cons_of_mem _ hm)

theorem Clear.openBlock (h : s.Clear) {f : OpenScope → OpenScope}
    (hf : s.scope.Clear → s.scope.StaysClear (f s.scope)) : (s.openBlock f).Clear := by
  refine h.update fun hc => ?_
  have ht := hf hc
  exact ht.trans (ht.clear.update ((ht.clear.context.withClaim none).of_refs rfl))

theorem Clear.openBrace (h : s.Clear) (hs : s.Sound root) : s.openBrace.Clear := by
  have hsound := hs.sound
  refine s.openBrace_cases ?header ?record ?nameSpace ?enumeration ?linkage ?block
  case header =>
    intro head hhead
    exact h.openBlock fun hc =>
      hc.commitHeader hsound (hsound.context.header head hhead) (hc.context.header head hhead)
  case record =>
    intro kind hkind
    exact h.openRecord hs (isScope_of_recordKind? hkind) _ _
  case nameSpace => exact fun name _ _ => h.openNameSpace hs name
  case enumeration => exact h.openBlock fun hc => clear_openEnumeration hsound hc _ _
  case linkage => exact h.openLinkage
  case block => exact h.openBlock fun hc => hc.update_refs rfl

theorem Clear.closeBrace (h : s.Clear) (hs : s.Sound root) : s.closeBrace.Clear := by
  rw [closeBrace_eq]
  split
  · exact h.update fun hc => hc.update hc.context.afterBlock
  · exact (h.update fun hc => hc.update hc.context.afterBody).pop
      (hs.update fun hs => hs.update hs.context.afterBody)

/-! ## Characters -/

theorem Clear.mark (h : s.Clear) (hs : s.Sound root) (c : Char) : (s.mark c).Clear := by
  refine mark_cases c ?begins ?openBrace ?closeBrace ?openParen ?closeParen ?semicolon ?comma
    ?equals ?sign ?ampersand ?colon ?other
  case begins => exact fun _ _ => h
  case openBrace => exact fun _ => h.openBrace hs
  case closeBrace => exact fun _ => h.closeBrace hs
  case openParen => exact fun _ => h.update_refs (Context.refs_openParen _)
  case closeParen => exact fun _ => h.update fun hc => hc.update hc.context.closeParen
  case semicolon => exact fun _ => h.update fun hc => hc.semicolon hs.sound
  case comma => exact fun _ => h.update fun hc => hc.update hc.context.comma
  case equals => exact fun _ => h.update_refs (Context.refs_equals _)
  case sign => exact fun _ => h.update_refs (Context.refs_pushMark _ _)
  case ampersand => exact fun _ => h.update_refs (Context.refs_pushFragment _ _ _)
  case colon => exact fun _ => h.update_refs (Context.refs_pushIfStarted _ _ _)
  case other => exact fun _ _ => h

theorem Clear.endLine (h : s.Clear) : (s.update (·.update .endLine)).Clear :=
  h.update fun hc => hc.update (hc.context.withClaim none)

theorem Clear.plain (h : s.Clear) (hs : s.Sound root) (c : Char) : (s.plain c).Clear := by
  refine plain_cases c ?newline ?space ?slash ?mark
  case newline =>
    exact fun _ => h.update fun hc => hc.update ((hc.context.withClaim none).of_refs rfl)
  case space => exact fun _ => h
  case slash => exact fun _ => h
  case mark => exact fun _ _ => (h.update_refs rfl).mark (hs.update_refs rfl) c

theorem Clear.endComment (h : s.Clear) (text : List Char) (line : Bool) :
    (s.endComment text line).Clear :=
  Clear.update (s := s.enter .plain) h fun hc => hc.takeComment _ _

/-- Reading a character records nothing hidden. -/
theorem Clear.step (h : s.Clear) (hs : s.Sound root) (c : Char) : (s.step c).Clear := by
  have hplain : (s.enter .plain).Clear := h
  obtain ⟨a, -, hstep⟩ := s.step_acts c
  rw [hstep]
  cases a with
  | turn mode => exact h
  | code => exact h.plain hs c
  | slash =>
    have hrefs := fun d : Context =>
      (Context.refs_pushMark { d with joinable := false } "/").trans rfl
    exact (hplain.update_refs (hrefs _)).plain ((hs.enter .plain).update_refs (hrefs _)) c
  | word text =>
    exact (hplain.update fun hc => hc.word hs.sound _ c).plain
      ((hs.enter .plain).update fun hs => hs.word _ c) c
  | blockComment text => exact h.endComment _ _
  | lineComment text => exact (h.endComment _ true).endLine
  | directive => exact hplain.endLine
  | literal text => exact hplain.update_refs (Context.refs_pushIfStarted _ _ _)

theorem Clear.run (h : s.Clear) (hs : s.Sound root) (source : List Char) : (s.run source).Clear := by
  have hboth := run_keeps (P := fun t => t.Clear ∧ t.Sound root)
    (fun _ c ht => ⟨ht.1.step ht.2 c, ht.2.step c⟩) ⟨h, hs⟩ source
  exact hboth.1

end State

/-! ## Whole sources -/

/-- A tree that shows nothing hidden is read on into one that does not. -/
theorem scan_discreet (source : String) {tree : Node} (hk : tree.kind = .root) (hkept : tree.Kept)
    (h : tree.Everywhere Discreet) : (scan source tree).Everywhere Discreet := by
  have hsound := State.sound_start (by rw [hk]; rfl) hkept
  have hclear : (State.start tree).Clear := by
    refine ⟨⟨h.below, ?_⟩, rfl, ?_, h.self⟩
    · intro c hc
      cases List.mem_singleton.mp hc
      exact Context.clear_ofScope tree
    · change tree.kind.isRecord = false
      rw [hk]
      rfl
  exact State.unwind_clear (hsound.run source.toList) (hclear.run hsound source.toList)

theorem scanEach_discreet (sources : List String) {tree : Node} (hk : tree.kind = .root)
    (hkept : tree.Kept) (h : tree.Everywhere Discreet) :
    (scanEach sources tree).Everywhere Discreet := by
  induction sources generalizing tree with
  | nil => exact h
  | cons source sources ih =>
    obtain ⟨hkept', hkind⟩ := scan_kept source (by rw [hk]; rfl) hkept
    exact ih (hkind.trans hk) hkept' (scan_discreet source hk hkept h)

/-- Whatever sources are read into the empty documentation, nothing in it has a description with the
marker, but for what functions return. -/
theorem isPrivate_scanEach (sources : List String) :
    (scanEach sources .empty).Everywhere fun n => n.kind = .result ∨ n.isPrivate = false := by
  have hempty : Node.empty.Everywhere Discreet := everywhere_discreet_of_undescribed nofun nofun nofun
  have h := scanEach_discreet sources rfl (State.kept_leaf .root {}) hempty
  intro m hm
  by_cases hk : m.kind = .result
  · exact .inl hk
  · exact .inr ((h.of_mem_walk hm).isPrivate_eq_false hk)

/-- The comment inside of the type of a function describes what it returns, whatever it says. -/
theorem isPrivate_scanEach_result :
    ¬ (scanEach ["int /* @private@ */ f(void);"] .empty).Everywhere fun n => n.isPrivate = false := by
  intro h
  have hall : (scanEach ["int /* @private@ */ f(void);"] .empty).walk.all (!·.isPrivate) = true :=
    List.all_eq_true.mpr fun m hm => by simp [h m hm]
  exact absurd hall (by decide +kernel)

end HeaderDocs.Scan
