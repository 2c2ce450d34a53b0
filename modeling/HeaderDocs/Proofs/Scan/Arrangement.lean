import HeaderDocs.Proofs.Scan.Nesting
import HeaderDocs.Proofs.Scan.Scopes

/-!
# Scanned trees are kept in order

While a source is read the open scopes form a stack. Each of them is sound, and each takes the place
of a node of the scope around it that has the same kind and name (`OpenScope.FitsIn`), so putting it
back changes no kind and no name there. Reading one character keeps this (`State.Sound.step`).

* `everywhere_wellKept_scanEach`: whatever the sources are, every node of the tree they are read into is kept as
  its kind demands.
-/
namespace HeaderDocs.Scan

open HeaderDocs.Node

namespace OpenScope

variable {inner outer s t : OpenScope} {root : Kind × Option String}

/-- A scope takes the place of the node that it was opened for. -/
def FitsIn (inner outer : OpenScope) : Prop :=
  match inner.origin with
  | .record => ∀ p, outer.context.record = some p →
      ∃ m, p.node? outer.node = some m ∧ m.key = inner.node.key ∧ m.scope = inner.node.scope
  | .nameSpace (some i) => ∃ m, outer.node.children[i]? = some m ∧ m.key = inner.node.key
  | _ => True

/-- The open scopes, from the innermost one out: each is sound and fits into the next one. The last
is the scope of the source, whose kind and name are known. -/
def Stacked (root : Kind × Option String) : OpenScope → List OpenScope → Prop
  | s, [] => s.Sound ∧ s.node.key = root
  | s, outer :: enclosing => s.Sound ∧ s.FitsIn outer ∧ Stacked root outer enclosing

theorem Continues.fitsIn (h : s.Continues t) (hs : s.FitsIn outer) : t.FitsIn outer := by
  unfold FitsIn at hs ⊢
  rw [h.origin, h.key, h.access]
  exact hs

theorem Stacked.sound {enclosing : List OpenScope} (h : Stacked root s enclosing) : s.Sound := by
  cases enclosing with
  | nil => exact h.1
  | cons outer enclosing => exact h.1

theorem Stacked.continues {enclosing : List OpenScope} (h : Stacked root s enclosing)
    (hc : s.Continues t) : Stacked root t enclosing := by
  cases enclosing with
  | nil => exact ⟨hc.sound, hc.key.trans h.2⟩
  | cons outer enclosing => exact ⟨hc.sound, hc.fitsIn h.2.1, h.2.2⟩

/-- A scope whose body begins, on top of the one around it. -/
theorem Stacked.begin {enclosing : List OpenScope} (h : Stacked root outer enclosing) {node : Node}
    {origin : Origin} (hs : node.kind.isScope = true) (hk : node.Kept)
    (hfits : (begin node origin).FitsIn outer) :
    Stacked root (begin node origin) (outer :: enclosing) := by
  refine ⟨⟨hs, hk, ?_⟩, hfits, h⟩
  intro c hc
  cases List.mem_singleton.mp hc
  exact Context.sound_ofScope node

end OpenScope

namespace State

open OpenScope

variable {root : Kind × Option String} {inner outer : OpenScope} {s : State}

/-! ## Closing scopes -/

/-- Putting a scope back leaves the one around it sound. -/
theorem putBack_continues (hi : inner.Sound) (ho : outer.Sound) (hfits : inner.FitsIn outer) :
    outer.Continues (putBack inner outer) := by
  have he : outer.Continues { outer with events := outer.events ++ inner.events } :=
    ⟨⟨ho.scope, ho.kept, ho.contexts⟩, rfl, rfl, rfl⟩
  unfold putBack
  unfold FitsIn at hfits
  cases horigin : inner.origin with
  | source => exact he
  | record =>
    rw [horigin] at hfits
    dsimp only at hfits ⊢
    split
    · rename_i i hplace
      obtain ⟨m, hm, hkey, -⟩ := hfits _ hplace
      have hr := he.trans (he.sound.replaceChild hm hi.kept hkey.symm)
      split
      · exact hr
      · exact hr.trans (hr.sound.removeAt [i])
    · refine he.trans (he.sound.updateRecord ?_)
      rintro _ ⟨⟩
      exact ⟨inner.node, rfl, hi.scope, hi.kept⟩
    · exact he
  | nameSpace index =>
    cases index with
    | none => exact he
    | some i =>
      rw [horigin] at hfits
      obtain ⟨m, hm, hkey⟩ := hfits
      exact he.trans (he.sound.replaceChild hm hi.kept hkey.symm)

/-- Putting all scopes back leaves the scope of the source. -/
theorem unwind_sound {enclosing : List OpenScope} {scope : OpenScope}
    (h : Stacked root scope enclosing) :
    (unwind scope enclosing).Sound ∧ (unwind scope enclosing).node.key = root := by
  induction enclosing generalizing scope with
  | nil => exact h
  | cons outer enclosing ih =>
    obtain ⟨hs, hfits, hrest⟩ := h
    exact ih (hrest.continues (putBack_continues hs hrest.sound hfits))

/-- All open scopes of a state are in order. -/
def Sound (root : Kind × Option String) (s : State) : Prop := Stacked root s.scope s.enclosing

theorem Sound.enter (h : s.Sound root) (mode : Mode) : (s.enter mode).Sound root := h

theorem Sound.update (h : s.Sound root) {f : OpenScope → OpenScope}
    (hf : s.scope.Sound → s.scope.Continues (f s.scope)) : (s.update f).Sound root :=
  h.continues (hf h.sound)

/-- Changes of the context that leave its references alone. -/
theorem Sound.update_refs (h : s.Sound root) {f : Context → Context}
    (hf : (f s.scope.context).refs = s.scope.context.refs) :
    (s.update (·.update f)).Sound root :=
  h.update fun hs => hs.update_refs hf

theorem Sound.pop (h : s.Sound root) : s.pop.Sound root := by
  unfold State.pop
  split
  · rename_i context suspended hsuspended
    refine Stacked.continues h ⟨⟨h.sound.scope, h.sound.kept, ?_⟩, rfl, rfl, rfl⟩
    intro c hc
    exact h.sound.contexts c (List.mem_cons_of_mem _ (hsuspended ▸ hc))
  · rename_i outer enclosing _ henclosing
    have hstack := h
    rw [State.Sound, henclosing] at hstack
    obtain ⟨hs, hfits, hrest⟩ := hstack
    exact hrest.continues (putBack_continues hs hrest.sound hfits)
  · exact h

/-! ## Opening scopes -/

/-- A node without children is kept in order. -/
theorem kept_leaf (kind : Kind) (attrs : Attributes) : Kept { kind, attrs } := by
  refine kept_of_children ⟨fun _ => ?_, fun _ => ?_⟩ nofun
  · exact ⟨by simp, by simp, nofun, by simp, nofun⟩
  · exact ⟨by simp, by simp, nofun⟩

theorem isScope_of_recordKind? {word : String} {kind : Kind} (h : recordKind? word = some kind) :
    kind.isScope = true := by
  unfold recordKind? at h
  split at h
  · cases h; rfl
  · split at h
    · cases h; rfl
    · split at h
      · cases h; rfl
      · cases h

theorem ne_description_of_isScope {kind : Kind} (h : kind.isScope = true) : kind ≠ .description := by
  rintro rfl
  cases h

/-- What the context refers to after the words of a definition have been taken. -/
theorem sound_beginDefinition {scope : OpenScope} (h : scope.Sound) (aliased : Bool) (run : Run)
    (comment : Option String) :
    scope.Continues (scope.update fun c =>
      let c := if aliased then { c with run := run.closeUp } else c.dropRun
      { c.takeComment with typeAlias := aliasOf aliased comment }) := by
  have hc := h.context
  have halias : ∀ n, aliasOf aliased comment = some n → n.kind = .typeAlias ∧ n.Kept := by
    intro n hn
    unfold aliasOf at hn
    split at hn
    · cases hn
      exact ⟨kind_eq_of_key (key_describeIf _ _), Kept.describeIf (kept_leaf _ _) _⟩
    · cases hn
  refine h.update ?_
  cases aliased with
  | true => exact ⟨hc.header, hc.record, hc.enumeration, halias, hc.claim⟩
  | false => exact ⟨hc.header, hc.record, hc.enumeration, halias, hc.claim⟩

/-- The scope around a record whose body begins, and the node of the record. -/
def beginRecord (kind : Kind) (aliased : Bool) (run : Run) (scope : OpenScope) : OpenScope × Node :=
  let c := scope.context
  let attrs : Attributes := {
    name := (run.texts[1]?).map withoutColons
    base := if aliased then none else baseOf? (run.texts.drop 2) }
  let node := Node.describe { kind, attrs } (c.comment.getD "")
  let begun := scope.update fun d =>
    let d := if aliased then { d with run := run.closeUp } else d.dropRun
    { d.takeComment with typeAlias := aliasOf aliased c.comment }
  let (scope, path) := begun.commitNamed node
  let place := placeOf node path
  (scope.update ({ · with record := some place, claim := none }),
    (place.node? scope.node).getD node)

theorem openRecord_eq (kind : Kind) (aliased : Bool) (run : Run) (s : State) :
    s.openRecord kind aliased run =
      State.push (beginRecord kind aliased run s.scope).2 .record
        { s with scope := (beginRecord kind aliased run s.scope).1 } := rfl

/-- The record is the node that the scope around it refers to. -/
theorem sound_beginRecord {scope : OpenScope} (h : scope.Sound) {kind : Kind}
    (hkind : kind.isScope = true) (aliased : Bool) (run : Run) :
    scope.Continues (beginRecord kind aliased run scope).1 ∧
      (beginRecord kind aliased run scope).2.kind.isScope = true ∧
      (beginRecord kind aliased run scope).2.Kept ∧
      (begin (beginRecord kind aliased run scope).2 .record).FitsIn
        (beginRecord kind aliased run scope).1 := by
  unfold beginRecord
  extract_lets c attrs node begun
  have hnode : node.Kept := Kept.describe (kept_leaf kind attrs) _
  have hs : node.kind.isScope = true := by
    rw [show node.kind = kind from kind_describe _ _]
    exact hkind
  have hbegin : scope.Continues begun := sound_beginDefinition h aliased run c.comment
  obtain ⟨hcommit, m, hm, hkey, hmk⟩ :=
    hbegin.sound.commitNamed hnode (ne_description_of_isScope hs)
  rcases he : begun.commitNamed node with ⟨t, path⟩
  rw [he] at hcommit hm
  dsimp only at hcommit hm ⊢
  have hms : m.kind.isScope = true := (congrArg Kind.isScope (kind_eq_of_key hkey)).trans hs
  have hc := hcommit.sound.context
  have hupdate := hcommit.sound.update
    (f := ({ · with record := some (placeOf node path), claim := none }))
    ⟨hc.header, fun p hp => Option.some.inj hp ▸ ⟨m, hm, hms, hmk⟩, hc.enumeration, hc.typeAlias,
      nofun⟩
  rw [hm]
  refine ⟨(hbegin.trans hcommit).trans hupdate, hms, hmk, ?_⟩
  rintro _ ⟨⟩
  exact ⟨m, hm, rfl, rfl⟩

/-- Opening the body of a record on top of the scope that it was recorded in. -/
theorem Sound.openRecord (h : s.Sound root) {kind : Kind} (hkind : kind.isScope = true)
    (aliased : Bool) (run : Run) : (s.openRecord kind aliased run).Sound root := by
  obtain ⟨hc, hs, hk, hfits⟩ := sound_beginRecord h.sound hkind aliased run
  rw [openRecord_eq]
  exact (Stacked.continues h hc).begin hs hk hfits

/-- The scope around a namespace whose body begins, and how that is opened. -/
def beginNameSpace (name : String) (scope : OpenScope) : OpenScope × Node × Origin :=
  let comment := scope.context.comment
  let scope := scope.update fun c => { c.takeComment.dropRun with claim := none }
  match scope.node.children.findIdx? (isNamed .nameSpace (some name)) with
  | some i => (scope, (scope.node.get? [i]).getD (.ofName .nameSpace name), .nameSpace (some i))
  | none =>
    let node := (Node.ofName .nameSpace name).describe (comment.getD "")
    let (scope, path) := scope.commit node
    (scope, node, .nameSpace (path.bind (·.head?)))

theorem openNameSpace_eq (name : String) (s : State) :
    s.openNameSpace name =
      State.push (beginNameSpace name s.scope).2.1 (beginNameSpace name s.scope).2.2
        { s with scope := (beginNameSpace name s.scope).1 } := by
  unfold State.openNameSpace beginNameSpace
  dsimp only
  generalize List.findIdx? (isNamed .nameSpace (some name))
    (OpenScope.update _ s.scope).node.children = found
  cases found <;> rfl

theorem sound_beginNameSpace {scope : OpenScope} (h : scope.Sound) (name : String) :
    scope.Continues (beginNameSpace name scope).1 ∧
      (beginNameSpace name scope).2.1.kind.isScope = true ∧
      (beginNameSpace name scope).2.1.Kept ∧
      (begin (beginNameSpace name scope).2.1 (beginNameSpace name scope).2.2).FitsIn
        (beginNameSpace name scope).1 := by
  unfold beginNameSpace
  extract_lets comment updated node
  have hupdate : scope.Continues updated := h.update (h.context.forgetClaim.of_refs rfl)
  split
  · rename_i i hi
    obtain ⟨c, hc, hget, hkind⟩ := exists_of_findIdx?_isNamed hi
    simp only [Node.get?, hget, Option.getD_some]
    refine ⟨hupdate, ?_, hupdate.sound.kept.child hc, _, hget, rfl⟩
    rw [hkind]
    rfl
  · have hnode : node.Kept := Kept.describe (kept_leaf _ _) _
    have hkey : node.key = (ofName .nameSpace name).key := key_describe _ _
    have hk : node.kind = .nameSpace := kind_eq_of_key hkey
    obtain ⟨hcommit, hpath⟩ := hupdate.sound.commit hnode (by rw [hk]; decide)
    rcases he : updated.commit node with ⟨t, path⟩
    rw [he] at hcommit hpath
    refine ⟨hupdate.trans hcommit, ?_, hnode, ?_⟩
    · rw [hk]
      rfl
    · cases path with
      | none => exact trivial
      | some p =>
        obtain ⟨i, m, rfl, hm, hmkey⟩ := hpath p rfl
        exact ⟨m, hm, hmkey⟩

/-- Opening the body of a namespace, old or new. -/
theorem Sound.openNameSpace (h : s.Sound root) (name : String) :
    (s.openNameSpace name).Sound root := by
  obtain ⟨hc, hs, hk, hfits⟩ := sound_beginNameSpace h.sound name
  rw [openNameSpace_eq]
  exact (Stacked.continues h hc).begin hs hk hfits

theorem sound_openEnumeration {scope : OpenScope} (h : scope.Sound) (aliased : Bool) (run : Run) :
    scope.Continues (openEnumeration aliased run scope) := by
  unfold State.openEnumeration
  extract_lets c name node typeAlias scope₀
  have hnode : node.Kept := Kept.describe (kept_leaf _ _) _
  have hkind : node.kind = .enumType := kind_describe _ _
  have hs : node.kind.isScope = true := by
    rw [hkind]
    rfl
  have hbegin : scope.Continues scope₀ := sound_beginDefinition h aliased run c.comment
  obtain ⟨hcommit, m, hm, hkey, hmk⟩ :=
    hbegin.sound.commitNamed hnode (ne_description_of_isScope hs)
  have hc := hcommit.sound.context
  have hplace := hcommit.sound.update
    (f := ({ · with enumeration := some (placeOf node (scope₀.commitNamed node).2), inValue := false }))
    ⟨hc.header, hc.record, fun p hp => Option.some.inj hp ▸ sound_of_key hm hkey hs hmk,
      hc.typeAlias, hc.claim⟩
  exact (hbegin.trans hcommit).trans hplace

theorem Sound.openLinkage (h : s.Sound root) : s.openLinkage.Sound root := by
  refine h.update fun hs => ⟨⟨hs.scope, hs.kept, ?_⟩, rfl, rfl, rfl⟩
  intro c hc
  rcases List.mem_cons.mp hc with rfl | hc
  · exact Context.sound_ofScope _
  · rcases List.mem_cons.mp hc with rfl | hc
    · exact hs.context.forgetClaim.of_refs rfl
    · exact hs.contexts c (List.mem_cons_of_mem _ hc)

theorem Sound.openBlock (h : s.Sound root) {f : OpenScope → OpenScope}
    (hf : s.scope.Sound → s.scope.Continues (f s.scope)) : (s.openBlock f).Sound root := by
  refine h.update fun hs => ?_
  have hc := hf hs
  exact hc.trans (hc.sound.update (hc.sound.context.forgetClaim.of_refs rfl))

/-- Whatever an opening brace opens. -/
theorem Sound.openBrace (h : s.Sound root) : s.openBrace.Sound root := by
  refine s.openBrace_cases ?header ?record ?nameSpace ?enumeration ?linkage ?block
  case header =>
    intro head hhead
    exact h.openBlock fun hs => hs.commitHeader (hs.context.header head hhead)
  case record =>
    intro kind hkind
    exact h.openRecord (isScope_of_recordKind? hkind) _ _
  case nameSpace => exact fun name _ _ => h.openNameSpace name
  case enumeration => exact h.openBlock fun hs => sound_openEnumeration hs _ _
  case linkage => exact h.openLinkage
  case block => exact h.openBlock fun hs => hs.update_refs rfl

theorem closeBrace_eq (s : State) :
    s.closeBrace = if 0 < s.scope.context.braces then s.update (·.update .afterBlock)
      else (s.update (·.update .afterBody)).pop := rfl

theorem Sound.closeBrace (h : s.Sound root) : s.closeBrace.Sound root := by
  rw [closeBrace_eq]
  split
  · exact h.update fun hs => hs.update hs.context.afterBlock
  · exact (h.update fun hs => hs.update hs.context.afterBody).pop

/-! ## Characters -/

theorem Sound.mark (h : s.Sound root) (c : Char) : (s.mark c).Sound root := by
  refine mark_cases c ?begins ?openBrace ?closeBrace ?openParen ?closeParen ?semicolon ?comma
    ?equals ?sign ?ampersand ?colon ?other
  case begins => exact fun mode _ => h.enter mode
  case openBrace => exact fun _ => h.openBrace
  case closeBrace => exact fun _ => h.closeBrace
  case openParen => exact fun _ => h.update_refs (Context.refs_openParen _)
  case closeParen => exact fun _ => h.update fun hs => hs.update hs.context.closeParen
  case semicolon => exact fun _ => h.update fun hs => hs.semicolon
  case comma => exact fun _ => h.update fun hs => hs.update hs.context.comma
  case equals => exact fun _ => h.update_refs (Context.refs_equals _)
  case sign => exact fun _ => h.update_refs (Context.refs_pushMark _ _)
  case ampersand => exact fun _ => h.update_refs (Context.refs_pushFragment _ _ _)
  case colon => exact fun _ => h.update_refs (Context.refs_pushIfStarted _ _ _)
  case other => exact fun _ _ => h

theorem Sound.forgetClaim (h : s.Sound root) :
    (s.update (·.update fun c => { c with claim := none, joinable := false })).Sound root :=
  h.update fun hs => hs.update (hs.context.forgetClaim.of_refs rfl)

theorem Sound.endLine (h : s.Sound root) : (s.update (·.update .endLine)).Sound root :=
  h.update fun hs => hs.update hs.context.forgetClaim

theorem Sound.plain (h : s.Sound root) (c : Char) : (s.plain c).Sound root := by
  refine plain_cases c ?newline ?space ?slash ?mark
  case newline => exact fun _ => h.forgetClaim
  case space => exact fun _ => h
  case slash => exact fun _ => h.enter .slash
  case mark => exact fun _ _ => (h.update_refs rfl).mark c

theorem Sound.endComment (h : s.Sound root) (text : List Char) (line : Bool) :
    (s.endComment text line).Sound root :=
  (h.enter .plain).update fun hs => hs.takeComment _ _

/-- Reading a character keeps all open scopes in order. -/
theorem Sound.step (h : s.Sound root) (c : Char) : (s.step c).Sound root := by
  obtain ⟨a, -, hstep⟩ := s.step_acts c
  rw [hstep]
  cases a with
  | turn mode => exact h.enter mode
  | code => exact h.plain c
  | slash =>
    refine Sound.plain (Sound.update_refs (h.enter .plain) ?_) c
    exact (Context.refs_pushMark _ _).trans rfl
  | word text => exact Sound.plain ((h.enter .plain).update fun hs => hs.word _ c) c
  | blockComment text => exact h.endComment _ _
  | lineComment text => exact (h.endComment _ true).endLine
  | directive => exact (h.enter .plain).endLine
  | literal text => exact (h.enter .plain).update_refs (Context.refs_pushIfStarted _ _ _)

theorem Sound.run (h : s.Sound root) (source : List Char) : (s.run source).Sound root :=
  run_keeps (P := Sound root) (fun _ c h => h.step c) h source

theorem sound_start {tree : Node} (hs : tree.kind.isScope = true) (hk : tree.Kept) :
    (start tree).Sound tree.key := by
  refine ⟨⟨hs, hk, ?_⟩, rfl⟩
  intro c hc
  cases List.mem_singleton.mp hc
  exact Context.sound_ofScope tree

end State

/-! ## Whole sources -/

/-- Reading a source keeps a tree in order, and it stays the same kind of tree. -/
theorem scan_kept (source : String) {tree : Node} (hs : tree.kind.isScope = true) (hk : tree.Kept) :
    (scan source tree).Kept ∧ (scan source tree).kind = tree.kind := by
  obtain ⟨hsound, hkey⟩ := State.unwind_sound ((State.sound_start hs hk).run source.toList)
  exact ⟨hsound.kept, kind_eq_of_key hkey⟩

/-- Reads sources into a tree one after another. -/
def scanEach (sources : List String) (tree : Node) : Node :=
  sources.foldl (fun tree source => scan source tree) tree

theorem scanEach_kept (sources : List String) {tree : Node} (hs : tree.kind.isScope = true)
    (hk : tree.Kept) :
    (scanEach sources tree).Kept ∧ (scanEach sources tree).kind = tree.kind := by
  induction sources generalizing tree with
  | nil => exact ⟨hk, rfl⟩
  | cons source sources ih =>
    obtain ⟨hkept, hkind⟩ := scan_kept source hs hk
    obtain ⟨hkept', hkind'⟩ := ih (hkind ▸ hs) hkept
    exact ⟨hkept', hkind'.trans hkind⟩

/-- Whatever sources are read into the empty documentation, every scope in it has its children in
order and every function has the children of a function. -/
theorem everywhere_wellKept_scanEach (sources : List String) :
    (scanEach sources .empty).Everywhere WellKept :=
  (scanEach_kept sources rfl (State.kept_leaf .root {})).1

end HeaderDocs.Scan
