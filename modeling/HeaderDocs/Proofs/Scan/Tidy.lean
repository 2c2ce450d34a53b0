import HeaderDocs.Proofs.Scan.Arrangement

/-!
# What is left over between declarations

The words that the declarators of a list share wait between two of these declarators, when nothing
is being read: no run has started, and no header is open. And the values of constants are read in
the braces of their enumeration. `Context.Tidy` says so of one context, and every character keeps it
for all contexts that are open (`State.Tidy.step`).
-/
namespace HeaderDocs.Scan

open HeaderDocs.Node

/-! ## Contexts -/

namespace Context

/-- Nothing of a list of declarators waits while a declaration is being read, and nothing of an
enumeration is left outside of its braces. -/
structure Tidy (c : Context) : Prop where
  base : c.run ≠ [] ∨ c.header.isSome = true → c.base = []
  inValue : c.braces = 0 → c.inValue = false

def shape (c : Context) : Run × Bool × Run × Nat × Bool :=
  (c.run, c.header.isSome, c.base, c.braces, c.inValue)

variable {c d : Context}

theorem Tidy.of_shape (h : c.Tidy) (he : d.shape = c.shape) : d.Tidy := by
  simp only [shape, Prod.mk.injEq] at he
  obtain ⟨h1, h2, h3, h4, h5⟩ := he
  exact ⟨by rw [h1, h2, h3]; exact h.base, by rw [h4, h5]; exact h.inValue⟩

theorem shape_afterInsert (path : Path) (c : Context) : (c.afterInsert path).shape = c.shape := by
  simp [shape, Context.afterInsert]

theorem shape_afterRemove (path : Path) (removed : Node) (c : Context) :
    (c.afterRemove path removed).shape = c.shape := by
  simp [shape, Context.afterRemove]

theorem tidy_ofScope (scope : Node) : (Context.ofScope scope).Tidy :=
  ⟨fun _ => rfl, fun _ => rfl⟩

/-- A context in which no shared words wait. -/
theorem Tidy.of_base (h : c.Tidy) (hbase : d.base = []) (hb : d.braces = c.braces)
    (hv : d.inValue = c.inValue) : d.Tidy :=
  ⟨fun _ => hbase, by rw [hb, hv]; exact h.inValue⟩

theorem Tidy.base_startRun (h : c.Tidy) : c.startRun.base = [] := by
  unfold Context.startRun
  split
  · rfl
  · rename_i hrun
    exact h.base (.inl (by simpa using hrun))

theorem braces_startRun (c : Context) :
    c.startRun.braces = c.braces ∧ c.startRun.inValue = c.inValue := by
  unfold Context.startRun
  split <;> exact ⟨rfl, rfl⟩

theorem Tidy.startRun (h : c.Tidy) : c.startRun.Tidy :=
  h.of_base h.base_startRun (braces_startRun c).1 (braces_startRun c).2

theorem Tidy.endRun (h : c.Tidy) (hrun : d.run = []) (hheader : d.header.isSome = c.header.isSome)
    (hbase : d.base = c.base) (hb : d.braces = c.braces) (hv : d.inValue = c.inValue) : d.Tidy := by
  refine ⟨?_, by rw [hb, hv]; exact h.inValue⟩
  rw [hrun, hheader, hbase]
  exact fun ho => h.base (.inr (ho.resolve_left (· rfl)))

theorem Tidy.dropRun (h : c.Tidy) : c.dropRun.Tidy := h.endRun rfl rfl rfl rfl rfl

theorem Tidy.pushWord (h : c.Tidy) (word : String) : (c.pushWord word).Tidy :=
  h.of_base h.base_startRun (braces_startRun c).1 (braces_startRun c).2

theorem Tidy.pushMark (h : c.Tidy) (mark : String) : (c.pushMark mark).Tidy := by
  have hs := h.startRun
  unfold Context.pushMark
  dsimp only
  split
  · exact hs
  · exact hs.of_base h.base_startRun rfl rfl

theorem Tidy.pushIfStarted (h : c.Tidy) (text : String) (spaced : Bool) :
    (c.pushIfStarted text spaced).Tidy := by
  unfold Context.pushIfStarted
  split
  · exact h
  · rename_i hrun
    exact h.of_base (h.base (.inl (by simpa using hrun))) rfl rfl

theorem Tidy.pushFragment (h : c.Tidy) (text : String) (spaced : Bool) :
    (c.pushFragment text spaced).Tidy :=
  h.startRun.pushIfStarted text spaced

theorem Tidy.dropHeader (h : c.Tidy) : c.dropHeader.Tidy :=
  ⟨fun ho => h.base (.inl (ho.resolve_right nofun)), h.inValue⟩

theorem Tidy.addArgument (h : c.Tidy) : c.addArgument.Tidy := by
  unfold Context.addArgument
  split
  · exact h
  · rename_i head hhead
    split
    · exact h.endRun rfl (by rw [hhead]; rfl) rfl rfl rfl
    · exact h.dropRun.of_shape rfl

theorem Tidy.endArgument (h : c.Tidy) : c.endArgument.Tidy := by
  unfold Context.endArgument
  split
  · exact h.addArgument
  · exact h.dropRun

theorem Tidy.openParen (h : c.Tidy) : c.openParen.Tidy := (h.pushMark "(").of_shape rfl

theorem Tidy.closeParen (h : c.Tidy) : c.closeParen.Tidy := by
  unfold Context.closeParen
  dsimp only
  split
  · exact h.endArgument.of_shape (by simp [shape])
  · split
    · exact (h.pushIfStarted ")" false).of_shape rfl
    · exact h.of_shape rfl

theorem Tidy.comma (h : c.Tidy) : c.comma.Tidy := by
  unfold Context.comma
  split
  · exact ⟨h.base, fun _ => rfl⟩
  · split
    · exact h.endArgument
    · exact h.pushIfStarted "," false

theorem Tidy.equals (h : c.Tidy) : c.equals.Tidy := by
  unfold Context.equals
  split
  · rename_i hin
    refine ⟨h.base, fun hb => ?_⟩
    simp [Context.inEnumeration, show c.braces = 0 from hb] at hin
  · exact h.pushMark "="

theorem Tidy.afterBody (h : c.Tidy) : c.afterBody.Tidy := ⟨h.base, fun _ => rfl⟩

theorem Tidy.afterBlock (h : c.Tidy) : c.afterBlock.Tidy := by
  unfold Context.afterBlock
  dsimp only
  split
  · exact ⟨h.base, fun _ => rfl⟩
  · exact ⟨h.base, fun _ => rfl⟩

end Context

/-! ## Scopes -/

namespace OpenScope

def Tidy (s : OpenScope) : Prop := ∀ c ∈ s.context :: s.suspended, c.Tidy

variable {s t : OpenScope}

theorem Tidy.context (h : s.Tidy) : s.context.Tidy := h _ (List.mem_cons_self ..)

theorem Tidy.of_contexts (h : s.Tidy) (hc : t.context.Tidy) (hs : t.suspended = s.suspended) :
    t.Tidy := by
  intro c hm
  rcases List.mem_cons.mp hm with rfl | hm
  · exact hc
  · exact h c (List.mem_cons_of_mem _ (hs ▸ hm))

theorem Tidy.update (h : s.Tidy) {f : Context → Context} (hf : (f s.context).Tidy) :
    (s.update f).Tidy :=
  h.of_contexts hf rfl

/-- Updates that leave what tidiness looks at alone. -/
theorem Tidy.update_shape (h : s.Tidy) {f : Context → Context}
    (hf : (f s.context).shape = s.context.shape) : (s.update f).Tidy :=
  h.update (h.context.of_shape hf)

theorem Tidy.mapContexts (h : s.Tidy) {f : Context → Context} (hf : ∀ c, (f c).shape = c.shape) :
    (s.mapContexts f).Tidy := by
  intro c hc
  have hc : c ∈ (s.context :: s.suspended).map f := hc
  obtain ⟨d, hd, rfl⟩ := List.mem_map.mp hc
  exact (h d hd).of_shape (hf d)

theorem Tidy.removeAt (h : s.Tidy) (path : Path) : (s.removeAt path).Tidy := by
  unfold OpenScope.removeAt
  split
  · exact h.mapContexts (Context.shape_afterRemove path _)
  · exact h

theorem Tidy.insertAt (h : s.Tidy) (path : Path) (new : Node) : (s.insertAt path new).Tidy :=
  h.mapContexts (Context.shape_afterInsert path)

theorem Tidy.noteRecorded (h : s.Tidy) (home : Path) (kind : Kind) (name : String) :
    (s.noteRecorded home kind name).Tidy := by
  unfold OpenScope.noteRecorded
  dsimp only
  split <;> exact h

theorem Tidy.describe (h : s.Tidy) (raw : String) : (s.describe raw).Tidy := by
  unfold OpenScope.describe
  dsimp only
  split
  · exact h.removeAt _
  · exact h

theorem Tidy.commitTo (h : s.Tidy) (home : Path) (node : Node) : (s.commitTo home node).1.Tidy := by
  refine s.commitTo_cases home node (fun _ => h) (fun _ => h) fun _ _ room _ _ _ hroom => ?_
  have hremoved : room.Tidy := hroom.of_removeAt h fun i => h.removeAt _
  exact (hremoved.insertAt _ _).noteRecorded _ _ _

theorem Tidy.commit (h : s.Tidy) (node : Node) : (s.commit node).1.Tidy := h.commitTo [] node

theorem Tidy.commitNamed (h : s.Tidy) (node : Node) : (s.commitNamed node).1.Tidy := by
  unfold OpenScope.commitNamed
  split
  · exact h
  · exact h.commit node

theorem Tidy.commitAside (h : s.Tidy) (home node : Node) : (s.commitAside home node).1.Tidy :=
  scope_commitAside h (fun _ => h) home node

theorem Tidy.commitHeader (h : s.Tidy) (head : Header) : (s.commitHeader head).Tidy := by
  have hfinish : ∀ (t : OpenScope) (path : Option Path), t.Tidy →
      (t.update fun c => (c.settleArgument path).dropHeader.dropRun).Tidy := fun t path ht =>
    ht.update ((ht.context.of_shape (d := t.context.settleArgument path) rfl).dropHeader.dropRun)
  unfold OpenScope.commitHeader
  dsimp only
  split
  · exact hfinish _ _ (h.commit _)
  · exact hfinish _ _ (h.commitTo _ _)
  · exact hfinish _ _ (h.commitAside _ _)

/-! ### Comments -/

theorem Tidy.describeClaim (h : s.Tidy) (raw : String) (claim : Claim) :
    (s.describeClaim raw claim).Tidy := by
  cases claim with
  | recorded path => exact h
  | argument => exact h.update_shape (by simp [Context.shape])
  | constant i =>
    simp only [OpenScope.describeClaim]
    split
    · exact h
    · exact h.update_shape rfl
    · exact h

theorem Tidy.withdrawClaim (h : s.Tidy) (claim : Claim) : (s.withdrawClaim claim).Tidy := by
  cases claim with
  | recorded path => exact h.removeAt path
  | argument => exact h.update_shape (by simp [Context.shape])
  | constant i =>
    simp only [OpenScope.withdrawClaim]
    split
    · exact h.removeAt _
    · exact h.update_shape rfl
    · exact h

theorem Tidy.withdrawFirst (count : Nat) (h : s.Tidy) : (withdrawFirst count s).Tidy := by
  induction count generalizing s with
  | zero => exact h
  | succ count ih =>
    unfold OpenScope.withdrawFirst
    split
    · exact ih (Tidy.withdrawClaim (h.update_shape rfl) _)
    · exact h

theorem Tidy.settleClaims (h : s.Tidy) (raw : String) (claims : List Claim) :
    (s.settleClaims raw claims).Tidy := by
  unfold OpenScope.settleClaims
  dsimp only
  split
  · exact (h.withdrawFirst _).update_shape rfl
  · refine Tidy.update_shape ?_ rfl
    induction claims generalizing s with
    | nil => exact h
    | cons claim claims ih => exact ih (h.describeClaim raw claim)

theorem Tidy.takeComment (h : s.Tidy) (text : String) (line : Bool) : (s.takeComment text line).Tidy := by
  unfold OpenScope.takeComment
  dsimp only
  split
  · exact h
  · split
    · exact h.settleClaims _ _
    · split
      · split
        · exact h.describe text
        · exact h.describe text
      · split
        · exact h.update_shape rfl
        · exact h.update_shape rfl

/-! ### Declarations -/

theorem Tidy.startFunction (h : s.Tidy) (hb : s.context.base = []) (word : String) :
    (s.startFunction word).Tidy := by
  unfold OpenScope.startFunction
  dsimp only
  split
  · exact h.update h.context.dropRun
  · exact h.update (h.context.of_base hb rfl rfl)

theorem Tidy.declareVariable (h : s.Tidy) (hheader : s.context.header = none) (terminator : Char) :
    (s.declareVariable terminator).Tidy := by
  unfold OpenScope.declareVariable
  split
  · exact h.update h.context.dropRun
  · refine (Tidy.commit (h.update ⟨?_, h.context.inValue⟩) _).update_shape rfl
    rintro (hrun | hsome)
    · exact absurd rfl hrun
    · change s.context.header.isSome = true at hsome
      rw [hheader] at hsome
      cases hsome

theorem Tidy.declareAlias (h : s.Tidy) (name : String) (type : Run) :
    (s.declareAlias name type).Tidy :=
  (Tidy.commit (h.update (h.context.endRun rfl rfl rfl rfl rfl)) _).update_shape rfl

theorem Tidy.finishAlias (h : s.Tidy) : s.finishAlias.Tidy := by
  unfold OpenScope.finishAlias
  dsimp only
  split
  · exact h.declareAlias _ _
  · exact h

theorem Tidy.nameAside (h : s.Tidy) (name : String) (place : Option Place) :
    (s.nameAside name place).1.Tidy := by
  unfold OpenScope.nameAside
  split
  · split
    · exact h.commit _
    · exact h
  · exact h

theorem Tidy.declareAwaited (h : s.Tidy) (name : String) : (s.declareAwaited name).Tidy := by
  unfold OpenScope.declareAwaited
  split
  · exact (h.commit _).update_shape rfl
  · exact h.update_shape rfl

theorem Tidy.endDefinition (h : s.Tidy) (aliased : Bool) :
    (s.update (·.afterDefinition aliased)).Tidy :=
  h.update (h.context.endRun rfl rfl rfl rfl rfl)

theorem Tidy.updateRecord (h : s.Tidy) (record : Option Place) :
    (s.update ({ · with record })).Tidy :=
  h.update_shape rfl

theorem Tidy.updateEnumeration (h : s.Tidy) (enumeration : Option Place) :
    (s.update ({ · with enumeration })).Tidy :=
  h.update_shape rfl

theorem Tidy.declareDefined (h : s.Tidy) (name : String) : (s.declareDefined name).Tidy := by
  unfold OpenScope.declareDefined
  dsimp only
  refine Tidy.endDefinition (Tidy.updateEnumeration (Tidy.nameAside ?_ name _) _) _
  exact Tidy.updateRecord ((h.declareAwaited name).nameAside name _) _

theorem Tidy.endDeclarator (h : s.Tidy) (hheader : s.context.header = none) (word : String)
    (terminator : Char) : (s.endDeclarator word terminator).Tidy := by
  have hw : (s.update (·.pushWord word)).Tidy := h.update (h.context.pushWord word)
  unfold OpenScope.endDeclarator
  dsimp only
  split
  · exact h.declareDefined word
  · split
    · exact h.declareAlias _ _
    · split
      · split
        · exact h.update h.context.dropRun
        · refine hw.declareVariable ?_ terminator
          rw [← hheader]
          unfold OpenScope.update Context.pushWord Context.startRun
          dsimp only
          split <;> rfl
      · exact hw

theorem Tidy.declareConstant (h : s.Tidy) (word : String) : (s.declareConstant word).Tidy := by
  have ht : (s.update .takeComment).Tidy := h.update_shape rfl
  unfold OpenScope.declareConstant
  dsimp only
  split
  · rename_i e he
    have hc := ht.commitTo [e] ((ofName .constant word).describeIf s.context.comment)
    split
    · rename_i t path hcommit
      rw [hcommit] at hc
      exact Tidy.update_shape hc rfl
    · rename_i t hcommit
      rw [hcommit] at hc
      exact hc
  · rename_i home he
    have hc := ht.commitAside home ((ofName .constant word).describeIf s.context.comment)
    split
    · rename_i t i home' hcommit
      rw [hcommit] at hc
      exact Tidy.update_shape hc rfl
    · rename_i t home' hcommit
      rw [hcommit] at hc
      exact hc
  · exact ht

theorem Tidy.declarationWord (h : s.Tidy) (word : String) (terminator : Char) :
    (s.declarationWord word terminator).Tidy := by
  unfold OpenScope.declarationWord
  dsimp only
  split
  · exact h.update_shape rfl
  · have hs : (s.update .startRun).Tidy := h.update h.context.startRun
    split
    · exact hs.startFunction h.context.base_startRun word
    · split
      · split
        · exact hs.update hs.context.dropRun
        · exact hs.update (hs.context.pushWord word).addArgument
      · split
        · rename_i hend
          simp only [Bool.and_eq_true, Option.isNone_iff_eq_none] at hend
          exact hs.endDeclarator hend.1.2 word terminator
        · exact hs.update (hs.context.pushWord word)

theorem Tidy.word (h : s.Tidy) (word : String) (terminator : Char) : (s.word word terminator).Tidy := by
  unfold OpenScope.word
  dsimp only
  split
  · exact h.declarationWord word terminator
  · split
    · split
      · exact h.declareConstant word
      · exact h
    · exact h.update h.context.dropRun

theorem Tidy.endHeader (h : s.Tidy) : s.endHeader.Tidy := by
  unfold OpenScope.endHeader
  split
  · split
    · exact h.commitHeader _
    · exact h.update h.context.dropHeader
  · exact h

theorem header_endHeader (s : OpenScope) : s.endHeader.context.header = none := by
  unfold OpenScope.endHeader
  split
  · split
    · unfold OpenScope.commitHeader
      rfl
    · rfl
  · assumption

theorem Tidy.endRun (h : s.Tidy) (hheader : s.context.header = none) : s.endRun.Tidy := by
  unfold OpenScope.endRun
  split
  · exact h.finishAlias
  · split
    · exact h.declareVariable hheader ';'
    · exact h

theorem Tidy.semicolon (h : s.Tidy) : s.semicolon.Tidy := by
  have hrun := h.endHeader.endRun (header_endHeader s)
  unfold OpenScope.semicolon
  refine hrun.update ?_
  dsimp only
  split
  · exact hrun.context.of_base rfl rfl rfl
  · exact hrun.context.of_base rfl rfl rfl

end OpenScope

/-! ## Stacks of scopes -/

namespace State

/-- All contexts of all open scopes are tidy. -/
def Tidy (s : State) : Prop := ∀ scope ∈ s.scope :: s.enclosing, scope.Tidy

variable {s : State} {inner outer : OpenScope}

theorem Tidy.scope (h : s.Tidy) : s.scope.Tidy := h _ (List.mem_cons_self ..)

theorem Tidy.enter (h : s.Tidy) (mode : Mode) : (s.enter mode).Tidy := h

theorem Tidy.withScope (h : s.Tidy) {scope : OpenScope} (hs : scope.Tidy) :
    State.Tidy { s with scope } := by
  intro t ht
  rcases List.mem_cons.mp ht with rfl | ht
  · exact hs
  · exact h t (List.mem_cons_of_mem _ ht)

theorem Tidy.update (h : s.Tidy) {f : OpenScope → OpenScope} (hf : (f s.scope).Tidy) :
    (s.update f).Tidy :=
  h.withScope hf

theorem Tidy.updateContext (h : s.Tidy) {f : Context → Context} (hf : (f s.scope.context).Tidy) :
    (s.update (·.update f)).Tidy :=
  h.update (h.scope.update hf)

theorem tidy_begin (node : Node) (origin : Origin) : (OpenScope.begin node origin).Tidy := by
  intro c hc
  rw [List.mem_singleton.mp hc]
  exact Context.tidy_ofScope node

theorem tidy_start (tree : Node) : (State.start tree).Tidy := by
  intro t ht
  rw [List.mem_singleton.mp ht]
  exact tidy_begin tree .source

theorem Tidy.push (h : s.Tidy) (node : Node) (origin : Origin) : (s.push node origin).Tidy := by
  intro t ht
  rcases List.mem_cons.mp ht with rfl | ht
  · exact tidy_begin node origin
  · exact h t ht

theorem tidy_putBack (h : outer.Tidy) (inner : OpenScope) : (putBack inner outer).Tidy := by
  unfold putBack
  generalize he : ({ outer with events := outer.events ++ inner.events } : OpenScope) = noted
  have hn : noted.Tidy := by
    rw [← he]
    exact h
  dsimp only
  split
  · exact hn
  · split
    · split
      · exact hn
      · exact OpenScope.Tidy.removeAt (s := noted.modifyAt _ _) hn _
    · exact hn.updateRecord _
    · exact hn
  · exact hn
  · exact hn

theorem Tidy.pop (h : s.Tidy) : s.pop.Tidy := by
  unfold State.pop
  split
  · rename_i context suspended hsuspended
    refine h.withScope fun c hc => h.scope c (List.mem_cons_of_mem _ ?_)
    rw [hsuspended]
    exact hc
  · rename_i outer enclosing _ henclosing
    have hall : ∀ t ∈ outer :: enclosing, t.Tidy := fun t ht =>
      h t (List.mem_cons_of_mem _ (henclosing ▸ ht))
    intro t ht
    rcases List.mem_cons.mp ht with rfl | ht
    · exact tidy_putBack (hall outer (List.mem_cons_self ..)) _
    · exact hall t (List.mem_cons_of_mem _ ht)
  · exact h

/-! ### Braces -/

/-- The words of a definition end, or go on after its body. -/
theorem tidy_beginDefinition {c : Context} (h : c.Tidy) (aliased : Bool) {run : Run}
    (hrun : c.run = [] → run = []) (typeAlias : Option Node) :
    Context.Tidy
      (let d := if aliased then { c with run := run.closeUp } else c.dropRun
      { d.takeComment with typeAlias }) := by
  cases aliased with
  | false => exact h.dropRun.of_shape rfl
  | true =>
    refine ⟨fun ho => h.base ?_, h.inValue⟩
    refine ho.imp_left fun hne he => hne ?_
    show run.closeUp = []
    rw [hrun he]
    rfl

theorem splitAlias_nil {run : Run} (h : run = []) : (splitAlias run).2 = [] := by
  rw [h]
  rfl

theorem Tidy.openRecord (h : s.Tidy) (kind : Kind) (aliased : Bool) {run : Run}
    (hrun : s.scope.context.run = [] → run = []) : (s.openRecord kind aliased run).Tidy := by
  unfold State.openRecord
  dsimp only
  refine Tidy.push (h.withScope ?_) _ _
  refine OpenScope.Tidy.update_shape (OpenScope.Tidy.commitNamed ?_ _) rfl
  exact h.scope.update (tidy_beginDefinition h.scope.context aliased hrun _)

theorem Tidy.openNameSpace (h : s.Tidy) (name : String) : (s.openNameSpace name).Tidy := by
  have hu : (s.scope.update fun c => { c.takeComment.dropRun with claim := none }).Tidy :=
    h.scope.update (h.scope.context.dropRun.of_shape rfl)
  unfold State.openNameSpace
  dsimp only
  split
  · exact Tidy.push (h.withScope hu) _ _
  · exact Tidy.push (h.withScope (hu.commit _)) _ _

theorem tidy_openEnumeration {scope : OpenScope} (h : scope.Tidy) (aliased : Bool) {run : Run}
    (hrun : scope.context.run = [] → run = []) : (openEnumeration aliased run scope).Tidy := by
  unfold State.openEnumeration
  dsimp only
  have hfinish : ∀ (t : OpenScope) (place : Option Place), t.Tidy →
      (t.update ({ · with enumeration := place, inValue := false })).Tidy := fun t _ ht =>
    ht.update ⟨ht.context.base, fun _ => rfl⟩
  refine hfinish _ _ (OpenScope.Tidy.commitNamed ?_ _)
  exact h.update (tidy_beginDefinition h.context aliased hrun _)

theorem Tidy.openLinkage (h : s.Tidy) : s.openLinkage.Tidy := by
  refine h.update ?_
  intro c hc
  rcases List.mem_cons.mp hc with rfl | hc
  · exact Context.tidy_ofScope _
  · rcases List.mem_cons.mp hc with rfl | hc
    · exact h.scope.context.dropRun.of_shape rfl
    · exact h.scope c (List.mem_cons_of_mem _ hc)

theorem Tidy.openBlock (h : s.Tidy) {f : OpenScope → OpenScope} (hf : (f s.scope).Tidy) :
    (s.openBlock f).Tidy :=
  h.update (hf.update ⟨hf.context.base, fun hb => absurd hb (Nat.succ_ne_zero _)⟩)

theorem Tidy.openBrace (h : s.Tidy) : s.openBrace.Tidy := by
  refine s.openBrace_cases ?header ?record ?nameSpace ?enumeration ?linkage ?block
  case header => exact fun head _ => h.openBlock (h.scope.commitHeader head)
  case record => exact fun kind _ => h.openRecord kind _ splitAlias_nil
  case nameSpace => exact fun name _ _ => h.openNameSpace name
  case enumeration => exact h.openBlock (tidy_openEnumeration h.scope _ splitAlias_nil)
  case linkage => exact h.openLinkage
  case block => exact h.openBlock (h.scope.update h.scope.context.dropRun)

theorem Tidy.closeBrace (h : s.Tidy) : s.closeBrace.Tidy := by
  rw [closeBrace_eq]
  split
  · exact h.updateContext h.scope.context.afterBlock
  · exact (h.updateContext h.scope.context.afterBody).pop

/-! ### Characters -/

theorem Tidy.mark (h : s.Tidy) (c : Char) : (s.mark c).Tidy := by
  have hc := h.scope.context
  refine mark_cases c ?begins ?openBrace ?closeBrace ?openParen ?closeParen ?semicolon ?comma
    ?equals ?sign ?ampersand ?colon ?other
  case begins => exact fun mode _ => h.enter mode
  case openBrace => exact fun _ => h.openBrace
  case closeBrace => exact fun _ => h.closeBrace
  case openParen => exact fun _ => h.updateContext hc.openParen
  case closeParen => exact fun _ => h.updateContext hc.closeParen
  case semicolon => exact fun _ => h.update h.scope.semicolon
  case comma => exact fun _ => h.updateContext hc.comma
  case equals => exact fun _ => h.updateContext hc.equals
  case sign => exact fun _ => h.updateContext (hc.pushMark _)
  case ampersand => exact fun _ => h.updateContext (hc.pushFragment _ _)
  case colon => exact fun _ => h.updateContext (hc.pushIfStarted _ _)
  case other => exact fun _ _ => h

theorem Tidy.plain (h : s.Tidy) (c : Char) : (s.plain c).Tidy := by
  refine plain_cases c ?newline ?space ?slash ?mark
  case newline => exact fun _ => h.updateContext (h.scope.context.of_shape rfl)
  case space => exact fun _ => h
  case slash => exact fun _ => h.enter .slash
  case mark => exact fun _ _ => (h.updateContext (h.scope.context.of_shape rfl)).mark c

theorem Tidy.endComment (h : s.Tidy) (text : List Char) (line : Bool) :
    (s.endComment text line).Tidy :=
  (h.enter .plain).update (h.scope.takeComment _ _)

theorem Tidy.endLine (h : s.Tidy) : (s.update (·.update .endLine)).Tidy :=
  h.updateContext (h.scope.context.of_shape rfl)

/-- Reading a character keeps all contexts tidy. -/
theorem Tidy.step (h : s.Tidy) (c : Char) : (s.step c).Tidy := by
  have hc := h.scope.context
  obtain ⟨a, -, hstep⟩ := s.step_acts c
  rw [hstep]
  cases a with
  | turn mode => exact h.enter mode
  | code => exact h.plain c
  | slash =>
    refine Tidy.plain (Tidy.updateContext (h.enter .plain) ?_) c
    exact Context.Tidy.pushMark (c := { s.scope.context with joinable := false })
      (hc.of_shape rfl) "/"
  | word text => exact Tidy.plain ((h.enter .plain).update (h.scope.word _ c)) c
  | blockComment text => exact h.endComment _ _
  | lineComment text => exact (h.endComment _ true).endLine
  | directive => exact (h.enter .plain).endLine
  | literal text => exact (h.enter .plain).updateContext (hc.pushIfStarted _ _)

/-- However much of a source has been read, its contexts are tidy. -/
theorem tidy_run (tree : Node) (source : List Char) : ((start tree).run source).Tidy :=
  run_keeps (P := Tidy) (fun _ c h => h.step c) (tidy_start tree) source

end State

end HeaderDocs.Scan
