import HeaderDocs.Proofs.Scan.Balance
import HeaderDocs.Proofs.Scan.HostedDeclarations
import HeaderDocs.Proofs.Scan.WrittenSources

/-!
# Sources that are recorded elsewhere

A source is read on its own, and inside of something that has been opened before: a linkage block, or a
namespace, which is a host for what the source declares. At every character both are in the same mode,
and the same scopes are open in the source (`Tower`): only its outermost scope is different, and that
has recorded in the host what the other one has recorded in itself.

* `State.Hosted.step`: reading one character in both.
* `State.Hosted.run`: reading a text that closes no bracket but its own.
-/
namespace HeaderDocs.Scan

open HeaderDocs.Node

/-! ## Open scopes -/

/-- The same origin, where the children of the enclosing scope are counted differently. -/
def Origin.mapIndex (φ : Nat → Nat) : Origin → Origin
  | .nameSpace (some i) => .nameSpace (some (φ i))
  | origin => origin

/-- The open scopes of a source, from the innermost one out, with the host of the innermost one and the
contexts below its own. Where the outermost scope is from, and what is open `beneath` it, is no part of
the source. -/
inductive Tower (host : Host) (below : Nat) (home : Origin) (beneath : List OpenScope) :
    Host → Nat → OpenScope → List OpenScope → OpenScope → List OpenScope → Prop where
  /-- The outermost scope of the source. -/
  | source {s u : OpenScope} (h : Hosted host below s u) (origin : s.origin = home) :
      Tower host below home beneath host below s beneath u []
  /-- A scope in it, which is the same in both. -/
  | inner {top : Host} {count : Nat} {s u s' u' : OpenScope} {ss us : List OpenScope}
      (h : Hosted none 0 s u) (origin : s.origin = u.origin.mapIndex top.shift)
      (rest : Tower host below home beneath top count s' ss u' us) :
      Tower host below home beneath none 0 s (s' :: ss) u (u' :: us)

/-- Nothing is left out in one of two hosts only: there is but one, or no declaration is static. -/
def Host.Agrees (host : Host) (u : OpenScope) : Prop :=
  u.Sound ∧ u.Written (· ≠ "static") (Made fun _ => True) ∨ host = none

variable {host top : Host} {below count : Nat} {home : Origin} {beneath ss us : List OpenScope}
  {s u : OpenScope}

theorem Host.Agrees.sound (h : host.Agrees u) : u.Sound ∨ host = none := h.imp_left And.left

theorem Host.Agrees.runs (h : host.Agrees u) :
    u.context.run.Each (· ≠ "static") ∧ u.context.base.Each (· ≠ "static") ∨ host = none :=
  h.imp_left fun hu => ⟨hu.2.context.run, hu.2.context.base⟩

theorem Host.Agrees.run (h : host.Agrees u) :
    u.context.run.Each (· ≠ "static") ∨ host = none := h.runs.imp_left And.left

theorem Host.Agrees.update (h : host.Agrees u) {f : OpenScope → OpenScope}
    (hs : u.Sound → (f u).Sound)
    (hw : u.Sound → u.Written (· ≠ "static") (Made fun _ => True) →
      (f u).Written (· ≠ "static") (Made fun _ => True)) : host.Agrees (f u) :=
  h.imp_left fun hu => ⟨hs hu.1, hw hu.1 hu.2⟩

theorem Host.Agrees.ofTop (h : host.Agrees u) (ht : top = host ∨ top = none) : top.Agrees u :=
  ht.elim (fun he => he ▸ h) .inr

/-! ### Changes of the innermost scope -/

namespace Tower

theorem hosted (h : Tower host below home beneath top count s ss u us) : Hosted top count s u := by
  cases h with
  | source h => exact h
  | inner h => exact h

theorem top_eq (h : Tower host below home beneath top count s ss u us) : top = host ∨ top = none := by
  cases h with
  | source => exact .inl rfl
  | inner => exact .inr rfl

theorem update (h : Tower host below home beneath top count s ss u us) {f g : OpenScope → OpenScope}
    (hf : (f s).origin = s.origin) (hg : (g u).origin = u.origin)
    (hfg : Hosted top count s u → Hosted top count (f s) (g u)) :
    Tower host below home beneath top count (f s) ss (g u) us := by
  cases h with
  | source h horigin => exact .source (hfg h) (hf.trans horigin)
  | inner h horigin hrest => exact .inner (hfg h) (by rw [hf, hg, horigin]) hrest

/-- A scope begins on top of the same scopes. -/
theorem push (h : Tower host below home beneath top count s ss u us) (node : Node) (origin : Origin) :
    Tower host below home beneath none 0 (.begin node (origin.mapIndex top.shift)) (s :: ss)
      (.begin node origin) (u :: us) := by
  refine .inner ⟨rfl, .inr rfl, (Context.mapIndex_id _).symm, ⟨[], rfl, rfl⟩, Host.fits_none _⟩ rfl h

end Tower

namespace Hosted

/-! ### Putting scopes back -/

/-- A scope that ends is put back at the same child. -/
theorem putBack {inner inner' : OpenScope} (h : Hosted host below s u)
    (hi : Hosted none 0 inner inner') (ho : inner.origin = inner'.origin.mapIndex host.shift) :
    Hosted host below (State.putBack inner s) (State.putBack inner' u) := by
  have hevents : Hosted host below { s with events := s.events ++ inner.events }
      { u with events := u.events ++ inner'.events } :=
    ⟨h.node, h.attached, h.context, h.suspended, h.fits⟩
  have hnode : inner.node = inner'.node := hi.node
  have hreplace := fun i : Nat =>
    hevents.modifyAt (fun _ => inner'.node) [i] (.inl (List.cons_ne_nil _ _))
  have hrecord : s.context.record = u.context.record.map (Place.mapIndex host.shift) := by
    rw [h.context]
    rfl
  unfold State.putBack
  dsimp only
  rw [ho, hnode, hrecord]
  cases horigin : inner'.origin with
  | source => exact hevents
  | record =>
    have hattached : inner.attached = inner'.attached := by
      refine hi.attached.resolve_left fun hsource => ?_
      rw [horigin, hsource] at ho
      cases ho
    dsimp only [Origin.mapIndex]
    rw [hattached]
    rcases u.context.record with _ | ⟨i⟩ | ⟨node⟩
    · exact hevents
    · simp only [Option.map_some, Place.mapIndex]
      split
      · exact hreplace i
      · exact (hreplace i).removeAt [i] (.inl (List.cons_ne_nil _ _))
    · exact hevents.update rfl
  | nameSpace index =>
    cases index with
    | none => exact hevents
    | some i => exact hreplace i

end Hosted

/-- The innermost scope ends in both. -/
theorem Tower.putBack {s' u' : OpenScope} (h : Tower host below home beneath top count s' ss u' us)
    (hi : Hosted none 0 s u) (ho : s.origin = u.origin.mapIndex top.shift) :
    Tower host below home beneath top count (State.putBack s s') ss (State.putBack u u') us :=
  h.update (f := State.putBack s) (g := State.putBack u) (congrArg Prod.fst (State.skeleton_putBack _ _))
    (congrArg Prod.fst (State.skeleton_putBack _ _)) fun houter => houter.putBack hi ho

/-- All scopes are put back, if nothing was open before the source. -/
theorem Tower.unwind (h : Tower host below home [] top count s ss u us) :
    Hosted host below (State.unwind s ss) (State.unwind u us) := by
  induction us generalizing top count s ss u with
  | nil =>
    cases h with
    | source h _ => exact h
  | cons u' us ih =>
    cases h with
    | inner h horigin hrest =>
      have hput := ih (hrest.putBack h horigin)
      exact hput

namespace Hosted

/-! ### Beginning definitions -/

theorem comment (h : Hosted host below s u) : s.context.comment = u.context.comment := by
  rw [h.context]
  rfl

theorem node? (h : Hosted host below s u) (p : Place) :
    (p.mapIndex host.shift).node? s.node = p.node? u.node := by
  cases p with
  | aside node => rfl
  | inScope i =>
    rw [h.node]
    exact Host.getElem?_hold i u.node

theorem beginDefinition (h : Hosted host below s u) (aliased : Bool) (run : Run) :
    Hosted host below
      (s.update fun c =>
        let c := if aliased then { c with run := run.closeUp } else c.dropRun
        { c.takeComment with typeAlias := State.aliasOf aliased s.context.comment })
      (u.update fun c =>
        let c := if aliased then { c with run := run.closeUp } else c.dropRun
        { c.takeComment with typeAlias := State.aliasOf aliased u.context.comment }) := by
  rw [h.comment]
  cases aliased <;> exact h.update rfl

theorem beginRecord (h : Hosted host below s u) (kind : Kind) (aliased : Bool) (run : Run) :
    Hosted host below (State.beginRecord kind aliased run s).1
        (State.beginRecord kind aliased run u).1 ∧
      (State.beginRecord kind aliased run s).2 = (State.beginRecord kind aliased run u).2 := by
  unfold State.beginRecord
  extract_lets c attrs node begun c' node' begun'
  have hnode : node = node' :=
    congrArg (fun comment : Option String => Node.describe { kind, attrs } (comment.getD "")) h.comment
  have hbegun : Hosted host below begun begun' := h.beginDefinition aliased run
  obtain ⟨hcommit, hplace⟩ := hbegun.commitNamed node'
  rw [hnode]
  dsimp only
  rw [hplace]
  exact ⟨hcommit.update rfl, congrArg (Option.getD · node') (hcommit.node? _)⟩

theorem beginNameSpace (h : Hosted host below s u) (name : String) :
    Hosted host below (State.beginNameSpace name s).1 (State.beginNameSpace name u).1 ∧
      (State.beginNameSpace name s).2.1 = (State.beginNameSpace name u).2.1 ∧
      (State.beginNameSpace name s).2.2 =
        (State.beginNameSpace name u).2.2.mapIndex host.shift := by
  unfold State.beginNameSpace
  extract_lets comment begun node comment' begun' node'
  have hnode : node = node' :=
    congrArg (fun comment : Option String => (ofName .nameSpace name).describe (comment.getD "")) h.comment
  have hbegun : Hosted host below begun begun' := h.update rfl
  have hfound : begun.node.children.findIdx? (isNamed .nameSpace (some name)) =
      (begun'.node.children.findIdx? (isNamed .nameSpace (some name))).map host.shift := by
    rw [hbegun.node]
    exact Host.findIdx?_hold hbegun.fits .nameSpace name begun'.node
  rw [hfound, hnode]
  cases begun'.node.children.findIdx? (isNamed .nameSpace (some name)) with
  | some i =>
    have hchild := host.get?_hold [i] (.inl (List.cons_ne_nil _ _)) begun'.node
    rw [← hbegun.node] at hchild
    exact ⟨hbegun, congrArg (Option.getD · (ofName .nameSpace name)) hchild, rfl⟩
  | none =>
    obtain ⟨hcommit, hpath⟩ := hbegun.commit node'
    have horigin : ∀ path : Option Path,
        Origin.nameSpace ((path.map (Path.mapHead host.shift)).bind (·.head?)) =
          (Origin.nameSpace (path.bind (·.head?))).mapIndex host.shift := by
      rintro (_ | _ | ⟨i, rest⟩) <;> rfl
    simp only [Option.map_none]
    refine ⟨hcommit, trivial, ?_⟩
    rw [hpath]
    exact horigin _

theorem openEnumeration (h : Hosted host below s u) (aliased : Bool) (run : Run) :
    Hosted host below (State.openEnumeration aliased run s) (State.openEnumeration aliased run u) := by
  unfold State.openEnumeration
  extract_lets c name node typeAlias begun c' node' typeAlias' begun'
  have hnode : node = node' :=
    congrArg (fun comment : Option String =>
      Node.describe { kind := .enumType, attrs := { name } } (comment.getD "")) h.comment
  have hbegun : Hosted host below begun begun' := h.beginDefinition aliased run
  obtain ⟨hcommit, hplace⟩ := hbegun.commitNamed node'
  rw [hnode]
  dsimp only
  rw [hplace]
  exact hcommit.update rfl

theorem openLinkage (h : Hosted host below s u) :
    Hosted host below
      { s with
        context := .ofScope s.node
        suspended := { s.context.dropRun with claim := none } :: s.suspended }
      { u with
        context := .ofScope u.node
        suspended := { u.context.dropRun with claim := none } :: u.suspended } := by
  obtain ⟨others, hlength, hsuspended⟩ := h.suspended
  refine ⟨h.node, h.attached, ?_, ⟨others, hlength, ?_⟩, h.fits⟩
  · -- members have an access only in a class, which is no host
    have hclass : (s.node.kind == .classType) = (u.node.kind == .classType) := by
      cases host with
      | none =>
        rw [h.node]
        rfl
      | some node =>
        obtain ⟨-, hnode, hu⟩ := h.fits node rfl
        have hne : ∀ {kind : Kind}, kind.isRecord = false → (kind == .classType) = false := by
          rintro ⟨⟩ <;> simp [Kind.isRecord]
        rw [h.node]
        exact (hne hnode).trans (hne hu).symm
    simp only [Context.ofScope, hclass]
    rfl
  · rw [h.context, hsuspended]
    rfl

/-- The innermost context ends in both, if it is not the last one. -/
theorem resume (h : Hosted host below s u) {context : Context} {suspended : List Context}
    (hu : u.suspended = context :: suspended) :
    ∃ rest, s.suspended = context.mapIndex host.shift :: rest ∧
      Hosted host below { s with context := context.mapIndex host.shift, suspended := rest }
        { u with context, suspended } := by
  obtain ⟨others, hlength, hsuspended⟩ := h.suspended
  rw [hu, List.map_cons, List.cons_append] at hsuspended
  exact ⟨_, hsuspended, h.node, h.attached, rfl, ⟨others, hlength, rfl⟩, h.fits⟩

end Hosted

/-! ## States -/

namespace State

/-- A source is read in two places: both are in the same mode, and the same scopes are open in the
source. -/
structure Hosted (host : Host) (below : Nat) (home : Origin) (beneath : List OpenScope)
    (s v : State) : Prop where
  mode : s.mode = v.mode
  scopes : ∃ top count, Tower host below home beneath top count s.scope s.enclosing v.scope v.enclosing

variable {s v : State}

namespace Hosted

theorem enter (h : s.Hosted host below home beneath v) (mode : Mode) :
    (s.enter mode).Hosted host below home beneath (v.enter mode) := ⟨rfl, h.scopes⟩

/-- What is done to the innermost scope, wherever that records. -/
theorem update (h : s.Hosted host below home beneath v) {f : OpenScope → OpenScope}
    (ho : ∀ scope, (f scope).origin = scope.origin)
    (hf : ∀ top count, top = host ∨ top = none → Scan.Hosted top count s.scope v.scope →
      Scan.Hosted top count (f s.scope) (f v.scope)) :
    (s.update f).Hosted host below home beneath (v.update f) := by
  obtain ⟨top, count, ht⟩ := h.scopes
  exact ⟨h.mode, top, count, ht.update (ho _) (ho _) (hf top count ht.top_eq)⟩

theorem updateContext (h : s.Hosted host below home beneath v) {f : Context → Context}
    (hf : ∀ φ c, f (c.mapIndex φ) = (f c).mapIndex φ) :
    (s.update (·.update f)).Hosted host below home beneath (v.update (·.update f)) :=
  h.update (fun _ => rfl) fun _ _ _ hs => hs.update (hf _ _)

theorem parens (h : s.Hosted host below home beneath v) :
    s.scope.context.parens = v.scope.context.parens := by
  obtain ⟨top, count, ht⟩ := h.scopes
  rw [ht.hosted.context]
  rfl

/-! ### Braces -/

theorem openBlock (h : s.Hosted host below home beneath v)
    (ht : Tower host below home beneath top count s.scope s.enclosing v.scope v.enclosing)
    {f g : OpenScope → OpenScope} (hf : (f s.scope).skeleton = s.scope.skeleton)
    (hg : (g v.scope).skeleton = v.scope.skeleton)
    (hfg : Scan.Hosted top count (f s.scope) (g v.scope)) :
    (s.openBlock f).Hosted host below home beneath (v.openBlock g) := by
  let counted (scope : OpenScope) : OpenScope :=
    scope.update fun c => { c with braces := c.braces + 1, claim := none }
  exact ⟨h.mode, top, count,
    ht.update (f := fun scope => counted (f scope)) (g := fun scope => counted (g scope))
      (congrArg Prod.fst hf) (congrArg Prod.fst hg) fun _ => hfg.update rfl⟩

theorem push (hmode : s.mode = v.mode) {outer outer' : OpenScope}
    (ht : Tower host below home beneath top count outer s.enclosing outer' v.enclosing) (node : Node)
    (origin : Origin) :
    (State.push node (origin.mapIndex top.shift) { s with scope := outer }).Hosted host below home beneath
      (State.push node origin { v with scope := outer' }) :=
  ⟨hmode, none, 0, ht.push node origin⟩

theorem openRecord (h : s.Hosted host below home beneath v) (kind : Kind) (aliased : Bool) (run : Run) :
    (s.openRecord kind aliased run).Hosted host below home beneath (v.openRecord kind aliased run) := by
  obtain ⟨top, count, ht⟩ := h.scopes
  have horigin := fun scope => congrArg Prod.fst (skeleton_beginRecord kind aliased run scope)
  have hbegun := ht.update (f := fun scope => (beginRecord kind aliased run scope).1)
    (g := fun scope => (beginRecord kind aliased run scope).1) (horigin _) (horigin _)
    fun hs => (hs.beginRecord kind aliased run).1
  rw [openRecord_eq, openRecord_eq, (ht.hosted.beginRecord kind aliased run).2]
  exact push h.mode hbegun _ .record

theorem openNameSpace (h : s.Hosted host below home beneath v) (name : String) :
    (s.openNameSpace name).Hosted host below home beneath (v.openNameSpace name) := by
  obtain ⟨top, count, ht⟩ := h.scopes
  have horigin := fun scope => congrArg Prod.fst (skeleton_beginNameSpace name scope)
  have hbegun := ht.update (f := fun scope => (beginNameSpace name scope).1)
    (g := fun scope => (beginNameSpace name scope).1) (horigin _) (horigin _)
    fun hs => (hs.beginNameSpace name).1
  obtain ⟨-, hnode, hindex⟩ := ht.hosted.beginNameSpace name
  rw [openNameSpace_eq, openNameSpace_eq, hnode, hindex]
  exact push h.mode hbegun _ _

theorem openBrace (h : s.Hosted host below home beneath v) :
    s.openBrace.Hosted host below home beneath v.openBrace := by
  obtain ⟨top, count, ht⟩ := h.scopes
  have hs := ht.hosted
  unfold State.openBrace
  dsimp only
  rw [hs.run, hs.header]
  cases v.scope.context.header with
  | some head =>
    exact h.openBlock ht (OpenScope.skeleton_commitHeader _ _) (OpenScope.skeleton_commitHeader _ _)
      (hs.commitHeader head)
  | none =>
    simp only [Option.map_none]
    split
    · exact h.openRecord _ _ _
    · split
      · exact h.openNameSpace _
      · split
        · exact h.openBlock ht (skeleton_openEnumeration _ _ _) (skeleton_openEnumeration _ _ _)
            (hs.openEnumeration _ _)
        · split
          · exact h.update (fun _ => rfl) fun _ _ _ hs => hs.openLinkage
          · exact h.openBlock ht (OpenScope.skeleton_update _ rfl) (OpenScope.skeleton_update _ rfl)
              (hs.update rfl)

/-- A closing brace ends the same context in both, unless it is the outermost one of the source. -/
theorem pop (h : s.Hosted host below home beneath v)
    (hb : (below = 0 ∧ beneath = []) ∨ ¬ (v.scope.suspended = [] ∧ v.enclosing = [])) :
    s.pop.Hosted host below home beneath v.pop := by
  obtain ⟨mode, scope, enclosing⟩ := s
  obtain ⟨mode', u, us⟩ := v
  obtain ⟨hmode, top, count, ht⟩ := h
  dsimp only at hmode ht hb
  subst hmode
  rcases hu : u.suspended with _ | ⟨context, suspended⟩
  · obtain ⟨others, hlength, hsuspended⟩ := ht.hosted.suspended
    rw [hu, List.map_nil, List.nil_append] at hsuspended
    cases ht with
    | source ht hhome =>
      obtain ⟨rfl, rfl⟩ := hb.resolve_right fun hne => hne ⟨hu, rfl⟩
      rw [List.length_eq_zero_iff.mp hlength] at hsuspended
      simp only [State.pop, hu, hsuspended]
      exact ⟨rfl, _, _, .source ht hhome⟩
    | inner ht horigin hrest =>
      rw [List.length_eq_zero_iff.mp hlength] at hsuspended
      simp only [State.pop, hu, hsuspended]
      exact ⟨rfl, _, _, hrest.putBack ht horigin⟩
  · obtain ⟨rest, hsuspended, hresumed⟩ := ht.hosted.resume hu
    simp only [State.pop, hu, hsuspended]
    exact ⟨rfl, top, count, ht.update (f := fun scope => { scope with context := _, suspended := _ })
      (g := fun scope => { scope with context := _, suspended := _ }) rfl rfl fun _ => hresumed⟩

theorem closeBrace (h : s.Hosted host below home beneath v)
    (hb : (below = 0 ∧ beneath = []) ∨ ∀ parens, v.brackets ≠ [(0, parens)]) :
    s.closeBrace.Hosted host below home beneath v.closeBrace := by
  obtain ⟨top, count, ht⟩ := h.scopes
  rw [closeBrace_eq, closeBrace_eq, show s.scope.context.braces = v.scope.context.braces by
    rw [ht.hosted.context]; rfl]
  split
  · exact h.updateContext fun _ => Context.afterBlock_mapIndex
  · rename_i hbraces
    refine (h.updateContext fun _ => Context.afterBody_mapIndex).pop (hb.imp_right fun hne he => ?_)
    refine hne v.scope.context.parens ?_
    have hsuspended : v.scope.suspended = [] := he.1
    have henclosing : v.enclosing = [] := he.2
    rw [brackets_eq, hsuspended, henclosing, Context.brackets, Nat.eq_zero_of_not_pos hbraces]
    rfl

/-! ### Characters -/

theorem mark (h : s.Hosted host below home beneath v) (hok : host.Agrees v.scope) {c : Char}
    (hb : (below = 0 ∧ beneath = []) ∨ (c = '\x7d' → ∀ parens, v.brackets ≠ [(0, parens)])) :
    (s.mark c).Hosted host below home beneath (v.mark c) := by
  refine mark_cases c ?begins ?openBrace ?closeBrace ?openParen ?closeParen ?semicolon ?comma
    ?equals ?sign ?ampersand ?colon ?other
  case begins => exact fun mode _ => h.enter mode
  case openBrace => exact fun _ => h.openBrace
  case closeBrace => exact fun hc => h.closeBrace (hb.imp_right fun hne => hne hc)
  case openParen => exact fun _ => h.updateContext fun _ => Context.openParen_mapIndex
  case closeParen => exact fun _ => h.updateContext fun _ => Context.closeParen_mapIndex
  case semicolon =>
    exact fun _ => h.update (fun scope => congrArg Prod.fst scope.skeleton_semicolon)
      fun top _ htop hs => hs.semicolon (hok.ofTop htop).run
  case comma => exact fun _ => h.updateContext fun _ => Context.comma_mapIndex
  case equals => exact fun _ => h.updateContext fun _ => Context.equals_mapIndex
  case sign => exact fun _ => h.updateContext fun _ c => Context.pushMark_mapIndex c _
  case ampersand => exact fun _ => h.updateContext fun _ c => Context.pushFragment_mapIndex c _ _
  case colon => exact fun _ => h.updateContext fun _ c => Context.pushIfStarted_mapIndex c _ _
  case other => exact fun _ _ => h

theorem endLine (h : s.Hosted host below home beneath v) :
    (s.update (·.update .endLine)).Hosted host below home beneath (v.update (·.update .endLine)) :=
  h.updateContext fun _ => Context.endLine_mapIndex

theorem plain (h : s.Hosted host below home beneath v) (hok : host.Agrees v.scope) {c : Char}
    (hb : (below = 0 ∧ beneath = []) ∨ (c = '\x7d' → ∀ parens, v.brackets ≠ [(0, parens)])) :
    (s.plain c).Hosted host below home beneath (v.plain c) := by
  refine plain_cases c ?newline ?space ?slash ?mark
  case newline => exact fun _ => h.updateContext fun _ _ => rfl
  case space => exact fun _ => h
  case slash => exact fun _ => h.enter _
  case mark =>
    intro _ _
    have hjoin := hok.update (f := (·.update ({ · with joinable := false })))
      (fun hs => (hs.update_refs rfl).sound)
      fun _ hw => hw.update (hw.context.withJoinable false)
    exact (h.updateContext (f := ({ · with joinable := false })) fun _ _ => rfl).mark hjoin hb

theorem endComment (h : s.Hosted host below home beneath v) (hok : host.Agrees v.scope)
    (text : List Char) (line : Bool) :
    (s.endComment text line).Hosted host below home beneath (v.endComment text line) :=
  (h.enter .plain).update (fun scope => congrArg Prod.fst (scope.skeleton_takeComment _ _))
    fun _ _ htop hs => hs.takeComment (hok.ofTop htop).sound _ _

/-- The words and marks of a source without static declarations. -/
theorem lexicon_ne_static : Lexicon (· ≠ "static") (Made fun _ => True) :=
  ⟨by decide, fun _ _ => trivial, fun _ _ _ _ _ _ => trivial, fun _ _ _ _ => trivial⟩

/-- Reading a character in both. A brace of the code may not close what was opened before the
source. -/
theorem step (h : s.Hosted host below home beneath v) (hok : host.Agrees v.scope) {c : Char}
    (hends : (∀ text, v.Ends c text → text ≠ "static") ∨ host = none)
    (hb : (below = 0 ∧ beneath = []) ∨ (v.mode.layer.isCode c = true → c = '\x7d' →
      ∀ parens, v.brackets ≠ [(0, parens)])) :
    (s.step c).Hosted host below home beneath (v.step c) := by
  obtain ⟨a, ha, hs, hv⟩ := step_acts_both h.mode h.parens c
  rw [ha.isCode] at hb
  rw [hs, hv]
  cases a with
  | turn mode => exact h.enter mode
  | code => exact h.plain hok (hb.imp_right fun hne => hne rfl)
  | slash =>
    have hpushed := hok.update
      (f := (·.update fun d => Context.pushMark { d with joinable := false } "/"))
      (fun hs => (hs.update_refs ((Context.refs_pushMark _ _).trans rfl)).sound)
      fun _ hw => hw.update
        ((hw.context.withJoinable false).pushMark (lexicon_ne_static.marks "/" (by decide)))
    have hsame := (v.sameBrackets_enter .plain).trans (sameBrackets_updateContext
      (f := fun d => Context.pushMark { d with joinable := false } "/")
      ((Context.skeleton_pushMark _ _).trans rfl))
    refine plain ((h.enter .plain).updateContext
      (f := fun d => Context.pushMark { d with joinable := false } "/") fun _ d => ?_) hpushed
      (hb.imp_right fun hne he => hsame.brackets ▸ hne rfl he)
    exact Context.pushMark_mapIndex { d with joinable := false } "/"
  | word text =>
    cases ha with | word hmode hpart
    have hword : String.ofList text.reverse ≠ "static" ∨ host = none :=
      hends.imp_left fun hall => hall _ (.word hmode hpart)
    have hread : host.Agrees (v.scope.word (String.ofList text.reverse) c) := by
      rcases hok with ⟨hs, hw⟩ | hnone
      · refine hword.imp_left fun hne => ⟨(hs.word _ c).sound, ?_⟩
        exact hw.word hs lexicon_ne_static hne c
      · exact .inr hnone
    have hsame := (v.sameBrackets_enter .plain).trans
      (sameBrackets_update (OpenScope.skeleton_word v.scope (String.ofList text.reverse) c))
    refine plain ((h.enter .plain).update (fun scope => congrArg Prod.fst (scope.skeleton_word _ _))
      fun _ _ htop hs => hs.word (hok.ofTop htop).runs _ c) hread
      (hb.imp_right fun hne he => hsame.brackets ▸ hne rfl he)
  | blockComment text => exact h.endComment hok _ _
  | lineComment text => exact (h.endComment hok _ true).endLine
  | directive => exact (h.enter .plain).endLine
  | literal text =>
    exact (h.enter .plain).updateContext fun _ d => Context.pushIfStarted_mapIndex d _ _

/-- Reading a text in both. In a host, no word of it may be the one that begins a static declaration; and
if something is open before the text, this may only close its own braces. -/
theorem run (text : List Char) (h : s.Hosted host below home beneath v)
    (hok : ((∃ root, v.Sound root) ∧ v.Written (· ≠ "static") (fun _ => True) ∧
      ∀ before c after, text = before ++ c :: after →
        ∀ word, (v.run before).Ends c word → word ≠ "static") ∨ host = none)
    (hb : (below = 0 ∧ beneath = []) ∨
      ∃ n n', v.Reads n ∧ text.foldlM Nesting.read? n = some n') :
    (s.run text).Hosted host below home beneath (v.run text) := by
  induction text generalizing s v with
  | nil => exact h
  | cons c text ih =>
    have hagrees : host.Agrees v.scope := hok.imp_left fun ⟨⟨_, hv⟩, hw, _⟩ => ⟨hv.sound, hw.scope⟩
    refine ih (h.step hagrees ?_ ?_) ?_ ?_
    · exact hok.imp_left fun hv => hv.2.2 [] c text rfl
    · refine hb.imp_right fun ⟨n, n', hreads, hfold⟩ hcode he parens => ?_
      subst he
      rw [List.foldlM_cons] at hfold
      obtain ⟨m, hm, -⟩ := Option.bind_eq_some_iff.mp hfold
      exact hreads.brace_open hm hcode parens
    · refine hok.imp_left fun ⟨⟨root, hsound⟩, hwritten, hends⟩ =>
        ⟨⟨root, hsound.step c⟩, ?_, fun before d after he => ?_⟩
      · exact hwritten.step hsound lexicon_ne_static trivial (hends [] c text rfl)
      · exact hends (c :: before) d after (congrArg (c :: ·) he)
    · refine hb.imp_right fun ⟨n, n', hreads, hfold⟩ => ?_
      rw [List.foldlM_cons] at hfold
      obtain ⟨m, hm, hfold⟩ := Option.bind_eq_some_iff.mp hfold
      exact ⟨m, n', hreads.step hm, hfold⟩

/-- The outermost scopes of a source when nothing is open in it any more. -/
theorem outermost (h : s.Hosted host below home beneath v) (hv : v.enclosing = []) :
    Scan.Hosted host below s.scope v.scope ∧ s.scope.origin = home ∧ s.enclosing = beneath := by
  obtain ⟨top, count, ht⟩ := h.scopes
  rw [hv] at ht
  generalize s.scope = inner, s.enclosing = ss, v.scope = u at ht ⊢
  cases ht with
  | source ht hhome => exact ⟨ht, hhome, rfl⟩

end Hosted

end State

end HeaderDocs.Scan
