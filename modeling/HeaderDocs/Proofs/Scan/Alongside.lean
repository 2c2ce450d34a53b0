import HeaderDocs.Proofs.Scan.Arrangement
import HeaderDocs.Proofs.Scan.OverlayScopes
import HeaderDocs.Proofs.Text.Occurrence

/-!
# One source read into two trees, character by character

A source that opens no namespace and qualifies no name is read into the empty documentation and
into another tree. At every character both are in the same mode, and the same scopes are open: only
the scope of the source itself is different, and it stays beside the other (`State.Alongside`).

* `State.Alongside.step`: reading one character in both.
* `State.Alongside.run`: reading on in both, as long as nothing that is read is qualified.
-/
namespace HeaderDocs.Scan

open HeaderDocs.Node HeaderDocs.Marked HeaderDocs.Text

/-- The scopes open in both, from the innermost one out. Records are the only scopes that a source
without namespaces opens. -/
inductive Alongside (t : Node) : OpenScope → List OpenScope → OpenScope → List OpenScope → Prop where
  /-- The scope of the source. -/
  | source {s u : OpenScope} (h : Beside t s u) : Alongside t s [] u []
  /-- A scope in it, which is the same in both. -/
  | inner {u s' u' : OpenScope} {ss us : List OpenScope} (ho : us = [] → u.origin = .record)
    (h : Alongside t s' ss u' us) : Alongside t u (s' :: ss) u (u' :: us)

variable {t : Node} {z : List (Bool × Node)} {s u : OpenScope} {ss us : List OpenScope}
  {root : Kind × Option String}

/-- The innermost scopes are equal, or those of the source itself. -/
theorem Alongside.update (h : Alongside t s ss u us) {f : OpenScope → OpenScope}
    (ho : (f u).origin = u.origin)
    (hb : ∀ z, Overlays t z u → Beside t (f (u.over t z)) (f u)) :
    Alongside t (f s) ss (f u) us := by
  cases h with
  | source h =>
    obtain ⟨z, hz, rfl⟩ := h
    exact .source (hb z hz)
  | inner horigin hrest => exact .inner (fun he => ho.trans (horigin he)) hrest

/-- A scope begins on top of the same scopes. -/
theorem Alongside.push (h : Alongside t s ss u us) (node : Node) {origin : Origin}
    (ho : us = [] → origin = .record) :
    Alongside t (.begin node origin) (s :: ss) (.begin node origin) (u :: us) :=
  .inner ho h

/-! ## Putting scopes back -/

/-- A record that ends is put back at the same child of the source. -/
theorem Overlays.putBack {inner : OpenScope} (h : Overlays t z u) (ho : inner.origin = .record)
    (hfits : inner.FitsIn u) :
    Beside t (State.putBack inner (u.over t z)) (State.putBack inner u) := by
  have hz : Overlays t z { u with events := u.events ++ inner.events } :=
    ⟨⟨h.root, h.own, h.named, h.unique, h.ordered, h.unscoped, h.contexts⟩, h.tree, h.old⟩
  unfold OpenScope.FitsIn at hfits
  rw [ho] at hfits
  unfold State.putBack
  rw [ho]
  dsimp only at hfits ⊢
  have hrecord : (u.over t z).context.record = u.context.record.map (Place.mapIndex (place z)) := rfl
  rw [hrecord]
  rcases hr : u.context.record with _ | ⟨i⟩ | ⟨node⟩
  · exact hz.beside
  · obtain ⟨m, hm, hkey, hscope⟩ := hfits _ hr
    obtain ⟨z₁, hp₁, hz₁, he₁⟩ := hz.modifyAt (fun _ => inner.node) i [] fun c hc => by
      cases hm.symm.trans hc
      exact ⟨hkey.symm, hscope.symm⟩
    simp only [Option.map_some, Place.mapIndex]
    split
    · exact ⟨z₁, hz₁, he₁⟩
    · obtain ⟨z₂, hz₂, he₂⟩ := hz₁.removeAt [i] (List.cons_ne_nil _ _)
      refine ⟨z₂, hz₂, ?_⟩
      rw [← he₂, ← he₁, Path.mapHead, hp₁]
      rfl
  · obtain ⟨m, hm, -, hscope⟩ := hfits _ hr
    cases hm
    have hs : inner.node.hasScope = false :=
      (hasScope_congr hscope.symm).trans (h.context.record _ hr)
    obtain ⟨hz₁, he₁⟩ := hz.updateRecord (some (.aside inner.node)) (by
      rintro _ ⟨⟩
      exact hs)
    exact ⟨z, hz₁, he₁⟩

/-- The innermost scope ends in both. -/
theorem Alongside.putBack {u' : OpenScope} (h : Alongside t s ss u (u' :: us))
    (hv : OpenScope.Stacked root u (u' :: us)) :
    ∃ s' ss', ss = s' :: ss' ∧ Alongside t (State.putBack s s') ss' (State.putBack u u') us := by
  obtain ⟨hsound, hfits, hstack⟩ := hv
  cases h with
  | inner horigin hrest =>
    refine ⟨_, _, rfl, ?_⟩
    cases hrest with
    | source h =>
      obtain ⟨z, hz, rfl⟩ := h
      exact .source (hz.putBack (horigin rfl) hfits)
    | inner horigin' hrest =>
      refine .inner (fun he => ?_) hrest
      rw [(State.putBack_continues hsound hstack.sound hfits).origin]
      exact horigin' he

/-- When all scopes are put back, those of the source are beside each other. -/
theorem Alongside.unwind (h : Alongside t s ss u us) (hv : OpenScope.Stacked root u us) :
    Beside t (State.unwind s ss) (State.unwind u us) := by
  induction us generalizing s u ss with
  | nil =>
    cases h with
    | source h => exact h
  | cons u' us ih =>
    obtain ⟨s', ss', rfl, hput⟩ := h.putBack hv
    obtain ⟨hsound, hfits, hstack⟩ := hv
    have hrest := ih hput (hstack.continues (State.putBack_continues hsound hstack.sound hfits))
    exact hrest

/-! ## Beginning definitions -/

/-- The words of a definition are taken in both scopes. -/
theorem Overlays.beginDefinition (h : Overlays t z u) (aliased : Bool) {run : Run}
    (hrun : run.Plain) (comment : Option String) :
    Overlays t z (u.update fun c =>
        let c := if aliased then { c with run := run.closeUp } else c.dropRun
        { c.takeComment with typeAlias := State.aliasOf aliased comment }) ∧
      ((u.over t z).update fun c =>
        let c := if aliased then { c with run := run.closeUp } else c.dropRun
        { c.takeComment with typeAlias := State.aliasOf aliased comment }) =
      (u.update fun c =>
        let c := if aliased then { c with run := run.closeUp } else c.dropRun
        { c.takeComment with typeAlias := State.aliasOf aliased comment }).over t z := by
  have hc := h.context
  have halias : ∀ n, State.aliasOf aliased comment = some n → n.hasScope = false := by
    intro n hn
    unfold State.aliasOf at hn
    split at hn
    · cases hn
      exact (hasScope_congr (scope_describeIf _ _)).trans rfl
    · cases hn
  cases aliased with
  | true =>
    exact h.update rfl
      ⟨hc.access, hrun.closeUp, hc.base, hc.header, hc.record, hc.enumeration, halias⟩
  | false =>
    exact h.update rfl ⟨hc.access, .nil, hc.base, hc.header, hc.record, hc.enumeration, halias⟩

theorem node?_mapIndex (h : Overlays t z u) (p : Place) :
    (p.mapIndex (place z)).node? (u.over t z).node = p.node? u.node := by
  cases p with
  | aside node => rfl
  | inScope i =>
    have hi := h.toMerged.get? (t := t) i []
    rw [OpenScope.get?_singleton, OpenScope.get?_singleton] at hi
    exact hi

theorem path_commitNamed {v : OpenScope} {path : Path} {node : Node}
    (h : (v.commitNamed node).2 = some path) : ∃ i, path = [i] := by
  unfold OpenScope.commitNamed at h
  split at h
  · cases h
  · exact path_commit h

theorem hasScope_placeOf {node : Node} (hs : node.hasScope = false) {path : Option Path} {n : Node}
    (h : some (OpenScope.placeOf node path) = some (.aside n)) : n.hasScope = false := by
  unfold OpenScope.placeOf at h
  split at h
  · cases h
  · cases h
    exact hs

/-- A node is recorded in both scopes, and is found at the same child of the source from then on. -/
theorem Overlays.commitPlaced (h : Overlays t z u) {node : Node} (hs : node.hasScope = false) :
    ∃ z', Overlays t z' (u.commitNamed node).1 ∧
      ((u.over t z).commitNamed node).1 = (u.commitNamed node).1.over t z' ∧
      OpenScope.placeOf node ((u.over t z).commitNamed node).2 =
        (OpenScope.placeOf node (u.commitNamed node).2).mapIndex (place z') := by
  obtain ⟨z', hz', he⟩ := h.commitNamed hs
  refine ⟨z', hz', ?_, ?_⟩
  · rw [he]
  · rw [he]
    exact placeOf_mapHead _ _ fun p hp => path_commitNamed hp

/-- A record begins at the same child of the source in both scopes. -/
theorem Overlays.beginRecord (h : Overlays t z u) (kind : Kind) (aliased : Bool) {run : Run}
    (hrun : run.Plain) :
    Beside t (State.beginRecord kind aliased run (u.over t z)).1
        (State.beginRecord kind aliased run u).1 ∧
      (State.beginRecord kind aliased run (u.over t z)).2 =
        (State.beginRecord kind aliased run u).2 := by
  have hcomment : (u.over t z).context.comment = u.context.comment := rfl
  obtain ⟨hz₁, he₁⟩ := h.beginDefinition aliased hrun u.context.comment
  unfold State.beginRecord
  extract_lets c attrs node begun c' node' begun'
  have hs : node.hasScope = false := (hasScope_congr (scope_describe _ _)).trans rfl
  have hbegun : begun = begun'.over t z := he₁
  have hnode : node = node' := rfl
  rw [hbegun, ← hnode]
  obtain ⟨z₂, hz₂, he₂, hplace⟩ := Overlays.commitPlaced (u := begun') hz₁ hs
  have hc := hz₂.context
  dsimp only
  rw [he₂, hplace]
  refine ⟨hz₂.beside_update rfl ⟨hc.access, hc.run, hc.base, hc.header, ?_, hc.enumeration,
    hc.typeAlias⟩, ?_⟩
  · exact fun n hn => hasScope_placeOf hs hn
  · exact congrArg (Option.getD · node) (node?_mapIndex hz₂ _)

theorem Overlays.openEnumeration (h : Overlays t z u) (aliased : Bool) {run : Run}
    (hrun : run.Plain) :
    Beside t (State.openEnumeration aliased run (u.over t z))
      (State.openEnumeration aliased run u) := by
  obtain ⟨hz₁, he₁⟩ := h.beginDefinition aliased hrun u.context.comment
  unfold State.openEnumeration
  extract_lets c name node typeAlias begun c' node' typeAlias' begun'
  have hs : node.hasScope = false := (hasScope_congr (scope_describe _ _)).trans rfl
  have hbegun : begun = begun'.over t z := he₁
  have hnode : node = node' := rfl
  rw [hbegun, ← hnode]
  obtain ⟨z₂, hz₂, he₂, hplace⟩ := Overlays.commitPlaced (u := begun') hz₁ hs
  have hc := hz₂.context
  dsimp only
  rw [he₂, hplace]
  refine hz₂.beside_update rfl ⟨hc.access, hc.run, hc.base, hc.header, hc.record, ?_, hc.typeAlias⟩
  exact fun n hn => hasScope_placeOf hs hn

/-! ## States -/

/-- Records the function whose header is being read, if there is one. -/
def OpenScope.commitOwnHeader (s : OpenScope) : OpenScope :=
  match s.context.header with
  | some head => s.commitHeader head
  | none => s

theorem Overlays.commitOwnHeader (h : Overlays t z u) :
    Beside t (u.over t z).commitOwnHeader u.commitOwnHeader := by
  have hheader : (u.over t z).context.header =
      u.context.header.map (Header.mapIndex (place z)) := rfl
  unfold OpenScope.commitOwnHeader
  rw [hheader]
  cases hh : u.context.header with
  | none => exact h.beside
  | some head => exact h.commitHeader (h.context.header head hh)

/-! ## Sources without namespaces -/

/-- The text has neither the keyword of a namespace nor a pair of colons in it. -/
structure Unqualified (text : List Char) : Prop where
  keyword : ¬ "namespace".toList <:+: text
  colons : ¬ "::".toList <:+: text

namespace Unqualified

variable {text : List Char}

theorem part (h : Unqualified text) {word : List Char} (hp : word <:+: text) :
    Unqualified word :=
  ⟨fun hk => h.keyword (hk.trans hp), fun hc => h.colons (hc.trans hp)⟩

theorem ne_keyword (h : Unqualified text) : String.ofList text ≠ "namespace" := by
  intro he
  have ht : text = "namespace".toList := by rw [← he, String.toList_ofList]
  exact h.keyword (ht ▸ List.infix_rfl)

theorem splitQualified (h : Unqualified text) :
    OpenScope.splitQualified (String.ofList text) = none := by
  unfold OpenScope.splitQualified
  rw [String.toList_ofList]
  cases hb : breakOn? [':', ':'] text with
  | none => rfl
  | some parts => exact absurd (infix_of_breakOn? hb) h.colons

end Unqualified

/-- The text of the word or literal that is being read. -/
def Mode.pending : Mode → List Char
  | .word text | .literal _ text | .literalEscape _ text => text
  | _ => []

theorem Mode.pending_of_literal {mode : Mode} {quote : Char} {text : List Char}
    (h : mode.literal? = some (quote, text)) : mode.pending = text := by
  cases mode with
  | literal | literalEscape =>
    cases h
    rfl
  | _ => cases h

/-- A word or literal begins with the character that is read. -/
theorem Mode.Follows.pending {c : Char} {mode next : Mode} (h : Mode.Follows c mode next)
    (hmode : mode.pending = []) : next.pending = [] ∨ next.pending = [c] := by
  cases h with
  | same => exact .inl hmode
  | slash => exact .inl rfl
  | begins hnext =>
    cases hnext with
    | directive => exact .inl rfl
    | literal | word => exact .inr rfl

theorem Mode.GivesWay.pending {mode next : Mode} {c : Char} (h : mode.GivesWay c next) :
    next.pending = [] ∨ next.pending = c :: mode.pending := by
  have hliteral := h.literal
  cases next with
  | word text => exact absurd rfl h.layer_ne
  | literal quote text | literalEscape quote text =>
    obtain ⟨l, hl, he⟩ := Option.map_eq_some_iff.mp hliteral.symm
    cases he
    exact .inr (congrArg _ (Mode.pending_of_literal hl).symm)
  | _ => exact .inl rfl

namespace State

/-- Two states of reading the same source. -/
structure Alongside (t : Node) (s v : State) : Prop where
  mode : s.mode = v.mode
  scopes : Scan.Alongside t s.scope s.enclosing v.scope v.enclosing

namespace Alongside

variable {s v : State}

theorem enter (h : s.Alongside t v) (mode : Mode) : (s.enter mode).Alongside t (v.enter mode) :=
  ⟨rfl, h.scopes⟩

theorem update (h : s.Alongside t v) {f : OpenScope → OpenScope}
    (ho : (f v.scope).origin = v.scope.origin)
    (hb : ∀ z, Overlays t z v.scope → Beside t (f (v.scope.over t z)) (f v.scope)) :
    (s.update f).Alongside t (v.update f) :=
  ⟨h.mode, h.scopes.update ho hb⟩

theorem updateContext (h : s.Alongside t v) {f : Context → Context}
    (hf : ∀ φ c, f (c.mapIndex φ) = (f c).mapIndex φ) (hp : ∀ c, c.Plain → (f c).Plain) :
    (s.update (·.update f)).Alongside t (v.update (·.update f)) :=
  h.update rfl fun _ hz => hz.beside_update (hf _ _) (hp _ hz.context)

theorem context (h : s.Alongside t v) : ∃ φ, s.scope.context = v.scope.context.mapIndex φ := by
  obtain ⟨-, hscopes⟩ := h
  generalize s.scope = inner, s.enclosing = ss, v.scope = u, v.enclosing = us at hscopes
  cases hscopes with
  | source h =>
    obtain ⟨z, -, rfl⟩ := h
    exact ⟨place z, rfl⟩
  | inner => exact ⟨id, (Context.mapIndex_id _).symm⟩

/-! ### Braces -/

theorem openBlock (h : s.Alongside t v) {f : OpenScope → OpenScope}
    (ho : (f v.scope).origin = v.scope.origin)
    (hb : ∀ z, Overlays t z v.scope → Beside t (f (v.scope.over t z)) (f v.scope)) :
    (s.openBlock f).Alongside t (v.openBlock f) := by
  refine h.update ho fun z hz => ?_
  obtain ⟨z', hz', he⟩ := hb z hz
  rw [he]
  exact hz'.beside_update rfl ((hz'.context.withClaim none).of_refs rfl rfl hz'.context.run
    hz'.context.base)

theorem openRecord (h : s.Alongside t v) (hv : v.Sound root) {kind : Kind}
    (hkind : kind.isScope = true) (aliased : Bool) {run : Run}
    (hrun : ∀ z, Overlays t z v.scope → run.Plain) :
    (s.openRecord kind aliased run).Alongside t (v.openRecord kind aliased run) := by
  have hsame : (beginRecord kind aliased run s.scope).2 = (beginRecord kind aliased run v.scope).2 := by
    obtain ⟨-, hscopes⟩ := h
    generalize s.scope = inner, s.enclosing = ss, v.scope = u, v.enclosing = us at hscopes hrun
    cases hscopes with
    | source h =>
      obtain ⟨z, hz, rfl⟩ := h
      exact (hz.beginRecord kind aliased (hrun z hz)).2
    | inner => rfl
  have hscopes := h.scopes.update (f := fun scope => (beginRecord kind aliased run scope).1)
    (sound_beginRecord hv.sound hkind aliased run).1.origin
    fun z hz => (hz.beginRecord kind aliased (hrun z hz)).1
  rw [openRecord_eq, openRecord_eq, hsame]
  exact ⟨h.mode, hscopes.push _ fun _ => rfl⟩

theorem openNameSpace (h : s.Alongside t v) (hv : v.Sound root) (name : String)
    (hne : ∀ z, ¬ Overlays t z v.scope) :
    (s.openNameSpace name).Alongside t (v.openNameSpace name) := by
  obtain ⟨hmode, hscopes⟩ := h
  have hupdate := hscopes.update (f := fun scope => (beginNameSpace name scope).1)
    (sound_beginNameSpace hv.sound name).1.origin fun z hz => absurd hz (hne z)
  rw [openNameSpace_eq, openNameSpace_eq]
  refine ⟨hmode, ?_⟩
  change Scan.Alongside t (.begin _ _) (_ :: s.enclosing) (.begin _ _) (_ :: v.enclosing)
  generalize s.scope = inner, s.enclosing = ss, v.scope = u, v.enclosing = us at *
  cases hscopes with
  | source h =>
    obtain ⟨z, hz, rfl⟩ := h
    exact absurd hz (hne z)
  | inner => exact hupdate.push _ nofun

theorem openLinkage (h : s.Alongside t v) : s.openLinkage.Alongside t v.openLinkage := by
  refine h.update rfl fun z hz => ⟨z, ⟨⟨hz.root, hz.own, hz.named, hz.unique, hz.ordered, hz.unscoped,
    ?_⟩, hz.tree, hz.old⟩, ?_⟩
  · intro c hc
    rcases List.mem_cons.mp hc with rfl | hc
    · exact Context.plain_ofScope hz.root
    · rcases List.mem_cons.mp hc with rfl | hc
      · exact hz.context.dropRun.withClaim none
      · exact hz.contexts c (List.mem_cons_of_mem _ hc)
  · have hscope : Context.ofScope (v.scope.over t z).node =
        (Context.ofScope v.scope.node).mapIndex (place z) := by
      unfold Context.ofScope
      rw [hz.kind_over]
      rfl
    simp only [hscope]
    rfl

theorem openBrace (h : s.Alongside t v) (hv : v.Sound root) :
    s.openBrace.Alongside t v.openBrace := by
  obtain ⟨φ, hφ⟩ := h.context
  have hrun : s.scope.context.run = v.scope.context.run := by
    rw [hφ]
    rfl
  have hheader : s.scope.context.header = v.scope.context.header.map (Header.mapIndex φ) := by
    rw [hφ]
    rfl
  unfold State.openBrace
  dsimp only
  rw [hrun, hheader]
  rcases hh : v.scope.context.header with _ | head
  · simp only [Option.map_none]
    split
    · rename_i kind hkind
      exact h.openRecord hv (isScope_of_recordKind? hkind) _
        fun z hz => hz.context.run.sublist (splitAlias_sublist _)
    · split
      · rename_i name rest hwords
        exact h.openNameSpace hv name fun z hz => hz.context.run.texts_ne _ hwords
      · split
        · exact h.openBlock (sound_openEnumeration hv.sound _ _).origin
            fun z hz => hz.openEnumeration _ (hz.context.run.sublist (splitAlias_sublist _))
        · split
          · exact h.openLinkage
          · exact h.openBlock rfl fun z hz => hz.beside_update rfl hz.context.dropRun
  · -- both end the header of the same function
    simp only [Option.map_some]
    have hown : ∀ w : State, ∀ head', w.scope.context.header = some head' →
        w.openBlock (·.commitHeader head') = w.openBlock OpenScope.commitOwnHeader := by
      intro w head' hw
      simp only [State.openBlock, State.update, OpenScope.commitOwnHeader, hw]
    rw [hown v head hh, hown s _ (by rw [hheader, hh]; rfl)]
    refine h.openBlock ?_ fun z hz => hz.commitOwnHeader
    simp only [OpenScope.commitOwnHeader, hh]
    exact (hv.sound.commitHeader (hv.sound.context.header head hh)).origin

theorem pop (h : s.Alongside t v) (hv : v.Sound root) : s.pop.Alongside t v.pop := by
  obtain ⟨mode, scope, enclosing⟩ := s
  obtain ⟨mode', u, us⟩ := v
  obtain ⟨hmode, hscopes⟩ := h
  dsimp only at hmode hscopes
  subst hmode
  cases hscopes with
  | source h =>
    obtain ⟨z, hz, rfl⟩ := h
    have hs : (u.over t z).suspended = u.suspended.map (Context.mapIndex (place z)) := rfl
    rcases hu : u.suspended with _ | ⟨c, cs⟩
    · simp only [State.pop, hs, hu, List.map_nil]
      exact ⟨rfl, .source hz.beside⟩
    · simp only [State.pop, hs, hu, List.map_cons]
      refine ⟨rfl, .source ⟨z, ⟨⟨hz.root, hz.own, hz.named, hz.unique, hz.ordered, hz.unscoped, ?_⟩,
        hz.tree, hz.old⟩, rfl⟩⟩
      exact fun d hd => hz.contexts d (List.mem_cons_of_mem _ (hu ▸ hd))
  | inner ho hrest =>
    rcases hu : scope.suspended with _ | ⟨c, cs⟩
    · simp only [State.pop, hu]
      obtain ⟨_, _, he, hput⟩ := (Scan.Alongside.inner ho hrest).putBack hv
      cases he
      exact ⟨rfl, hput⟩
    · simp only [State.pop, hu]
      exact ⟨rfl, .inner ho hrest⟩

theorem closeBrace (h : s.Alongside t v) (hv : v.Sound root) :
    s.closeBrace.Alongside t v.closeBrace := by
  have hbraces : s.scope.context.braces = v.scope.context.braces := by
    obtain ⟨φ, hφ⟩ := h.context
    rw [hφ]
    rfl
  rw [closeBrace_eq, closeBrace_eq, hbraces]
  split
  · exact h.updateContext (fun _ => Context.afterBlock_mapIndex) fun _ hc => hc.afterBlock
  · have hv' := hv.update (f := (·.update .afterBody)) fun hs => hs.update hs.context.afterBody
    exact (h.updateContext (fun _ => Context.afterBody_mapIndex) fun _ hc => hc.afterBody).pop hv'

/-! ### Characters -/

theorem forgetLine (h : s.Alongside t v) :
    (s.update (·.update fun c => { c with claim := none, joinable := false })).Alongside t
      (v.update (·.update fun c => { c with claim := none, joinable := false })) :=
  h.updateContext (fun _ _ => rfl) fun _ hc => (hc.withClaim none).of_refs rfl rfl hc.run hc.base

theorem endLine (h : s.Alongside t v) :
    (s.update (·.update .endLine)).Alongside t (v.update (·.update .endLine)) :=
  h.updateContext (fun _ => Context.endLine_mapIndex) fun _ hc => hc.withClaim none

theorem mark (h : s.Alongside t v) (hv : v.Sound root) (c : Char) :
    (s.mark c).Alongside t (v.mark c) := by
  refine mark_cases c ?begins ?openBrace ?closeBrace ?openParen ?closeParen ?semicolon ?comma
    ?equals ?sign ?ampersand ?colon ?other
  case begins => exact fun mode _ => h.enter mode
  case openBrace => exact fun _ => h.openBrace hv
  case closeBrace => exact fun _ => h.closeBrace hv
  case openParen =>
    exact fun _ => h.updateContext (fun _ => Context.openParen_mapIndex) fun _ hc => hc.openParen
  case closeParen =>
    exact fun _ => h.updateContext (fun _ => Context.closeParen_mapIndex) fun _ hc => hc.closeParen
  case semicolon => exact fun _ => h.update hv.sound.semicolon.origin fun _ hz => hz.semicolon
  case comma =>
    exact fun _ => h.updateContext (fun _ => Context.comma_mapIndex) fun _ hc => hc.comma
  case equals =>
    exact fun _ => h.updateContext (fun _ => Context.equals_mapIndex) fun _ hc => hc.equals
  case sign =>
    refine fun hc => h.updateContext (fun _ c => Context.pushMark_mapIndex c _) fun _ hp => ?_
    obtain rfl | rfl | rfl := hc <;> exact hp.pushMark (by decide)
  case ampersand =>
    exact fun _ => h.updateContext (fun _ c => Context.pushFragment_mapIndex c _ _)
      fun _ hc => hc.pushFragment (by decide) _
  case colon =>
    exact fun _ => h.updateContext (fun _ c => Context.pushIfStarted_mapIndex c _ _)
      fun _ hc => hc.pushIfStarted (by decide) _
  case other => exact fun _ _ => h

theorem plain (h : s.Alongside t v) (hv : v.Sound root) (c : Char) :
    (s.plain c).Alongside t (v.plain c) := by
  refine plain_cases c ?newline ?space ?slash ?mark
  case newline => exact fun _ => h.forgetLine
  case space => exact fun _ => h
  case slash => exact fun _ => h.enter _
  case mark =>
    refine fun _ _ => Alongside.mark ?_ (hv.update_refs rfl) c
    exact h.updateContext (fun _ _ => rfl) fun _ hc => hc.of_refs rfl rfl hc.run hc.base

theorem endComment (h : s.Alongside t v) (hv : v.Sound root) (text : List Char) (line : Bool) :
    (s.endComment text line).Alongside t (v.endComment text line) :=
  (h.enter .plain).update (hv.sound.takeComment _ _).origin
    fun _ hz => hz.takeComment hv.sound _ _

/-- Reading a character in both scopes, where what it does to the outermost scope is the same if it ends
a word or a literal. -/
theorem step_of (h : s.Alongside t v) (hv : v.Sound root) (c : Char)
    (hliteral : ∀ quote text, v.mode = .literal quote text → ∀ z, Overlays t z v.scope →
      Beside t
        ((v.scope.over t z).update (·.pushIfStarted (String.ofList (c :: text).reverse) true))
        (v.scope.update (·.pushIfStarted (String.ofList (c :: text).reverse) true)))
    (hword : ∀ text, v.mode = .word text → ∀ z, Overlays t z v.scope →
      Beside t ((v.scope.over t z).word (String.ofList text.reverse) c)
        (v.scope.word (String.ofList text.reverse) c)) :
    (s.step c).Alongside t (v.step c) := by
  have hparens : s.scope.context.parens = v.scope.context.parens := by
    obtain ⟨φ, hφ⟩ := h.context
    rw [hφ]
    rfl
  obtain ⟨a, ha, hs, hstep⟩ := step_acts_both h.mode hparens c
  rw [hs, hstep]
  cases a with
  | turn mode => exact h.enter mode
  | code => exact h.plain hv c
  | slash =>
    refine Alongside.plain (Alongside.updateContext (h.enter .plain) (fun φ d => ?_)
      fun d hd => ?_) (Sound.update_refs (hv.enter .plain) ?_) c
    · exact Context.pushMark_mapIndex { d with joinable := false } "/"
    · have hd' : Context.Plain { d with joinable := false } :=
        hd.of_refs rfl rfl hd.run hd.base
      exact hd'.pushMark (by decide)
    · exact (Context.refs_pushMark _ _).trans rfl
  | word text =>
    cases ha with | word hmode
    exact Alongside.plain ((h.enter .plain).update (hv.sound.word _ c).origin (hword text hmode))
      ((hv.enter .plain).update fun hs => hs.word _ c) c
  | blockComment text => exact h.endComment hv _ _
  | lineComment text => exact (h.endComment hv _ true).endLine
  | directive => exact (h.enter .plain).endLine
  | literal text =>
    cases ha with | literal hmode
    exact (h.enter .plain).update rfl (hliteral _ text hmode)

/-- Reading a character in both, where the word or literal that it may end is not qualified. -/
theorem step (h : s.Alongside t v) (hv : v.Sound root) (c : Char)
    (hfree : Unqualified (c :: v.mode.pending).reverse) :
    (s.step c).Alongside t (v.step c) := by
  refine h.step_of hv c (fun quote text hm _ hz => ?_) fun text hm _ hz => ?_
  · rw [hm] at hfree
    exact hz.beside_update (Context.pushIfStarted_mapIndex _ _ _)
      (hz.context.pushIfStarted hfree.ne_keyword _)
  · rw [hm] at hfree
    have hword : Unqualified text.reverse := hfree.part ⟨[], [c], by simp [Mode.pending]⟩
    exact hz.word hword.ne_keyword hword.splitQualified c

end Alongside

/-! ### What is being read -/

/-- A word or literal goes on with the character that is read, begins with it, or ends. -/
theorem pending_step (s : State) (c : Char) :
    (s.step c).mode.pending = [] ∨ (s.step c).mode.pending = [c] ∨
      (s.step c).mode.pending = c :: s.mode.pending := by
  obtain ⟨a, ha, hstep⟩ := s.step_acts c
  rw [hstep]
  cases a with
  | turn mode =>
    cases ha with
    | part hmode => exact .inr (.inr (by rw [hmode]; rfl))
    | outside _ hnext => exact hnext.pending.imp_right .inr
  | code =>
    cases ha with | code hmode
    exact ((s.mode_plain c).pending (by rw [hmode]; rfl)).imp_right .inl
  | slash | word text => exact ((State.mode_plain _ c).pending rfl).imp_right .inl
  | blockComment text | lineComment text | directive | literal text => exact .inl rfl

theorem Alongside.run {s v : State} {rest : List Char} (before : List Char)
    (h : s.Alongside t v) (hv : v.Sound root) (hp : v.mode.pending.reverse <:+ before)
    (hfree : Unqualified (before ++ rest)) :
    (s.run rest).Alongside t (v.run rest) ∧ (v.run rest).Sound root := by
  induction rest generalizing s v before with
  | nil => exact ⟨h, hv⟩
  | cons c rest ih =>
    have hc : Unqualified (c :: v.mode.pending).reverse := by
      refine hfree.part ?_
      obtain ⟨start, rfl⟩ := hp
      exact ⟨start, rest, by simp⟩
    have hsuffix : (v.step c).mode.pending.reverse <:+ before ++ [c] := by
      rcases pending_step v c with he | he | he
      · rw [he]
        exact List.nil_suffix
      · rw [he]
        exact ⟨before, rfl⟩
      · obtain ⟨start, rfl⟩ := hp
        exact ⟨start, by rw [he]; simp⟩
    exact ih (before ++ [c]) (h.step hv c hc) (hv.step c) hsuffix (by simpa using hfree)

end State

end HeaderDocs.Scan
