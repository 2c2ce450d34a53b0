import HeaderDocs.Proofs.Scan.EnumerationBodies
import HeaderDocs.Proofs.Scan.EnumerationConstants
import HeaderDocs.Proofs.Scan.Invariants
import HeaderDocs.Proofs.Scan.Merge
import HeaderDocs.Proofs.Scan.Splitting

/-!
# Enumerations that are all that a source has recorded

While the body of the only enumeration of a source is read, nothing but its constants changes in the
tree, and nothing is left behind but brackets and comments that the closing brace drops
(`InEnumerators.invariant`). So any body in which the brackets nest can be read into two trees at once, whatever
comments, literals and blocks it has: a word in it declares a constant or nothing.

* `State.Alongside.run_enumerators`: reading a body into two trees.
* `State.step_closeEnumeration`: what its closing brace leaves behind.
-/
namespace HeaderDocs.Scan

open HeaderDocs.Node

/-! ## The scope in a body -/

/-- The context in the body of the enumeration that is the only child of the scope: nothing is being
declared, and comments claim nothing but constants. -/
structure Context.Enumerates (c : Context) : Prop where
  run : c.run = []
  runComment : c.runComment = none
  base : c.base = []
  header : c.header = none
  record : c.record = none
  typeAlias : c.typeAlias = none
  claim : c.ClaimsConstants
  enumeration : ∀ place, c.enumeration = some place → place = .inScope 0

namespace Context.Enumerates

variable {c : Context}

theorem withClaim (h : c.Enumerates) {claim : Option (List Claim)}
    (hclaim : Context.ClaimsConstants { c with claim }) :
    Enumerates { c with claim } :=
  ⟨h.run, h.runComment, h.base, h.header, h.record, h.typeAlias, hclaim, h.enumeration⟩

theorem withComment (h : c.Enumerates) (comment : Option String) (joinable : Bool) :
    Enumerates { c with comment, joinable } :=
  ⟨h.run, h.runComment, h.base, h.header, h.record, h.typeAlias, h.claim, h.enumeration⟩

theorem withInValue (h : c.Enumerates) (inValue : Bool) : Enumerates { c with inValue } :=
  ⟨h.run, h.runComment, h.base, h.header, h.record, h.typeAlias, h.claim, h.enumeration⟩

theorem withParens (h : c.Enumerates) (parens : Nat) : Enumerates { c with parens } :=
  ⟨h.run, h.runComment, h.base, h.header, h.record, h.typeAlias, h.claim, h.enumeration⟩

theorem dropRun (h : c.Enumerates) : c.dropRun.Enumerates :=
  ⟨rfl, rfl, h.base, h.header, h.record, h.typeAlias, h.claim, h.enumeration⟩

theorem startRun (h : c.Enumerates) : c.startRun.Enumerates := by
  unfold Context.startRun
  split
  · exact ⟨h.base, h.runComment, rfl, h.header, h.record, h.typeAlias, h.claim, h.enumeration⟩
  · exact h

theorem pushIfStarted (h : c.Enumerates) (text : String) (spaced : Bool) :
    (c.pushIfStarted text spaced).Enumerates := by
  rw [Context.pushIfStarted, if_pos (by simp [h.run])]
  exact h

theorem pushFragment (h : c.Enumerates) (text : String) (spaced : Bool) :
    (c.pushFragment text spaced).Enumerates :=
  h.startRun.pushIfStarted text spaced

theorem pushMark (h : c.Enumerates) (mark : String) : (c.pushMark mark).Enumerates := by
  unfold Context.pushMark
  dsimp only
  rw [if_pos (by simp [h.startRun.run])]
  exact h.startRun

theorem comma (h : c.Enumerates) : c.comma.Enumerates := by
  unfold Context.comma
  split
  · exact h.withInValue false
  · rw [if_neg (by simp [Context.inArguments, h.header])]
    exact h.pushIfStarted _ _

theorem equals (h : c.Enumerates) : c.equals.Enumerates := by
  unfold Context.equals
  split
  · exact h.withInValue true
  · exact h.pushMark _

theorem openParen (h : c.Enumerates) : c.openParen.Enumerates :=
  (h.pushMark "(").withParens _

theorem closeParen (h : c.Enumerates) : c.closeParen.Enumerates := by
  unfold Context.closeParen
  rw [if_neg (by simp [Context.inArguments, h.header])]
  split
  · exact (h.pushIfStarted _ _).withParens _
  · exact h.withParens _

theorem afterInsert (h : c.Enumerates) (e i : Nat) : (c.afterInsert [e, i]).Enumerates := by
  refine ⟨h.run, h.runComment, h.base, ?_, ?_, h.typeAlias, h.claim.afterInsert _, ?_⟩
  · simp [Context.afterInsert, h.header]
  · simp [Context.afterInsert, h.record]
  · intro place hplace
    obtain ⟨before, hbefore, rfl⟩ := Option.map_eq_some_iff.mp hplace
    rw [Place.afterInsert_below e (List.cons_ne_nil i [])]
    exact h.enumeration before hbefore

theorem afterRemove (h : c.Enumerates) (e i : Nat) (removed : Node) :
    (c.afterRemove [e, i] removed).Enumerates := by
  refine ⟨h.run, h.runComment, h.base, ?_, ?_, h.typeAlias, h.claim.afterRemove _ _, ?_⟩
  · simp [Context.afterRemove, h.header]
  · simp [Context.afterRemove, h.record]
  · intro place hplace
    obtain ⟨before, hbefore, rfl⟩ := Option.map_eq_some_iff.mp hplace
    rw [Place.afterRemove_below e (List.cons_ne_nil i [])]
    exact h.enumeration before hbefore

end Context.Enumerates

/-- The scope of a source that has recorded one enumeration, in its body. -/
structure OpenScope.Enumerates (name : String) (s : OpenScope) : Prop where
  context : s.context.Enumerates
  declared : s.declared = [(.enumType, name)]
  children : s.node.children.map key = [(.enumType, some name)]

namespace OpenScope.Enumerates

variable {name : String} {s : OpenScope}

theorem update (h : s.Enumerates name) {f : Context → Context} (hf : (f s.context).Enumerates) :
    (s.update f).Enumerates name :=
  ⟨hf, h.declared, h.children⟩

theorem modifyChild (h : s.Enumerates name) {f : Node → Node} (hf : ∀ c, (f c).key = c.key) {e : Nat}
    {t : OpenScope} (hcontext : t.context.Enumerates) (hdeclared : t.declared = s.declared)
    (hchildren : t.node.children = s.node.children.modify e f) : t.Enumerates name := by
  refine ⟨hcontext, hdeclared.trans h.declared, ?_⟩
  rw [hchildren, map_modify_eq fun c _ => hf c]
  exact h.children

/-- What is done to the constants leaves the scope in the body. -/
theorem keptByConstants (name : String) : KeptByConstants (OpenScope.Enumerates name) where
  claims h := h.context.claim
  withClaim h _ hclaim := h.update (h.context.withClaim hclaim)
  withComment h comment joinable := h.update (h.context.withComment comment joinable)
  note h _ := ⟨h.context, h.declared, h.children⟩
  insertAt h new e i :=
    h.modifyChild (fun c => key_insertAt c new [i]) (h.context.afterInsert e i) rfl rfl
  removeAt {s} h e i := by
    unfold OpenScope.removeAt
    split
    · exact h.modifyChild (fun c => key_removeAt c [i]) (h.context.afterRemove e i _) rfl rfl
    · exact h
  describeAt h raw _ i :=
    h.modifyChild (fun c => key_modifyAt (fun m => key_describe m raw) c [i]) h.context rfl rfl
  withAside h old haside _ := by
    cases h.context.enumeration (.aside old) haside

theorem word (h : s.Enumerates name) (hbraces : s.context.braces ≠ 0) (word : String)
    (terminator : Char) : (s.word word terminator).Enumerates name := by
  unfold OpenScope.word
  dsimp only
  rw [if_neg (by simpa using hbraces)]
  split
  · split
    · exact (keptByConstants name).declareConstant h word
    · exact h
  · exact h.update h.context.dropRun

theorem semicolon (h : s.Enumerates name) (hbraces : s.context.braces ≠ 0) :
    s.semicolon.Enumerates name := by
  have hend : s.endHeader.endRun = s := by
    simp [OpenScope.endHeader, OpenScope.endRun, OpenScope.declaresVariable, h.context.header,
      h.context.run, Run.texts, hbraces]
  unfold OpenScope.semicolon
  rw [hend]
  refine h.update ?_
  have hdrop := h.context.dropRun
  dsimp only
  rw [if_neg (by simpa [Context.dropRun] using hbraces)]
  exact ⟨hdrop.run, hdrop.runComment, rfl, hdrop.header, rfl, hdrop.typeAlias, hdrop.claim,
    hdrop.enumeration⟩

theorem openBrace_eq {s : State} (h : s.scope.Enumerates name) :
    s.openBrace = s.openBlock (·.update .dropRun) := by
  unfold State.openBrace
  simp [h.context.header, h.context.run, State.splitAlias, Run.texts, State.recordKind?]

end OpenScope.Enumerates

/-! ## Brackets -/

/-- The scope of a source in the body of the enumeration that it has recorded, where `awaited` are the
closing brackets that come before the brace of the enumeration. -/
structure OpenScope.InEnumerators (name : String) (awaited : List Char) (s : OpenScope) : Prop where
  scope : s.Enumerates name
  skeleton : s.skeleton = (.source, .root, [((1 + awaited.count '\x7d', awaited.count ')'), none)])

namespace OpenScope.InEnumerators

variable {name : String} {awaited : List Char} {s t : OpenScope}

theorem parts (h : s.InEnumerators name awaited) :
    s.origin = .source ∧ s.node.kind = .root ∧ s.suspended = [] ∧
      s.context.braces = 1 + awaited.count '\x7d' ∧ s.context.parens = awaited.count ')' ∧
      s.context.access = none := by
  have hs := h.skeleton
  simp only [OpenScope.skeleton, List.map_cons, Prod.mk.injEq, List.cons.injEq,
    List.map_eq_nil_iff, Context.brackets] at hs
  obtain ⟨horigin, hkind, ⟨⟨hbraces, hparens⟩, haccess⟩, hsuspended⟩ := hs
  rw [hkind] at haccess
  exact ⟨horigin, hkind, hsuspended, hbraces, hparens, haccess⟩

theorem braces_ne_zero (h : s.InEnumerators name awaited) : s.context.braces ≠ 0 := by
  rw [h.parts.2.2.2.1]
  omega

/-- What changes neither the brackets nor the constants that are read. -/
theorem of_skeleton (h : s.InEnumerators name awaited) (ht : t.Enumerates name)
    (hs : t.skeleton = s.skeleton) : t.InEnumerators name awaited :=
  ⟨ht, hs.trans h.skeleton⟩

theorem update {rest : List Char} (h : s.InEnumerators name awaited) {f : Context → Context}
    (hf : (f s.context).Enumerates)
    (hs : (f s.context).skeleton = ((1 + rest.count '\x7d', rest.count ')'), s.context.access)) :
    (s.update f).InEnumerators name rest := by
  refine ⟨h.scope.update hf, ?_⟩
  obtain ⟨horigin, hkind, hsuspended, -, -, haccess⟩ := h.parts
  obtain ⟨hbrackets, ha⟩ := Prod.mk.inj hs
  simp only [OpenScope.skeleton, OpenScope.update, horigin, hkind, hsuspended, hbrackets, ha,
    haccess, List.map_cons, List.map_nil]
  rfl

/-- Nothing that is read in the body changes more than the constants. -/
theorem invariant (name : String) : Invariant true (InEnumerators name) where
  interrupted h := h.of_skeleton (h.scope.update (h.scope.context.withComment _ false)) rfl
  endLine h := h.of_skeleton (h.scope.update (h.scope.context.withClaim (Context.claimsConstants_of_none rfl))) rfl
  word h word terminator :=
    h.of_skeleton (h.scope.word h.braces_ne_zero word terminator) (skeleton_word _ word terminator)
  takeComment h text line :=
    h.of_skeleton ((Enumerates.keptByConstants name).takeComment h.scope h.braces_ne_zero
      (.inl h.scope.context.run) text line) (skeleton_takeComment _ text line)
  pushMark h text :=
    h.of_skeleton (h.scope.update (h.scope.context.pushMark text))
      (skeleton_update _ (Context.skeleton_pushMark _ text))
  pushFragment h text spaced :=
    h.of_skeleton (h.scope.update (h.scope.context.pushFragment text spaced))
      (skeleton_update _ (Context.skeleton_pushFragment _ text spaced))
  pushIfStarted h text spaced :=
    h.of_skeleton (h.scope.update (h.scope.context.pushIfStarted text spaced))
      (skeleton_update _ (Context.skeleton_pushIfStarted _ text spaced))
  comma h :=
    h.of_skeleton (h.scope.update h.scope.context.comma)
      (skeleton_update _ (Context.skeleton_comma _))
  equals h :=
    h.of_skeleton (h.scope.update h.scope.context.equals)
      (skeleton_update _ (Context.skeleton_equals _))
  openParen {awaited s} h := by
    obtain ⟨-, -, -, hbraces, hparens, -⟩ := h.parts
    refine h.update h.scope.context.openParen ?_
    rw [Context.skeleton_openParen, hbraces, hparens]
    simp
  closeParen {awaited s} h := by
    obtain ⟨-, -, -, hbraces, hparens, -⟩ := h.parts
    refine h.update h.scope.context.closeParen ?_
    rw [Context.skeleton_closeParen, hbraces, hparens]
    simp
  semicolon _ _ _ h :=
    h.of_skeleton (h.scope.semicolon h.braces_ne_zero) (skeleton_semicolon _)
  openBrace _ awaited s h := by
    obtain ⟨-, -, -, hbraces, hparens, -⟩ := h.parts
    rw [h.scope.openBrace_eq]
    refine ⟨h.update (f := fun c => { c.dropRun with braces := c.braces + 1, claim := none }) ?_ ?_,
      rfl⟩
    · have hdrop := h.scope.context.dropRun
      exact ⟨hdrop.run, hdrop.runComment, hdrop.base, hdrop.header, hdrop.record, hdrop.typeAlias,
        Context.claimsConstants_of_none rfl, hdrop.enumeration⟩
    · simp [Context.skeleton, Context.brackets, Context.dropRun, hbraces, hparens, Nat.add_assoc]
  closeBrace _ awaited s h := by
    obtain ⟨-, -, -, hbraces, hparens, -⟩ := h.parts
    rw [State.closeBrace_eq, if_pos (by omega)]
    refine ⟨h.update ?_ ?_, rfl⟩
    · have hc := h.scope.context
      have htwo : (s.scope.context.braces - 1 == 0) = false := by
        rw [hbraces]
        simp
      unfold Context.afterBlock
      dsimp only
      rw [if_neg (by simpa [Context.afterBody] using htwo)]
      refine ⟨hc.run, hc.runComment, hc.base, hc.header, rfl, hc.typeAlias,
        Context.claimsConstants_of_none rfl, fun place hp => ?_⟩
      exact absurd hp (by simp [Context.afterBody, hc.typeAlias])
    · rw [Context.skeleton_afterBlock, hbraces, hparens]
      simp [Nat.add_comm]

end OpenScope.InEnumerators

/-! ## Reading a body into two trees -/

/-- A source that has recorded one enumeration and nothing else, between declarations. -/
structure OpenScope.HasEnumeration (name : String) (u : OpenScope) : Prop where
  origin : u.origin = .source
  suspended : u.suspended = []
  context : u.context = {}
  declared : u.declared = [(.enumType, name)]
  children : u.node.children.map key = [(.enumType, some name)]

namespace State

variable {name : String} {t : Node} {root : Kind × Option String} {n n' : Nesting} {s v : State}

/-- No word and no literal of a body tells the two trees apart. -/
theorem Alongside.step_enumerators (h : s.Alongside t v) (hv : v.Sound root)
    (hin : Inside (OpenScope.InEnumerators name) [] n v) (c : Char) :
    (s.step c).Alongside t (v.step c) := by
  refine h.step_of hv c (fun quote text _ z hz => ?_) fun text _ z hz => ?_
  · have hrun : v.scope.context.run.isEmpty = true := by simp [hin.scope.scope.context.run]
    refine hz.beside_update (Context.pushIfStarted_mapIndex _ _ _) ?_
    rw [Context.pushIfStarted, if_pos hrun]
    exact hz.context
  · exact hz.wordIn (fun hzero => absurd hzero hin.scope.braces_ne_zero) c

theorem Alongside.run_enumerators (h : s.Alongside t v) (hv : v.Sound root)
    (hin : Inside (OpenScope.InEnumerators name) [] n v) {text : List Char}
    (ht : text.foldlM Nesting.read? n = some n') :
    (s.run text).Alongside t (v.run text) ∧ (v.run text).Sound root ∧
      Inside (OpenScope.InEnumerators name) [] n' (v.run text) := by
  induction text generalizing n s v with
  | nil =>
    cases ht
    exact ⟨h, hv, hin⟩
  | cons c text ih =>
    rw [List.foldlM_cons] at ht
    obtain ⟨m, hm, ht⟩ := Option.bind_eq_some_iff.mp ht
    rw [← Nesting.readIn?_true] at hm
    exact ih (h.step_enumerators hv hin c) (hv.step c)
      (hin.step (OpenScope.InEnumerators.invariant name) hm) ht

/-- The closing brace of the enumeration leaves no context behind. -/
theorem step_closeEnumeration (hin : Inside (OpenScope.InEnumerators name) [] n v)
    (hlayer : n.layer = .code ∨ n.layer = .slash) (hawaited : n.awaited = []) :
    ∃ u : OpenScope, v.step '\x7d' = { scope := u } ∧ u.HasEnumeration name := by
  obtain ⟨⟨mode, scope, enclosing⟩, hstep, rfl, rfl, hin⟩ :=
    hin.step_bracket (OpenScope.InEnumerators.invariant name) hlayer (c := '\x7d') (by decide)
  have hscope : scope.InEnumerators name [] := hawaited ▸ hin
  obtain ⟨horigin, -, hsuspended, hbraces, hparens, haccess⟩ := hscope.parts
  simp only [List.count_nil, Nat.add_zero] at hbraces hparens
  obtain ⟨⟨hcontext, hdeclared, hchildren⟩, -⟩ := hscope
  have hclose : v.step '\x7d' =
      { scope := (scope.update .interrupted).update .afterBlock } := by
    rw [hstep]
    change (State.closeBrace { scope := scope.update .interrupted }) = _
    rw [closeBrace_eq, if_pos (by simp [OpenScope.update, Context.interrupted, hbraces])]
    rfl
  refine ⟨_, hclose, horigin, hsuspended, ?_, hdeclared, hchildren⟩
  obtain ⟨hrun, hrunComment, hbase, hheader, hrecord, htypeAlias, -, -⟩ := hcontext
  simp [OpenScope.update, Context.interrupted, Context.afterBlock, Context.afterBody, hbraces, hparens,
    haccess, hrun, hrunComment, hbase, hheader, htypeAlias]

/-- Behind an enumeration a semicolon and white space change nothing. -/
theorem run_semicolon_gap {u : OpenScope} (hcontext : u.context = {}) {gap : List Char}
    (hgap : IsGap gap) : ({ scope := u } : State).run (';' :: gap) = { scope := u } := by
  obtain ⟨node, origin, attached, context, suspended, declared, events⟩ := u
  cases hcontext
  exact run_gap_unclaimed (c := {}) rfl rfl hgap

end State

end HeaderDocs.Scan
