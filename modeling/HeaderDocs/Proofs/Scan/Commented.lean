import HeaderDocs.Proofs.Scan.Checked.Contexts
import HeaderDocs.Proofs.Scan.Plain
import HeaderDocs.Proofs.Scan.Scopes
import HeaderDocs.Proofs.Tree.Commented

/-!
# Comments and claims in a context

A comment waits for its declaration, or describes what a declaration on its line has claimed. A
comment that hides what it describes takes it out, so it matters that no claim is on a piece of the
text of another description (`Claim.Spares`).

* `Context.Described`: the comments of a context, and the nodes that it holds on to.
* `Context.Commented`: its claims as well.
* `Context.Commented.afterInsert`, `Context.Commented.afterRemove`: changes of the scope.
-/
namespace HeaderDocs

open HeaderDocs.Node

namespace Scan

variable {Q : String → Prop}

/-! ## Claims -/

namespace Claim

/-- A claim is not on a piece of text. -/
def Spares (scope : Node) (claim : Claim) : Prop :=
  ∀ path, claim = .recorded path → ∀ m, scope.get? path = some m → m.kind.isText = false

variable {scope new : Node} {claim : Claim} {path : Path}

theorem spares_argument (scope : Node) : Spares scope .argument := by
  intro _ he
  cases he

theorem spares_constant (scope : Node) (i : Nat) : Spares scope (.constant i) := by
  intro _ he
  cases he

/-- Only the kind of the node matters that a path leads to. -/
theorem spares_of_key {before after : Node} {p q : Path}
    (h : (after.get? q).map key = (before.get? p).map key)
    (hp : Spares before (.recorded p)) : Spares after (.recorded q) := by
  rintro _ ⟨⟩ m hm
  rw [hm, Option.map_some] at h
  obtain ⟨m', hm', hkey⟩ := Option.map_eq_some_iff.mp h.symm
  rw [← kind_eq_of_key hkey]
  exact hp p rfl m' hm'

theorem Spares.afterInsert (h : claim.Spares scope) (path : Path) :
    (claim.afterInsert path).Spares (scope.insertAt new path) := by
  cases claim with
  | recorded q => exact spares_of_key Path.map_key_get?_insertAt h
  | argument => exact spares_argument _
  | constant i => exact spares_constant _ i

theorem Spares.afterRemove? (h : claim.Spares scope) {after : Claim}
    (ha : claim.afterRemove? path = some after) : after.Spares (scope.removeAt path) := by
  cases claim with
  | recorded q =>
    obtain ⟨q', hq', rfl⟩ := Option.map_eq_some_iff.mp ha
    exact spares_of_key (Path.map_key_get?_removeAt hq') h
  | argument =>
    cases ha
    exact spares_argument _
  | constant i =>
    cases ha
    exact spares_constant _ i

/-- A claim on a node of a known kind. -/
theorem spares_of_get? {m : Node} (hm : scope.get? path = some m) (hk : m.kind.isText = false) :
    Spares scope (.recorded path) := by
  rintro _ ⟨⟩ m' hm'
  rw [hm] at hm'
  cases hm'
  exact hk

end Claim

/-! ## Types -/

theorem everywhere_commented_toType (run : Run) : run.toType.Everywhere (Node.Commented Q) := by
  have hword : ∀ c ∈ run.toType.children, c.kind = .word ∧ c.children = [] := by
    intro c hc
    obtain ⟨f, -, rfl⟩ := List.mem_map.mp hc
    exact ⟨rfl, rfl⟩
  refine everywhere_commented_undescribed (fun c hc => ?_) fun c hc => ?_
  · rw [(hword c hc).1]
    exact nofun
  · exact everywhere_commented_leaf (hword c hc).2

theorem everywhere_commented_typed {n : Node} {run : Run} (h : n.children = [run.toType]) :
    n.Everywhere (Node.Commented Q) := by
  refine everywhere_commented_undescribed (fun c hc => ?_) fun c hc => ?_ <;>
    rw [h, List.mem_singleton] at hc <;> subst hc
  · exact nofun
  · exact everywhere_commented_toType run

/-! ## Contexts -/

namespace Context

/-- The comments and the nodes that a context holds on to. -/
structure Described (Q : String → Prop) (c : Context) : Prop where
  comment : ∀ text, c.comment = some text → Q text
  runComment : ∀ text, c.runComment = some text → Q text
  header : ∀ h, c.header = some h → h.node.Everywhere (Node.Commented Q)
  record : ∀ n, c.record = some (.aside n) → n.Everywhere (Node.Commented Q)
  enumeration : ∀ n, c.enumeration = some (.aside n) → n.Everywhere (Node.Commented Q)
  typeAlias : ∀ n, c.typeAlias = some n → n.Everywhere (Node.Commented Q)

/-- The claims of a context are on no piece of text either. -/
structure Commented (Q : String → Prop) (scope : Node) (c : Context) : Prop
    extends c.Described Q where
  claims : ∀ claim ∈ c.claims, claim.Spares scope

variable {scope new removed : Node} {c d : Context} {path : Path}

theorem commented_ofScope (scope node : Node) : (Context.ofScope node).Commented Q scope :=
  ⟨⟨nofun, nofun, nofun, nofun, nofun, nofun⟩, nofun⟩

theorem eq_some_of_forgotten {α : Type} {before after : Option α} {a : α}
    (h : after = none ∨ after = before) (ha : after = some a) : before = some a := by
  rcases h with rfl | rfl
  · cases ha
  · exact ha

theorem Described.forget (h : c.Described Q)
    (hcomment : d.comment = none ∨ d.comment = c.comment)
    (hrunComment : d.runComment = none ∨ d.runComment = c.runComment)
    (hheader : d.header = none ∨ d.header = c.header)
    (hrecord : d.record = none ∨ d.record = c.record)
    (henum : d.enumeration = none ∨ d.enumeration = c.enumeration)
    (halias : d.typeAlias = none ∨ d.typeAlias = c.typeAlias) : d.Described Q := by
  exact {
    comment := fun t ht => h.comment t (eq_some_of_forgotten hcomment ht)
    runComment := fun t ht => h.runComment t (eq_some_of_forgotten hrunComment ht)
    header := fun n hn => h.header n (eq_some_of_forgotten hheader hn)
    record := fun n hn => h.record n (eq_some_of_forgotten hrecord hn)
    enumeration := fun n hn => h.enumeration n (eq_some_of_forgotten henum hn)
    typeAlias := fun n hn => h.typeAlias n (eq_some_of_forgotten halias hn) }

/-- What reading the words of a declaration may lose of a context. -/
structure Passes (c d : Context) : Prop where
  refs : d.refs = c.refs
  comment : d.comment = none ∨ d.comment = c.comment
  runComment : d.runComment = none ∨ d.runComment = c.runComment

theorem Described.of_passes (h : c.Described Q) (hd : c.Passes d) : d.Described Q := by
  have he := hd.refs
  simp only [Context.refs, Prod.mk.injEq] at he
  obtain ⟨h1, h2, h3, h4, -⟩ := he
  exact h.forget hd.comment hd.runComment (.inr h1) (.inr h2) (.inr h3) (.inr h4)

/-- Without claims only the nodes and the comment matter. -/
theorem Described.commented (h : c.Described Q) (hclaims : c.claims = []) :
    c.Commented Q scope :=
  ⟨h, by simp [hclaims]⟩

theorem Commented.of_passes (h : c.Commented Q scope) (hd : c.Passes d) :
    d.Commented Q scope := by
  refine ⟨h.toDescribed.of_passes hd, ?_⟩
  have he := hd.refs
  simp only [refs, Prod.mk.injEq] at he
  rw [show d.claims = c.claims from congrArg (Option.getD · []) he.2.2.2.2]
  exact h.claims

theorem Commented.withClaim (h : c.Commented Q scope) {claim : Option (List Claim)}
    (hclaim : ∀ one ∈ claim.getD [], one.Spares scope) : Commented Q scope { c with claim } :=
  ⟨{ h.toDescribed with }, hclaim⟩

/-! ### Reading words -/

theorem Passes.trans {e : Context} (h : c.Passes d) (h' : d.Passes e) : c.Passes e := by
  have hor : ∀ {o p q : Option String}, (p = none ∨ p = o) → (q = none ∨ q = p) →
      q = none ∨ q = o := by
    rintro o p q hp (rfl | rfl)
    · exact .inl rfl
    · exact hp
  exact ⟨h'.refs.trans h.refs, hor h.comment h'.comment, hor h.runComment h'.runComment⟩

theorem passes_startRun (c : Context) : c.Passes c.startRun := by
  refine ⟨refs_startRun c, .inr ?_, .inr ?_⟩ <;> unfold startRun <;> split <;> rfl

theorem passes_dropRun (c : Context) : c.Passes c.dropRun := ⟨rfl, .inr rfl, .inl rfl⟩

theorem passes_takeComment (c : Context) : c.Passes c.takeComment := ⟨rfl, .inl rfl, .inr rfl⟩

theorem passes_pushWord (c : Context) (word : String) : c.Passes (c.pushWord word) :=
  (passes_startRun c).trans ⟨rfl, .inr rfl, .inr rfl⟩

theorem passes_pushMark (c : Context) (mark : String) : c.Passes (c.pushMark mark) := by
  refine (passes_startRun c).trans ?_
  unfold pushMark
  dsimp only
  split <;> exact ⟨rfl, .inr rfl, .inr rfl⟩

theorem passes_pushIfStarted (c : Context) (text : String) (spaced : Bool) :
    c.Passes (c.pushIfStarted text spaced) := by
  unfold pushIfStarted
  split <;> exact ⟨rfl, .inr rfl, .inr rfl⟩

theorem passes_openParen (c : Context) : c.Passes c.openParen :=
  (passes_pushMark c "(").trans ⟨rfl, .inr rfl, .inr rfl⟩

theorem passes_equals (c : Context) : c.Passes c.equals := by
  unfold equals
  split
  · exact ⟨rfl, .inr rfl, .inr rfl⟩
  · exact passes_pushMark c "="

/-! ### Braces -/

theorem Described.afterBody (h : c.Described Q) : c.afterBody.Described Q := by
  refine h.forget (.inr rfl) (.inr rfl) (.inr rfl) (.inl rfl) ?_ (.inr rfl)
  simp only [Context.afterBody]
  split
  · exact .inl rfl
  · exact .inr rfl

theorem Described.afterBlock (h : c.Described Q) : c.afterBlock.Described Q := by
  unfold Context.afterBlock
  dsimp only
  split
  · exact h.afterBody.of_passes ⟨rfl, .inl rfl, .inl rfl⟩
  · exact h.afterBody.of_passes ⟨rfl, .inr rfl, .inr rfl⟩

theorem claims_afterBlock (c : Context) : c.afterBlock.claims = [] := by
  unfold Context.afterBlock
  dsimp only
  split <;> rfl

/-! ### Function headers -/

theorem Commented.dropHeader (h : c.Commented Q scope) : c.dropHeader.Commented Q scope := by
  refine ⟨h.toDescribed.forget (.inl rfl) (.inl rfl) (.inl rfl) (.inr rfl) (.inr rfl) (.inr rfl),
    fun claim hclaim => h.claims claim ?_⟩
  unfold Context.claims Context.dropHeader at hclaim
  unfold Context.claims
  cases hc : c.claim with
  | none => simp [hc] at hclaim
  | some claims =>
    rw [hc] at hclaim
    exact (List.mem_filter.mp hclaim).1

/-- A claim on the last argument becomes one on the place where it was recorded. -/
theorem Commented.settleArgument (h : c.Commented Q scope) {path : Option Path}
    (hp : ∀ p, path = some p → Claim.Spares scope (.recorded p)) :
    (c.settleArgument path).Commented Q scope := by
  refine h.withClaim fun claim hclaim => ?_
  cases hc : c.claim with
  | none => simp [hc] at hclaim
  | some claims =>
    rw [hc] at hclaim
    obtain ⟨before, hbefore, he⟩ := List.mem_filterMap.mp hclaim
    have hspares := h.claims before (by simpa [Context.claims, hc] using hbefore)
    cases before with
    | recorded q =>
      cases he
      exact hspares
    | argument =>
      obtain ⟨p, hpath, rfl⟩ := Option.map_eq_some_iff.mp he
      exact hp p hpath
    | constant i =>
      cases he
      exact Claim.spares_constant _ i

theorem Commented.addArgument (h : c.Commented Q scope) : c.addArgument.Commented Q scope := by
  unfold Context.addArgument
  split
  · exact h
  · rename_i head hhead
    split
    · rename_i d _
      refine ⟨{ (h.of_passes (passes_dropRun c)).toDescribed with header := ?_ },
        fun claim hclaim => ?_⟩
      · rintro _ ⟨⟩
        refine everywhere_commented_of_mem (h.header head hhead) rfl fun a ha => ?_
        rcases List.mem_append.mp ha with ha | ha
        · exact .inl ha
        · rw [List.mem_singleton.mp ha]
          exact .inr ⟨nofun, everywhere_commented_typed rfl⟩
      · rw [List.mem_singleton.mp hclaim]
        exact Claim.spares_argument _
    · exact (h.of_passes (passes_dropRun c)).withClaim nofun

theorem Commented.endArgument (h : c.Commented Q scope) : c.endArgument.Commented Q scope := by
  unfold Context.endArgument
  split
  · exact h.addArgument
  · exact h.of_passes (passes_dropRun c)

theorem Commented.closeParen (h : c.Commented Q scope) : c.closeParen.Commented Q scope := by
  unfold Context.closeParen
  dsimp only
  split
  · have he := h.endArgument
    exact ⟨{ he.toDescribed with
      header := forall_of_function? (function?_closeArguments c.endArgument) he.header }, he.claims⟩
  · split
    · exact h.of_passes ((passes_pushIfStarted c ")" false).trans ⟨rfl, .inr rfl, .inr rfl⟩)
    · exact h.of_passes ⟨rfl, .inr rfl, .inr rfl⟩

theorem Commented.comma (h : c.Commented Q scope) : c.comma.Commented Q scope := by
  unfold Context.comma
  split
  · exact h.of_passes ⟨rfl, .inr rfl, .inr rfl⟩
  · split
    · exact h.endArgument
    · exact h.of_passes (passes_pushIfStarted c "," false)

/-! ### Changes of the scope -/

theorem Described.afterInsert (h : c.Described Q) (path : Path) :
    (c.afterInsert path).Described Q :=
  { h with
    header := forall_of_function? (function?_afterInsert path c) h.header
    record := Place.forall_aside_afterInsert h.record
    enumeration := Place.forall_aside_afterInsert h.enumeration }

/-- A node that is taken out is kept aside. -/
theorem Described.afterRemove (h : c.Described Q) (path : Path)
    (hr : removed.Everywhere (Node.Commented Q)) : (c.afterRemove path removed).Described Q :=
  { h with
    header := forall_of_function? (function?_afterRemove path removed c) h.header
    record := Place.forall_aside_afterRemove h.record fun _ => hr
    enumeration := Place.forall_aside_afterRemove h.enumeration fun _ => hr }

theorem Commented.afterInsert (h : c.Commented Q scope) :
    (c.afterInsert path).Commented Q (scope.insertAt new path) := by
  refine ⟨h.toDescribed.afterInsert path, fun claim hclaim => ?_⟩
  rw [claims_afterInsert] at hclaim
  obtain ⟨before, hbefore, rfl⟩ := List.mem_map.mp hclaim
  exact (h.claims before hbefore).afterInsert path

theorem Commented.afterRemove (h : c.Commented Q scope)
    (hr : removed.Everywhere (Node.Commented Q)) :
    (c.afterRemove path removed).Commented Q (scope.removeAt path) := by
  refine ⟨h.toDescribed.afterRemove path hr, fun claim hclaim => ?_⟩
  rw [claims_afterRemove] at hclaim
  obtain ⟨before, hbefore, ha⟩ := List.mem_filterMap.mp hclaim
  exact (h.claims before hbefore).afterRemove? ha

end Context

end Scan

end HeaderDocs
